import Mathlib.Data.List.TakeWhile
import Cyntatic.Compiler.Lexer

/-! What `strtoull` makes of the digits of a number. -/

namespace Cyntatic

/-- The number that some digits denote. -/
def digitsValue (base : Nat) (s : List U8) : Nat := s.foldl (fun n c => n * base + (digit? base c).getD 0) 0

theorem digit?_of_isDigit {base : Nat} {c : U8} (hc : isDigit c) (hbase : c.toNat - 48 < base) :
    digit? base c = some (c.toNat - 48) := by
  unfold digit?
  rw [if_pos hc]
  exact if_pos hbase

theorem isDigit_iff {c : U8} : isDigit c = true ↔ 48 ≤ c.toNat ∧ c.toNat ≤ 57 := by
  unfold isDigit
  rw [decide_eq_true_iff, BitVec.le_def, BitVec.le_def]
  exact Iff.rfl

theorem isSome_digit?_le {base base' : Nat} (h : base ≤ base') {c : U8} (hc : (digit? base c).isSome) :
    (digit? base' c).isSome := by
  unfold digit? at hc ⊢
  by_cases hdigit : isDigit c = true
  · simp only [if_pos hdigit] at hc ⊢
    split at hc
    · rw [if_pos (by omega)]
      rfl
    · cases hc
  by_cases hlower : isLower c = true
  · simp only [if_neg hdigit, if_pos hlower] at hc ⊢
    split at hc
    · rw [if_pos (by omega)]
      rfl
    · cases hc
  by_cases hupper : isUpper c = true
  · simp only [if_neg hdigit, if_neg hlower, if_pos hupper] at hc ⊢
    split at hc
    · rw [if_pos (by omega)]
      rfl
    · cases hc
  · simp [if_neg hdigit, if_neg hlower, if_neg hupper] at hc

/-- No digit is a space, a sign or the letter of a prefix. -/
theorem digit_plain : ∀ c : U8, (digit? 16 c).isSome → isSpace c = false ∧ c ≠ chr '-' ∧ c ≠ chr '+' ∧ toUpper c ≠ chr 'X' := by
  decide +kernel

/-- Digits, which no space, sign or prefix comes before, are read to the end. -/
theorem strtoull_eq {base : Nat} {s : List U8} (hbase : base ≤ 16) (hs : s ≠ []) (hdigits : ∀ c ∈ s, (digit? base c).isSome) :
    strtoull s base = if digitsValue base s < 2 ^ 64 then ⟨BitVec.ofNat 64 (digitsValue base s), false, s.length⟩
      else ⟨BitVec.allOnes 64, true, s.length⟩ := by
  have hplain := fun c hc => digit_plain c (isSome_digit?_le hbase (hdigits c hc))
  have hx : toUpper (s.getD 1 0) ≠ chr 'X' := by
    rw [List.getD_eq_getElem?_getD]
    rcases h : s[1]? with _ | c
    · decide
    · exact (hplain c (List.mem_of_getElem? h)).2.2.2
  have htake : s.takeWhile (fun c => (digit? base c).isSome) = s := List.takeWhile_eq_self_iff.mpr hdigits
  obtain ⟨c, t, rfl⟩ := List.exists_cons_of_ne_nil hs
  obtain ⟨hspace, hminus, hplus, -⟩ := hplain c List.mem_cons_self
  have hspaces : ((c :: t).takeWhile isSpace).length = 0 := by
    rw [List.takeWhile_cons_of_neg (by simp [hspace]), List.length_nil]
  have hprefix : ¬(base = 16 ∧ c = chr '0' ∧ toUpper ((c :: t).getD 1 0) = chr 'X' ∧ isXDigit ((c :: t).getD 2 0)) :=
    fun h => hx h.2.2.1
  have hsign : ¬(c = chr '-' ∨ c = chr '+') := not_or.mpr ⟨hminus, hplus⟩
  have hhead : (c :: t).getD 0 0 = c := rfl
  unfold strtoull
  simp only [hspaces, hhead, if_neg hsign, Nat.zero_add, List.drop_zero]
  rw [if_neg hprefix, List.drop_zero, htake, if_neg (List.cons_ne_nil c t), if_neg hminus, Nat.zero_add, digitsValue]

/-- A number of digits, which no space, sign or prefix comes before. -/
theorem strtoull_digits {base : Nat} {s : List U8} (hbase : base ≤ 10) (hs : s ≠ []) (hdigits : ∀ c ∈ s, isDigit c)
    (hlt : ∀ c ∈ s, c.toNat - 48 < base) (hvalue : digitsValue base s < 2 ^ 64) :
    strtoull s base = ⟨BitVec.ofNat 64 (digitsValue base s), false, s.length⟩ := by
  rw [strtoull_eq (by omega) hs fun c hc => ?_, if_pos hvalue]
  rw [digit?_of_isDigit (hdigits c hc) (hlt c hc)]
  rfl

/-! ### Decimals -/

/-- The digits of a number. -/
def decimal (n : Nat) : List U8 := ascii (Nat.toDigits 10 n)

theorem toNat_of_isDigit {c : Char} (h : c.isDigit) : 48 ≤ c.toNat ∧ c.toNat ≤ 57 ∧ (chr c).toNat = c.toNat := by
  simp only [Char.isDigit, Bool.and_eq_true, decide_eq_true_eq] at h
  have hlow : 48 ≤ c.toNat := h.1
  have hhigh : c.toNat ≤ 57 := h.2
  refine ⟨hlow, hhigh, ?_⟩
  rw [chr, BitVec.toNat_ofNat]
  omega

theorem isDigit_of_mem_decimal {n : Nat} {c : U8} (hc : c ∈ decimal n) : isDigit c = true := by
  obtain ⟨d, hd, rfl⟩ := List.mem_map.mp hc
  have hdigit := toNat_of_isDigit (Nat.isDigit_of_mem_toDigits (by decide) (by decide) hd)
  refine isDigit_iff.mpr ?_
  change 48 ≤ (chr d).toNat ∧ (chr d).toNat ≤ 57
  omega

theorem foldl_digits {l : List Char} (hl : ∀ c ∈ l, c.isDigit) (n : Nat) :
    (ascii l).foldl (fun n c => n * 10 + (digit? 10 c).getD 0) n = Nat.ofDigitChars 10 l n := by
  induction l generalizing n with
  | nil => rfl
  | cons c l ih =>
    have hdigit := toNat_of_isDigit (hl c List.mem_cons_self)
    have hvalue : (digit? 10 (chr c)).getD 0 = c.toNat - 48 := by
      rw [digit?_of_isDigit (isDigit_iff.mpr (by omega)) (by omega), hdigit.2.2]
      rfl
    rw [Nat.ofDigitChars_cons, ← ih fun d hd => hl d (List.mem_cons_of_mem c hd)]
    change (ascii l).foldl _ (n * 10 + (digit? 10 (chr c)).getD 0) = _
    rw [hvalue, Nat.mul_comm]
    rfl

theorem digitsValue_decimal (n : Nat) : digitsValue 10 (decimal n) = n :=
  (foldl_digits (fun _ hc => Nat.isDigit_of_mem_toDigits (by decide) (by decide) hc) 0).trans Nat.ofDigitChars_ten_toDigits

theorem decimal_ne_nil (n : Nat) : decimal n ≠ [] := by
  intro h
  exact Nat.toDigits_ne_nil (List.map_eq_nil_iff.mp h)

theorem length_decimal {n : Nat} (h : n < 2 ^ 64) : (decimal n).length ≤ 20 := by
  rw [decimal, ascii, List.length_map, Nat.length_toDigits_le_iff (by decide) (by decide)]
  omega

theorem strtoull_decimal {n : Nat} (h : n < 2 ^ 64) :
    strtoull (decimal n) 10 = ⟨BitVec.ofNat 64 n, false, (decimal n).length⟩ := by
  have hvalue := digitsValue_decimal n
  rw [strtoull_digits (Nat.le_refl 10) (decimal_ne_nil n) (fun c hc => isDigit_of_mem_decimal hc), hvalue]
  · intro c hc
    have := isDigit_iff.mp (isDigit_of_mem_decimal hc)
    omega
  · rwa [hvalue]

/-- No number but zero starts with a zero. -/
theorem head_decimal {n : Nat} (h : n ≠ 0) : (decimal n).headD 0 ≠ chr '0' := by
  induction n using Nat.strongRecOn with
  | ind n ih =>
    rcases Nat.lt_or_ge n 10 with hlt | hge
    · have hdigit : ∀ d < 10, d ≠ 0 → (ascii [Nat.digitChar d]).headD 0 ≠ chr '0' := by decide
      rw [decimal, Nat.toDigits_of_lt_base hlt]
      exact hdigit n hlt h
    · have happ : decimal n = decimal (n / 10) ++ ascii [Nat.digitChar (n % 10)] := by
        rw [decimal, Nat.toDigits_of_base_le (by decide) hge, ascii, List.map_append]
        rfl
      obtain ⟨c, t, hct⟩ := List.exists_cons_of_ne_nil (decimal_ne_nil (n / 10))
      have hrec := ih (n / 10) (by omega) (by omega)
      rw [happ]
      rw [hct] at hrec ⊢
      exact hrec

end Cyntatic
