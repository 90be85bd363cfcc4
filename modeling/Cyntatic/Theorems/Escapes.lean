import Mathlib.Data.Nat.Digits.Defs
import Cyntatic.Theorems.LexerEscapes
import Cyntatic.Theorems.Numbers

/-! The escapes of the language, each with its text and the code point that it denotes, and when the lexer reads them. -/

namespace Cyntatic
open Library Prog

/-! ### Digits -/

/-- A digit is shifted in from the right. -/
theorem shiftLeft_or (n k : Nat) {d : U8} (hd : d.toNat < 2 ^ k) :
    BitVec.ofNat 32 n <<< k ||| d.setWidth 32 = BitVec.ofNat 32 (n * 2 ^ k + d.toNat) := by
  refine BitVec.eq_of_toNat_eq ?_
  rw [BitVec.toNat_or, BitVec.toNat_shiftLeft, BitVec.toNat_setWidth, BitVec.toNat_ofNat, BitVec.toNat_ofNat,
    ← Nat.or_mod_two_pow, ← Nat.shiftLeft_add_eq_or_of_lt hd, Nat.shiftLeft_eq, Nat.add_mod, Nat.mod_mul_mod,
    ← Nat.add_mod]

theorem hexDigit?_toNat : ∀ c : U8, (hexDigit? c).map BitVec.toNat = digit? 16 c := by decide +kernel

theorem octDigit_toNat : ∀ c : U8, isOct c = true → (c - chr '0').toNat = (digit? 8 c).getD 0 := by decide +kernel

theorem digit?_lt {base d : Nat} {c : U8} (h : digit? base c = some d) : d < base := by
  obtain ⟨hlt, heq⟩ := Option.ite_none_right_eq_some.mp h
  exact Option.some.inj heq ▸ hlt

theorem getD_digit?_lt {base : Nat} (hbase : 0 < base) (c : U8) : (digit? base c).getD 0 < base := by
  cases h : digit? base c with
  | none => exact hbase
  | some d => exact digit?_lt h

theorem hexDigit?_inj {c d : U8} (hc : isXDigit c) (hd : isXDigit d) (h : (digit? 16 c).getD 0 = (digit? 16 d).getD 0) :
    hexDigit? c = hexDigit? d := by
  obtain ⟨m, hm⟩ := Option.isSome_iff_exists.mp hc
  obtain ⟨n, hn⟩ := Option.isSome_iff_exists.mp hd
  rw [← hexDigit?_toNat, ← hexDigit?_toNat, hm, hn] at h
  rw [hm, hn, BitVec.eq_of_toNat_eq h]

theorem digitsValue_concat (base : Nat) (s : List U8) (c : U8) :
    digitsValue base (s ++ [c]) = digitsValue base s * base + (digit? base c).getD 0 := List.foldl_concat ..

/-- Hexadecimal digits of any number, of which the last 32 bits are kept. -/
theorem hexValue_eq {s : List U8} (hs : ∀ c ∈ s, isXDigit c) : hexValue 0 s = BitVec.ofNat 32 (digitsValue 16 s) := by
  induction s using List.reverseRecOn with
  | nil => rfl
  | append_singleton s c ih =>
    have hlt : ((hexDigit? c).getD 0).toNat < 2 ^ 4 ∧ ((hexDigit? c).getD 0).toNat = (digit? 16 c).getD 0 := by
      have hmap := hexDigit?_toNat c
      cases hd : hexDigit? c with
      | none =>
        rw [hd] at hmap
        exact ⟨by decide, by rw [← hmap]; rfl⟩
      | some d =>
        rw [hd] at hmap
        exact ⟨digit?_lt hmap.symm, by rw [← hmap]; rfl⟩
    rw [digitsValue_concat, hexValue, List.foldl_concat]
    change hexValue 0 s <<< 4 ||| _ = _
    rw [ih fun d hd => hs d (List.mem_append_left _ hd), shiftLeft_or _ 4 hlt.1, hlt.2]
    rfl

theorem digitsValue_eq_ofDigits (base : Nat) (s : List U8) :
    digitsValue base s = Nat.ofDigits base (s.reverse.map fun c => (digit? base c).getD 0) := by
  induction s using List.reverseRecOn with
  | nil => rfl
  | append_singleton s c ih =>
    rw [digitsValue_concat, ih, List.reverse_concat, List.map_cons, Nat.ofDigits_cons, Nat.mul_comm, Nat.add_comm]

/-- As many digits with the same value are the same digits. -/
theorem digitsValue_inj {base : Nat} (hbase : 1 < base) {s t : List U8} (hlen : s.length = t.length)
    (h : digitsValue base s = digitsValue base t) :
    s.map (fun c => (digit? base c).getD 0) = t.map fun c => (digit? base c).getD 0 := by
  rw [digitsValue_eq_ofDigits, digitsValue_eq_ofDigits] at h
  have hdigits : ∀ u : List U8, ∀ d ∈ u.reverse.map (fun c => (digit? base c).getD 0), d < base := by
    intro u d hd
    obtain ⟨c, -, rfl⟩ := List.mem_map.mp hd
    exact getD_digit?_lt (Nat.zero_lt_of_lt hbase) c
  have heq := Nat.ofDigits_inj_of_len_eq hbase (by simp [hlen]) (hdigits s) (hdigits t) h
  rw [List.map_reverse, List.map_reverse] at heq
  exact List.reverse_injective heq

theorem digitsValue_lt {base : Nat} (hbase : 1 < base) (s : List U8) : digitsValue base s < base ^ s.length := by
  rw [digitsValue_eq_ofDigits]
  have hlt := Nat.ofDigits_lt_base_pow_length (l := s.reverse.map fun c => (digit? base c).getD 0) hbase
  rw [List.length_map, List.length_reverse] at hlt
  refine hlt fun d hd => ?_
  obtain ⟨c, -, rfl⟩ := List.mem_map.mp hd
  exact getD_digit?_lt (Nat.zero_lt_of_lt hbase) c

theorem digitsValue_congr {base : Nat} {s t : List U8}
    (h : s.map (fun c => (digit? base c).getD 0) = t.map fun c => (digit? base c).getD 0) :
    digitsValue base s = digitsValue base t := by
  rw [digitsValue_eq_ofDigits, digitsValue_eq_ofDigits, List.map_reverse, List.map_reverse, h]

/-- A list that is itself moved by one has one element only. -/
theorem eq_of_append_eq_cons {α : Type} {l : List α} {a b : α} (h : l ++ [a] = b :: l) : ∀ x ∈ l ++ [a], x = b := by
  induction l generalizing b with
  | nil =>
    intro x hx
    rw [h] at hx
    exact List.mem_singleton.mp hx
  | cons c l ih =>
    obtain ⟨rfl, htail⟩ := List.cons.inj h
    intro x hx
    rcases List.mem_cons.mp hx with rfl | hx
    · rfl
    · exact ih htail x hx

/-! ### Escapes -/

/-- The escapes of one character, and what they stand for. -/
def simpleEscapes : List (Char × U8) :=
  [('\'', 0x27), ('"', 0x22), ('?', 0x3F), ('\\', 0x5C), ('$', 0x24), ('n', 0x0A), ('a', 0x07), ('b', 0x08), ('f', 0x0C),
    ('r', 0x0D), ('t', 0x09), ('v', 0x0B), ('e', 0x1B)]

/-- An escape, without its backslash. -/
inductive Escape where
  | simple (x : Char × U8) (h : x ∈ simpleEscapes)
  | octal (s : List U8) (hne : s ≠ []) (hlen : s.length ≤ 3) (hs : ∀ c ∈ s, isOct c)
  | hex (s : List U8) (hne : s ≠ []) (hs : ∀ c ∈ s, isXDigit c)
  | universal (long : Bool) (s : List U8) (hlen : s.length = if long then 8 else 4) (hs : ∀ c ∈ s, isXDigit c)
      (hucn : isUcn (BitVec.ofNat 32 (digitsValue 16 s)))

namespace Escape

def text : Escape → List U8
  | simple x _ => [chr x.1]
  | octal s .. => s
  | hex s .. => chr 'x' :: s
  | universal long s .. => chr (if long then 'U' else 'u') :: s

/-- The code point that an escape denotes. -/
def value : Escape → Nat
  | simple x _ => x.2.toNat
  | octal s .. => digitsValue 8 s
  | hex s .. => digitsValue 16 s
  | universal _ s .. => digitsValue 16 s

/-- An escape with as many digits as can be is over before what comes next. -/
def EndsBefore (tail : List U8) : Escape → Prop
  | octal s .. => s.length < 3 → isOct (tail.headD eofChar) = false
  | hex .. => isXDigit (tail.headD eofChar) = false
  | _ => True

instance (tail : List U8) : (e : Escape) → Decidable (e.EndsBefore tail)
  | simple .. => inferInstanceAs (Decidable True)
  | octal s .. => inferInstanceAs (Decidable (s.length < 3 → isOct (tail.headD eofChar) = false))
  | hex .. => inferInstanceAs (Decidable (isXDigit (tail.headD eofChar) = false))
  | universal .. => inferInstanceAs (Decidable True)

/-- What the lexer makes of an escape. -/
def read? (tail : List U8) : Escape → Option U32
  | simple x _ => some (x.2.setWidth 32)
  | octal s .. => some (BitVec.ofNat 32 (digitsValue 8 s))
  | hex s .. => some (BitVec.ofNat 32 (digitsValue 16 s))
  | universal _ s .. =>
    let digits := s.tail ++ tail.take 1
    if digits.length = s.length ∧ digits.all isXDigit ∧ isUcn (hexValue 0 digits) then some (hexValue 0 digits) else none

end Escape

theorem simpleEscape?_mem : ∀ x ∈ simpleEscapes, chr x.1 ≠ chr '\n' ∧ LexM.simpleEscape? (chr x.1) = some x.2 := by decide

theorem isOct_plain : ∀ c : U8, isOct c = true → c ≠ chr '\n' ∧ LexM.simpleEscape? c = none ∧ c ≠ chr 'x' ∧ c ≠ chr 'u' ∧
    c ≠ chr 'U' ∧ (c - chr '0').toNat < 2 ^ 3 := by decide +kernel

/-- Up to three octal digits. -/
theorem octalEscape_eq {c : U8} {s tail : List U8} (hlen : (c :: s).length ≤ 3) (hs : ∀ d ∈ c :: s, isOct d)
    (hend : (c :: s).length < 3 → isOct (tail.headD eofChar) = false) :
    octalEscape c (s ++ tail) = (BitVec.ofNat 32 (digitsValue 8 (c :: s)), s.length) := by
  have hfirst : (c - chr '0').setWidth 32 = BitVec.ofNat 32 (digitsValue 8 [c]) := by
    refine BitVec.eq_of_toNat_eq ?_
    rw [BitVec.toNat_setWidth, octDigit_toNat c (hs c List.mem_cons_self), BitVec.toNat_ofNat, digitsValue, List.foldl_cons,
      List.foldl_nil, Nat.zero_mul, Nat.zero_add]
  have hnext : ∀ d, isOct d → ∀ t, BitVec.ofNat 32 (digitsValue 8 t) <<< 3 ||| (d - chr '0').setWidth 32 =
      BitVec.ofNat 32 (digitsValue 8 (t ++ [d])) := by
    intro d hd t
    rw [shiftLeft_or _ 3 (isOct_plain d hd).2.2.2.2.2, octDigit_toNat d hd, digitsValue_concat]
    rfl
  unfold octalEscape
  rcases s with _ | ⟨d, _ | ⟨e, _ | ⟨f, s⟩⟩⟩
  · rw [List.nil_append]
    simp only [hend (by simp), Bool.not_false, if_true, hfirst, List.length_nil]
  · have hd : isOct d = true := hs d (by simp)
    have hhead : ([d] ++ tail).getD 1 eofChar = tail.headD eofChar := by cases tail <;> rfl
    rw [hhead]
    simp only [List.singleton_append, List.headD_cons, hd, hend (by simp), Bool.not_true, Bool.not_false, if_true,
      Bool.false_eq_true, if_false, hfirst, hnext d hd, List.length_singleton]
  · have hd : isOct d = true := hs d (by simp)
    have he : isOct e = true := hs e (by simp)
    have hhead : ([d, e] ++ tail).headD eofChar = d := rfl
    have hgetD : ([d, e] ++ tail).getD 1 eofChar = e := rfl
    simp only [hhead, hgetD, hd, he, Bool.not_true, Bool.false_eq_true, if_false, hfirst, hnext d hd, hnext e he]
    rfl
  · simp only [List.length_cons] at hlen
    omega

theorem exists_cons_of_universal {long : Bool} {s : List U8} (hlen : s.length = if long then 8 else 4) : ∃ d t, s = d :: t := by
  refine List.exists_cons_of_ne_nil fun hnil => ?_
  rw [hnil] at hlen
  cases long <;> cases hlen

/-- The escape at the start of a text, and its length. -/
theorem escape?_text {e : Escape} {tail : List U8} (hend : e.EndsBefore tail) :
    escape? true (e.text ++ tail) = (e.read? tail).map fun v => (v, e.text.length) := by
  unfold escape?
  cases e with
  | simple x h =>
    obtain ⟨hnl, hsimple⟩ := simpleEscape?_mem x h
    simp only [Escape.text, List.singleton_append, List.headD_cons, hnl, hsimple, false_and, if_false]
    rfl
  | octal s hne hlen hs =>
    obtain ⟨c, s, rfl⟩ := List.exists_cons_of_ne_nil hne
    obtain ⟨hnl, hsimple, hx, hu, hU, -⟩ := isOct_plain c (hs c List.mem_cons_self)
    simp only [Escape.text, List.cons_append, List.headD_cons, List.drop_succ_cons, List.drop_zero, hnl, hsimple, hx, hu, hU,
      false_and, if_false, hs c List.mem_cons_self, if_true, octalEscape_eq hlen hs hend, Nat.add_comm 1]
    rfl
  | hex s hne hs =>
    have htail : tail.takeWhile isXDigit = [] := by
      rcases tail with _ | ⟨c, tail⟩
      · rfl
      · exact List.takeWhile_cons_of_neg (by rw [show isXDigit c = false from hend]; decide)
    have htake : (s ++ tail).takeWhile isXDigit = s := by
      rw [List.takeWhile_append_of_pos hs, htail, List.append_nil]
    have hhex : hexEscape? (s ++ tail) = some (BitVec.ofNat 32 (digitsValue 16 s), s.length) := by
      rw [hexEscape?, htake, if_neg hne, hexValue_eq hs]
    change (hexEscape? (s ++ tail)).map _ = _
    rw [hhex, Option.map_some, Nat.add_comm]
    rfl
  | universal long s hlen hs hucn =>
    have huniversal : (universal? s.length 0 (s ++ tail)).map (fun r => (r.1, 1 + r.2)) =
        ((Escape.universal long s hlen hs hucn).read? tail).map fun v => (v, (Escape.universal long s hlen hs hucn).text.length) := by
      obtain ⟨c, t, rfl⟩ := exists_cons_of_universal hlen
      have hdigits : (((c :: t) ++ tail).drop 1).take (c :: t).length = (c :: t).tail ++ tail.take 1 := by
        rw [List.cons_append, List.drop_succ_cons, List.drop_zero, List.tail_cons, List.length_cons, List.take_length_add_append]
      rw [universal?, hdigits, Escape.read?]
      split
      · rw [Option.map_some, Option.map_some, Nat.add_comm]
        rfl
      · rfl
    cases long with
    | false =>
      have hlen4 : s.length = 4 := hlen
      rw [hlen4] at huniversal
      exact huniversal
    | true =>
      have hlen8 : s.length = 8 := hlen
      rw [hlen8] at huniversal
      exact huniversal

namespace Escape

/-- The condition under which an escape stands for what it denotes: a number has at most 32 bits, and the digits behind
    `\u` and `\U` are all the same, with the character behind them. -/
def Faithful (tail : List U8) : Escape → Prop
  | hex s .. => digitsValue 16 s < 2 ^ 32
  | universal _ s .. => ∀ c ∈ s.tail ++ [tail.headD eofChar], hexDigit? c = hexDigit? (s.headD 0)
  | _ => True

instance (tail : List U8) : (e : Escape) → Decidable (e.Faithful tail)
  | simple .. => inferInstanceAs (Decidable True)
  | octal .. => inferInstanceAs (Decidable True)
  | hex s .. => inferInstanceAs (Decidable (digitsValue 16 s < 2 ^ 32))
  | universal _ s .. =>
    inferInstanceAs (Decidable (∀ c ∈ s.tail ++ [tail.headD eofChar], hexDigit? c = hexDigit? (s.headD 0)))

/-- Hexadecimal digits moved by one denote the same only if they are all the same. -/
theorem digitsValue_moved_iff {d x : U8} {t : List U8} (hd : isXDigit d) (hx : ∀ c ∈ t ++ [x], isXDigit c) :
    digitsValue 16 (t ++ [x]) = digitsValue 16 (d :: t) ↔ ∀ c ∈ t ++ [x], hexDigit? c = hexDigit? d := by
  constructor
  · intro heq c hc
    have hmap := digitsValue_inj (by decide) (by simp) heq
    have hmem : (digit? 16 c).getD 0 ∈ (t ++ [x]).map fun c => (digit? 16 c).getD 0 := List.mem_map_of_mem hc
    simp only [List.map_append, List.map_cons, List.map_nil] at hmap hmem
    exact hexDigit?_inj (hx c hc) hd (eq_of_append_eq_cons hmap _ hmem)
  · intro hall
    have hdigit : ∀ c ∈ t ++ [x], (digit? 16 c).getD 0 = (digit? 16 d).getD 0 := by
      intro c hc
      rw [← hexDigit?_toNat, ← hexDigit?_toNat, hall c hc]
    have hleft : (t ++ [x]).map (fun c => (digit? 16 c).getD 0) = List.replicate (t.length + 1) ((digit? 16 d).getD 0) := by
      refine List.eq_replicate_iff.mpr ⟨by simp, fun n hn => ?_⟩
      obtain ⟨c, hc, rfl⟩ := List.mem_map.mp hn
      exact hdigit c hc
    have hright : (d :: t).map (fun c => (digit? 16 c).getD 0) = List.replicate (t.length + 1) ((digit? 16 d).getD 0) := by
      refine List.eq_replicate_iff.mpr ⟨by simp, fun n hn => ?_⟩
      obtain ⟨c, hc, rfl⟩ := List.mem_map.mp hn
      rcases List.mem_cons.mp hc with rfl | hc
      · rfl
      · exact hdigit c (List.mem_append_left _ hc)
    exact digitsValue_congr (hleft.trans hright.symm)

section
variable {long : Bool} {d x : U8} {t tail : List U8} (hlen : (d :: t).length = if long then 8 else 4)
  (hs : ∀ c ∈ d :: t, isXDigit c) (hucn : isUcn (BitVec.ofNat 32 (digitsValue 16 (d :: t))))

theorem read?_universal_nil : (universal long (d :: t) hlen hs hucn).read? [] = none :=
  if_neg fun hand => absurd hand.1 (by simp)

/-- The first digit is left out, and the character after the last one is taken in. -/
theorem read?_universal_cons {v : U32} : (universal long (d :: t) hlen hs hucn).read? (x :: tail) = some v ↔
    (∀ c ∈ t ++ [x], isXDigit c) ∧ isUcn (BitVec.ofNat 32 (digitsValue 16 (t ++ [x]))) ∧
      v = BitVec.ofNat 32 (digitsValue 16 (t ++ [x])) := by
  have hread : (universal long (d :: t) hlen hs hucn).read? (x :: tail) =
      if (t ++ [x]).length = (d :: t).length ∧ (t ++ [x]).all isXDigit ∧ isUcn (hexValue 0 (t ++ [x])) then
        some (hexValue 0 (t ++ [x])) else none := rfl
  rw [hread, Option.ite_none_right_eq_some, Option.some.injEq, List.all_eq_true]
  constructor
  · rintro ⟨⟨-, hx, hu⟩, rfl⟩
    rw [hexValue_eq hx] at hu ⊢
    exact ⟨hx, hu, rfl⟩
  · rintro ⟨hx, hu, rfl⟩
    rw [hexValue_eq hx]
    exact ⟨⟨by simp, hx, hu⟩, rfl⟩

theorem read?_universal : (∃ v, (universal long (d :: t) hlen hs hucn).read? tail = some v ∧ v.toNat = digitsValue 16 (d :: t)) ↔
    (universal long (d :: t) hlen hs hucn).Faithful tail := by
  have hd : isXDigit d = true := hs d List.mem_cons_self
  have hfaithful : (universal long (d :: t) hlen hs hucn).Faithful tail ↔
      ∀ c ∈ t ++ [tail.headD eofChar], hexDigit? c = hexDigit? d := Iff.rfl
  rw [hfaithful]
  rcases tail with _ | ⟨x, tail⟩
  · refine iff_of_false ?_ fun hall => ?_
    · rintro ⟨v, hv, -⟩
      rw [read?_universal_nil] at hv
      cases hv
    · rw [isXDigit, ← hall eofChar (by simp)] at hd
      cases hd
  rw [List.headD_cons]
  have htoNat : (BitVec.ofNat 32 (digitsValue 16 (t ++ [x]))).toNat = digitsValue 16 (t ++ [x]) := by
    have hle : (t ++ [x]).length ≤ 8 := by
      rw [List.length_append, List.length_singleton, ← List.length_cons (a := d), hlen]
      cases long <;> decide
    have hpow : 16 ^ (t ++ [x]).length ≤ 16 ^ 8 := Nat.pow_le_pow_right (by decide) hle
    have hlt := @digitsValue_lt 16 (by decide) (t ++ [x])
    exact Nat.mod_eq_of_lt (by omega)
  constructor
  · rintro ⟨v, hv, heq⟩
    obtain ⟨hx, -, rfl⟩ := (read?_universal_cons hlen hs hucn).mp hv
    exact (digitsValue_moved_iff hd hx).mp (htoNat ▸ heq)
  · intro hall
    have hx : ∀ c ∈ t ++ [x], isXDigit c := by
      intro c hc
      rw [isXDigit, hall c hc]
      exact hd
    have hsame := (digitsValue_moved_iff hd hx).mpr hall
    exact ⟨_, (read?_universal_cons hlen hs hucn).mpr ⟨hx, hsame ▸ hucn, rfl⟩, htoNat.trans hsame⟩

end

theorem read?_iff {e : Escape} {tail : List U8} : (∃ v, e.read? tail = some v ∧ v.toNat = e.value) ↔ e.Faithful tail := by
  cases e with
  | simple x h =>
    refine iff_of_true ⟨_, rfl, ?_⟩ trivial
    rw [BitVec.toNat_setWidth]
    exact Nat.mod_eq_of_lt (Nat.lt_trans x.2.isLt (by decide))
  | octal s hne hlen hs =>
    refine iff_of_true ⟨_, rfl, ?_⟩ trivial
    have hlt := @digitsValue_lt 8 (by decide) s
    have hle : 8 ^ s.length ≤ 8 ^ 3 := Nat.pow_le_pow_right (by decide) hlen
    rw [BitVec.toNat_ofNat]
    exact Nat.mod_eq_of_lt (by omega)
  | hex s hne hs =>
    have hmod : (BitVec.ofNat 32 (digitsValue 16 s)).toNat = digitsValue 16 s ↔ digitsValue 16 s < 2 ^ 32 := by
      rw [BitVec.toNat_ofNat]
      exact Nat.mod_eq_iff_lt (by decide)
    refine Iff.trans ?_ hmod
    constructor
    · rintro ⟨v, hv, heq⟩
      exact Option.some.inj hv ▸ heq
    · intro heq
      exact ⟨_, rfl, heq⟩
  | universal long s hlen hs hucn =>
    obtain ⟨d, t, rfl⟩ := exists_cons_of_universal hlen
    exact read?_universal hlen hs hucn

end Escape

namespace LexM
open Lexer
variable {lX : Lexer} {src tail : List U8} {e : Escape} {fuel : Nat}

/-- The characters of an escape are consumed, no more and no fewer, and the result is the code point that it denotes. -/
def ReadsEscape (fuel : Nat) (lX : Lexer) (e : Escape) : Prop :=
  ∃ v lX', Returns (tokEscapedChar true fuel) lX v lX' ∧ v.toNat = e.value ∧ lX'.idx = lX.idx + e.text.length ∧
    lX'.left = lX.left.drop e.text.length

/-- The result is what the lexer makes of the escape, if it comes to one. -/
theorem readsEscape_iff_read? (h : InStep src lX) (hleft : lX.left = e.text ++ tail) (hend : e.EndsBefore tail)
    (hfuel : src.length < fuel) : ReadsEscape fuel lX e ↔ ∃ v, e.read? tail = some v ∧ v.toNat = e.value := by
  have hescapes := escapes_tokEscapedChar true h hfuel
  rw [hleft, escape?_text hend] at hescapes
  constructor
  · rintro ⟨v, lX', hret, hv, -, -⟩
    obtain ⟨n, hsome, -⟩ := hescapes.of_returns hret
    obtain ⟨v', hread, heq⟩ := Option.map_eq_some_iff.mp hsome
    obtain ⟨rfl, -⟩ := Prod.mk.inj heq
    exact ⟨v', hread, hv⟩
  · rintro ⟨v, hread, hv⟩
    rw [hread] at hescapes
    obtain ⟨lX', hret, hskip⟩ := Escapes.returns hescapes
    refine ⟨v, lX', hret, hv, hskip.idx h ?_, hskip.left⟩
    rw [hleft, List.length_append]
    exact Nat.le_add_right _ _

/-- An escape is read as it should be just when it is faithful. -/
theorem readsEscape_iff (h : InStep src lX) (hleft : lX.left = e.text ++ tail) (hend : e.EndsBefore tail)
    (hfuel : src.length < fuel) : ReadsEscape fuel lX e ↔ e.Faithful tail :=
  (readsEscape_iff_read? h hleft hend hfuel).trans Escape.read?_iff

/-- The lexer inside a string literal, behind a backslash. -/
def behindBackslash (text : List U8) : Lexer := (init {} false (chr '"' :: chr '\\' :: text)).advance 2

theorem inStep_behindBackslash (text : List U8) : InStep (chr '"' :: chr '\\' :: text) (behindBackslash text) :=
  (inStep_init {} false).advance 2

/-- The escape `\x41`. -/
def escapeA : Escape := .hex (ascii ['4', '1']) (by decide) (by decide)

theorem readsEscape_iff_A : ReadsEscape 8 (behindBackslash (escapeA.text ++ [chr '"'])) escapeA ↔ escapeA.Faithful [chr '"'] :=
  readsEscape_iff (inStep_behindBackslash _) rfl (by decide) (by decide)

/-- The escape `\u00A9`. -/
def escapeCopyright : Escape := .universal false (ascii ['0', '0', 'A', '9']) rfl (by decide) (by decide)

/-- The end of the string literal is taken for the last digit. -/
theorem not_readsEscape_copyright : ∃ lX, InStep (ascii "\"\\u00A9\"".toList) lX ∧ lX.left = escapeCopyright.text ++ [chr '"'] ∧
    escapeCopyright.EndsBefore [chr '"'] ∧ ∀ fuel, 8 < fuel → ¬ReadsEscape fuel lX escapeCopyright := by
  have hs := inStep_behindBackslash (escapeCopyright.text ++ [chr '"'])
  refine ⟨_, hs, rfl, trivial, fun fuel hfuel hreads => ?_⟩
  have hleft : (behindBackslash (escapeCopyright.text ++ [chr '"'])).left = escapeCopyright.text ++ [chr '"'] := rfl
  obtain ⟨v, hread, -⟩ := (readsEscape_iff_read? hs hleft trivial hfuel).mp hreads
  have hnone : escapeCopyright.read? [chr '"'] = none := by decide
  rw [hnone] at hread
  cases hread

end LexM

end Cyntatic
