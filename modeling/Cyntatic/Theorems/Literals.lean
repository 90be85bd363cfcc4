import Cyntatic.Theorems.LexerEnds
import Cyntatic.Theorems.LexerSpelling
import Cyntatic.Theorems.Numbers

/-! # Number literals

What the lexer reads of a number and makes of it: the digits of an integer are given to `strtoull`, and everything else to
`strtod`. Both results depend on what `errno` was before. -/

namespace Cyntatic
open Library Prog

namespace LexM
open Lexer
variable {src : List U8} {lX lX' t : Lexer} {fuel start : Nat} {tok : Token} {kind : TokenKind} {pos : LineColumn}
  {r : TokenKind × Token} {text ds : List U8} {p : U8 → Bool} {strtod : Strtod}

/-! ### Which number it is -/

/-- The base of an integer. -/
def integerBase (text : List U8) : Nat :=
  let cc := toUpper (text.getD 1 eofChar)
  let ccc := text.getD 2 eofChar
  if text.headD eofChar = chr '0' then
    if cc = chr 'X' ∧ isXDigit ccc then 16
    else if cc = chr 'B' ∧ (ccc = chr '0' ∨ ccc = chr '1') then 2
    else 8
  else 10

/-- The length of the prefix of an integer. -/
def prefixLength (base : Nat) : Nat := if base = 16 ∨ base = 2 then 2 else 0

/-- How much of a floating point number comes before its point or its exponent. -/
def pointAt? (text : List U8) : Option Nat :=
  let cc := toUpper (text.getD 1 eofChar)
  let ccc := text.getD 2 eofChar
  if text.headD eofChar = chr '0' then
    if cc = chr 'X' ∧ isXDigit ccc then
      let digits := (text.drop 2).takeWhile isXDigit
      if toUpper (((text.drop 2).dropWhile isXDigit).headD eofChar) = chr 'P' then some (2 + digits.length) else none
    else if cc = chr 'B' ∧ (ccc = chr '0' ∨ ccc = chr '1') then none
    else if cc = chr '.' ∨ cc = chr 'E' then some 1
    else
      let digits := (text.dropWhile isOct).takeWhile isDigit
      let c := ((text.dropWhile isOct).dropWhile isDigit).headD eofChar
      if isDigit ((text.dropWhile isOct).headD eofChar) ∧ (c = chr '.' ∨ c = chr 'e' ∨ c = chr 'E') then
        some ((text.takeWhile isOct).length + digits.length)
      else none
  else
    let c := (text.dropWhile isDigit).headD eofChar
    if toUpper c = chr 'E' ∨ c = chr '.' then some (text.takeWhile isDigit).length else none

/-- A number begins with a digit, or with a point before one. -/
def StartsNumber (text : List U8) : Prop :=
  isDigit (text.headD eofChar) ∨ text.headD eofChar = chr '.' ∧ isDigit (text.getD 1 eofChar)

/-! ### The way to the conversion -/

theorem advanceWhile_bind {β : Type} {f : Unit → LexM β} {b : β} (hs : InStep src lX) (hp : p eofChar = false)
    (hfuel : src.length < fuel) : Returns (advanceWhile p fuel >>= f) lX b lX' ↔
      Returns (f ()) (lX.advance (lX.left.takeWhile p).length) b lX' := by
  have hlen := hs.length_left
  have htake := (List.takeWhile_prefix p (l := lX.left)).length_le
  exact returns_bind_of_returns (advanceWhile_advances (hs.src_eq ▸ hs.idx_le) (headD_dropWhile hp _) (by omega))

theorem left_takeWhile (lX : Lexer) (p : U8 → Bool) : (lX.advance (lX.left.takeWhile p).length).left = lX.left.dropWhile p := by
  rw [left_advance]
  exact (congrArg (List.drop _) List.takeWhile_append_dropWhile.symm).trans List.drop_left

theorem eatWhile_advances (hs : InStep src lX) (hfuel : (lX.left.takeWhile p).length < fuel) :
    Returns (eatWhile p fuel) lX () (lX.advance (lX.left.takeWhile p).length) := by
  induction fuel generalizing lX with
  | zero => omega
  | succ fuel ih =>
    have hlen := hs.length_left
    rcases hleft : lX.left with _ | ⟨c, text⟩
    · rw [List.takeWhile_nil, List.length_nil, hs.advance_zero]
      refine returns_bind.mpr ⟨.done (), lX, returns_bind.mpr ⟨lX, lX, returns_get.mpr ⟨rfl, rfl⟩, ?_⟩, returns_pure.mpr ⟨rfl, rfl⟩⟩
      rw [hleft, List.length_nil] at hlen
      rw [if_neg fun h => absurd h.1 (by rw [hs.src_eq]; omega)]
      exact returns_pure.mpr ⟨rfl, rfl⟩
    have hpeek : lX.peek 0 = c := by rw [peek_zero, hleft, List.headD_cons]
    rw [hleft, List.length_cons] at hlen
    by_cases hc : p c = true
    · rw [hleft, List.takeWhile_cons_of_pos hc, List.length_cons] at hfuel
      have hnext : (lX.advance 1).left = text := by rw [left_advance, hleft]; rfl
      have hrest := @ih (lX.advance 1) (hs.advance 1) (by rw [hnext]; omega)
      rw [hnext, advance_advance, Nat.add_comm] at hrest
      rw [List.takeWhile_cons_of_pos hc, List.length_cons]
      refine returns_bind.mpr ⟨.again (), lX.advance 1, returns_bind.mpr ⟨lX, lX, returns_get.mpr ⟨rfl, rfl⟩, ?_⟩, hrest⟩
      have hlt : lX.idx < lX.src.length := by
        rw [hs.src_eq]
        omega
      rw [if_pos ⟨hlt, hpeek ▸ hc⟩]
      exact returns_bind.mpr ⟨(), _, returns_modify.mpr rfl, returns_pure.mpr ⟨rfl, advance_one hlt⟩⟩
    · rw [List.takeWhile_cons_of_neg hc, List.length_nil, hs.advance_zero]
      refine returns_bind.mpr ⟨.done (), lX, returns_bind.mpr ⟨lX, lX, returns_get.mpr ⟨rfl, rfl⟩, ?_⟩, returns_pure.mpr ⟨rfl, rfl⟩⟩
      rw [if_neg fun h => hc (hpeek ▸ h.2)]
      exact returns_pure.mpr ⟨rfl, rfl⟩

/-- What a number comes to: the conversion of an integer, that of a floating point number, or an error. -/
structure Converts (strtod : Strtod) (fuel : Nat) (tok : Token) (lX : Lexer) (base : Nat) (digits : Option (List U8))
    (point : Option Nat) (m : LexM (TokenKind × Token)) : Prop where
  integer : ∀ ds, digits = some ds → ∀ r lX', Returns m lX r lX' ↔
    Returns (parseInteger tok lX.idx lX.pos base) (lX.advance (prefixLength base + ds.length)) r lX'
  floating : ∀ n, point = some n → ∀ r lX', Returns m lX r lX' ↔
    Returns (tokFloatingPoint strtod tok lX.idx lX.pos fuel) (lX.advance n) r lX'
  neither : digits = none → point = none → ∃ r lX', Returns m lX r lX'

theorem Converts.of_iff {base : Nat} {digits : Option (List U8)} {point : Option Nat} {m m' : LexM (TokenKind × Token)}
    (h : Converts strtod fuel tok lX base digits point m') (hm : ∀ {r lX'}, Returns m lX r lX' ↔ Returns m' lX r lX') :
    Converts strtod fuel tok lX base digits point m where
  integer ds hds r lX' := hm.trans (h.integer ds hds r lX')
  floating n hn r lX' := hm.trans (h.floating n hn r lX')
  neither hds hn := by
    obtain ⟨r, lX', hr⟩ := h.neither hds hn
    exact ⟨r, lX', hm.mpr hr⟩

theorem converts_decimal (hs : InStep src lX) (hfuel : src.length < fuel) :
    Converts strtod fuel tok lX 10 (decimalDigits? lX.left)
      (if toUpper ((lX.left.dropWhile isDigit).headD eofChar) = chr 'E' ∨ (lX.left.dropWhile isDigit).headD eofChar = chr '.' then
        some (lX.left.takeWhile isDigit).length else none) (tokDecimalNumber strtod tok fuel) := by
  have hsame : ∀ r lX', Returns (tokDecimalNumber strtod tok fuel) lX r lX' ↔ Returns
      (if toUpper ((lX.left.dropWhile isDigit).headD eofChar) = chr 'E' ∨ (lX.left.dropWhile isDigit).headD eofChar = chr '.' then
        tokFloatingPoint strtod tok lX.idx lX.pos fuel else parseInteger tok lX.idx lX.pos 10)
      (lX.advance (lX.left.takeWhile isDigit).length) r lX' := fun r lX' => by
    rw [← left_takeWhile, ← peek_zero]
    exact (returns_bind_of_returns (returns_get.mpr ⟨rfl, rfl⟩)).trans ((advanceWhile_bind hs (by decide) hfuel).trans
      (returns_bind_of_returns (returns_peek.mpr ⟨rfl, rfl⟩)))
  unfold decimalDigits?
  by_cases hc : toUpper ((lX.left.dropWhile isDigit).headD eofChar) = chr 'E' ∨ (lX.left.dropWhile isDigit).headD eofChar = chr '.'
  · simp only [if_pos hc] at hsame ⊢
    exact ⟨nofun, fun n hn => Option.some.inj hn ▸ hsame, nofun⟩
  · simp only [if_neg hc] at hsame ⊢
    refine ⟨fun ds hds => ?_, nofun, nofun⟩
    rw [prefixLength, if_neg (by decide), Nat.zero_add, ← Option.some.inj hds]
    exact hsame

/-- An error instead of a token. -/
theorem error_returns (range : Lexer → Range) (fmt : String) (args : List DiagnosticArg) (tok : Token) (lX : Lexer) :
    Returns (get >>= fun lX => error (range lX) fmt args >>= fun _ => pure (TokenKind.tokCOUNT, tok)) lX (.tokCOUNT, tok)
      { lX with log.errors := lX.log.errors ++ [⟨range lX, fmt, args⟩] } :=
  returns_bind.mpr ⟨_, _, returns_get.mpr ⟨rfl, rfl⟩, returns_bind.mpr ⟨(), _, returns_modify.mpr rfl, returns_pure.mpr ⟨rfl, rfl⟩⟩⟩

theorem converts_octal (hs : InStep src lX) (hfuel : src.length < fuel) :
    Converts strtod fuel tok lX 8 (octalDigits? lX.left)
      (if isDigit ((lX.left.dropWhile isOct).headD eofChar) ∧ (((lX.left.dropWhile isOct).dropWhile isDigit).headD eofChar = chr '.' ∨
          ((lX.left.dropWhile isOct).dropWhile isDigit).headD eofChar = chr 'e' ∨
          ((lX.left.dropWhile isOct).dropWhile isDigit).headD eofChar = chr 'E') then
        some ((lX.left.takeWhile isOct).length + ((lX.left.dropWhile isOct).takeWhile isDigit).length) else none)
      (tokOctalNumber strtod tok fuel) := by
  obtain ⟨t, ht⟩ : ∃ t, lX.advance (lX.left.takeWhile isOct).length = t := ⟨_, rfl⟩
  have hts : InStep src t := ht ▸ hs.advance _
  have hleft : t.left = lX.left.dropWhile isOct := ht ▸ left_takeWhile lX isOct
  have hoct {r lX'} : Returns (tokOctalNumber strtod tok fuel) lX r lX' ↔ _ :=
    (returns_bind_of_returns (returns_get.mpr ⟨rfl, rfl⟩)).trans ((advanceWhile_bind hs (by decide) hfuel).trans
      (returns_bind_of_returns (returns_peek.mpr ⟨rfl, rfl⟩)))
  rw [ht] at hoct
  unfold octalDigits?
  rw [← hleft]
  by_cases hd : isDigit (t.left.headD eofChar) = true
  · rw [peek_zero, if_pos hd] at hoct
    have hrest {r lX'} : Returns (tokOctalNumber strtod tok fuel) lX r lX' ↔ _ :=
      hoct.trans ((advanceWhile_bind hts (by decide) hfuel).trans (returns_bind_of_returns (returns_peek.mpr ⟨rfl, rfl⟩)))
    rw [peek_zero, left_takeWhile] at hrest
    simp only [hd, true_and]
    by_cases hc : (t.left.dropWhile isDigit).headD eofChar = chr '.' ∨ (t.left.dropWhile isDigit).headD eofChar = chr 'e' ∨
        (t.left.dropWhile isDigit).headD eofChar = chr 'E'
    · simp only [if_pos hc] at hrest ⊢
      refine ⟨nofun, fun n hn r lX' => ?_, nofun⟩
      rw [← Option.some.inj hn, ← advance_advance, ht]
      exact hrest
    · simp only [if_neg hc] at hrest ⊢
      exact ⟨nofun, nofun, fun _ _ => ⟨_, _, hrest.mpr (error_returns ..)⟩⟩
  · rw [peek_zero, if_neg hd] at hoct
    rw [if_neg hd, if_neg fun h => hd h.1]
    refine ⟨fun ds hds r lX' => ?_, nofun, nofun⟩
    rw [prefixLength, if_neg (by decide), Nat.zero_add, ← Option.some.inj hds, ht]
    exact hoct

theorem converts_hex (hs : InStep src lX) (hfuel : src.length < fuel) :
    Converts strtod fuel tok lX 16 (hexDigits? (lX.left.drop 2))
      (if toUpper (((lX.left.drop 2).dropWhile isXDigit).headD eofChar) = chr 'P' then
        some (2 + ((lX.left.drop 2).takeWhile isXDigit).length) else none) (tokHexNumber strtod tok fuel) := by
  have hsame : ∀ r lX', Returns (tokHexNumber strtod tok fuel) lX r lX' ↔ Returns
      (if toUpper (((lX.left.drop 2).dropWhile isXDigit).headD eofChar) = chr 'P' then
        tokFloatingPoint strtod tok lX.idx lX.pos fuel else parseInteger tok lX.idx lX.pos 16)
      (lX.advance (2 + ((lX.left.drop 2).takeWhile isXDigit).length)) r lX' := fun r lX' => by
    rw [← left_advance, ← left_takeWhile, ← peek_zero, ← advance_advance]
    exact (returns_bind_of_returns (returns_get.mpr ⟨rfl, rfl⟩)).trans ((returns_bind_of_returns (returns_advance.mpr ⟨rfl, rfl⟩)).trans
      ((advanceWhile_bind (hs.advance 2) (by decide) hfuel).trans (returns_bind_of_returns (returns_peek.mpr ⟨rfl, rfl⟩))))
  unfold hexDigits?
  by_cases hc : toUpper (((lX.left.drop 2).dropWhile isXDigit).headD eofChar) = chr 'P'
  · simp only [if_pos hc] at hsame ⊢
    exact ⟨nofun, fun n hn => Option.some.inj hn ▸ hsame, nofun⟩
  · simp only [if_neg hc] at hsame ⊢
    refine ⟨fun ds hds => ?_, nofun, nofun⟩
    rw [prefixLength, if_pos (by decide), ← Option.some.inj hds]
    exact hsame

theorem converts_binary (hs : InStep src lX) (hfuel : src.length < fuel) :
    Converts strtod fuel tok lX 2 (binaryDigits? (lX.left.drop 2)) none (tokBinaryNumber tok fuel) := by
  obtain ⟨t, ht⟩ : ∃ t, (lX.advance 2).advance ((lX.advance 2).left.takeWhile isBin).length = t := ⟨_, rfl⟩
  have hts : InStep src t := ht ▸ (hs.advance 2).advance _
  have hleft : t.left = (lX.left.drop 2).dropWhile isBin := ht ▸ (left_takeWhile _ isBin).trans (by rw [left_advance])
  have hbin {r lX'} : Returns (tokBinaryNumber tok fuel) lX r lX' ↔ _ :=
    (returns_bind_of_returns (returns_get.mpr ⟨rfl, rfl⟩)).trans ((returns_bind_of_returns (returns_advance.mpr ⟨rfl, rfl⟩)).trans
      ((advanceWhile_bind (p := isBin) (hs.advance 2) (by decide) hfuel).trans (returns_bind_of_returns (returns_get.mpr ⟨rfl, rfl⟩))))
  rw [ht] at hbin
  unfold binaryDigits?
  rw [← hleft, ← peek_zero]
  by_cases hd : isDigit (t.peek 0) = true
  · rw [if_pos hd] at hbin ⊢
    have hlen := hts.length_left
    have htake := (List.takeWhile_prefix isDigit (l := t.left)).length_le
    exact ⟨nofun, nofun, fun _ _ => ⟨_, _, hbin.mpr (returns_bind.mpr ⟨(), _, eatWhile_advances hts (by omega), error_returns ..⟩)⟩⟩
  · rw [if_neg hd] at hbin ⊢
    refine ⟨fun ds hds r lX' => ?_, nofun, nofun⟩
    rw [prefixLength, if_pos (by decide), ← Option.some.inj hds, ← advance_advance, ← left_advance, ht]
    exact hbin

theorem converts_number (hs : InStep src lX) (hfuel : src.length < fuel) :
    Converts strtod fuel tok lX (integerBase lX.left) (integerDigits? lX.left) (pointAt? lX.left) (tokNumber strtod tok fuel) := by
  have hnumber {r lX'} : Returns (tokNumber strtod tok fuel) lX r lX' ↔ _ := returns_bind_of_returns (returns_get.mpr ⟨rfl, rfl⟩)
  dsimp only at hnumber
  unfold integerBase integerDigits? pointAt?
  dsimp only
  rw [← peek_zero, ← peek_eq, ← peek_eq]
  by_cases hzero : lX.peek 0 = chr '0'
  · simp only [if_pos hzero] at hnumber ⊢
    by_cases hx : toUpper (lX.peek 1) = chr 'X' ∧ isXDigit (lX.peek 2)
    · simp only [if_pos hx] at hnumber ⊢
      exact (converts_hex hs hfuel).of_iff hnumber
    simp only [if_neg hx] at hnumber ⊢
    by_cases hb : toUpper (lX.peek 1) = chr 'B' ∧ (lX.peek 2 = chr '0' ∨ lX.peek 2 = chr '1')
    · simp only [if_pos hb] at hnumber ⊢
      exact (converts_binary hs hfuel).of_iff hnumber
    simp only [if_neg hb] at hnumber ⊢
    by_cases hc : toUpper (lX.peek 1) = chr '.' ∨ toUpper (lX.peek 1) = chr 'E'
    · simp only [if_pos hc] at hnumber ⊢
      refine ⟨nofun, fun n hn r lX' => ?_, nofun⟩
      obtain rfl := Option.some.inj hn
      exact hnumber.trans (returns_bind_of_returns (returns_advance.mpr ⟨rfl, rfl⟩))
    · simp only [if_neg hc] at hnumber ⊢
      exact (converts_octal hs hfuel).of_iff hnumber
  · simp only [if_neg hzero] at hnumber ⊢
    exact (converts_decimal hs hfuel).of_iff hnumber

/-! ### The digits of an integer -/

/-- The characters that the lexer takes for digits are digits of the base. -/
theorem digit_spec : ∀ c : U8, (isDigit c → (digit? 10 c).isSome) ∧ (isOct c → (digit? 8 c).isSome) ∧
    (isXDigit c → (digit? 16 c).isSome) ∧ (isBin c → (digit? 2 c).isSome) := by decide +kernel

theorem digit_ten : ∀ c : U8, isDigit c → (digit? 10 c).isSome := fun c => (digit_spec c).1

theorem digit_eight : ∀ c : U8, isOct c → (digit? 8 c).isSome := fun c => (digit_spec c).2.1

theorem digit_sixteen : ∀ c : U8, isXDigit c → (digit? 16 c).isSome := fun c => (digit_spec c).2.2.1

theorem digit_two : ∀ c : U8, isBin c → (digit? 2 c).isSome := fun c => (digit_spec c).2.2.2

/-- Digits of a base, behind the prefix for the base. -/
structure DigitsOf (base : Nat) (text ds : List U8) : Prop where
  base_le : base ≤ 16
  ne_nil : ds ≠ []
  digits : ∀ c ∈ ds, (digit? base c).isSome
  split : ∃ lead rest, text = lead ++ ds ++ rest ∧ lead.length = prefixLength base

theorem digitsOf_takeWhile {base n : Nat} (hbase : base ≤ 16) (hn : prefixLength base = n) (hlen : n ≤ text.length)
    (hp : ∀ c, p c → (digit? base c).isSome) (heof : p eofChar = false) (hhead : p (text.getD n eofChar)) :
    DigitsOf base text ((text.drop n).takeWhile p) where
  base_le := hbase
  ne_nil hnil := by
    rcases hdrop : text.drop n with _ | ⟨c, rest⟩
    · rw [List.getD_eq_getElem?_getD, ← List.head?_drop, hdrop] at hhead
      exact absurd hhead (by simp [heof])
    · rw [List.getD_eq_getElem?_getD, ← List.head?_drop, hdrop, List.head?_cons, Option.getD_some] at hhead
      rw [hdrop, List.takeWhile_cons_of_pos hhead] at hnil
      cases hnil
  digits c hc := hp c (List.mem_takeWhile_imp hc)
  split := ⟨text.take n, (text.drop n).dropWhile p, by rw [List.append_assoc, List.takeWhile_append_dropWhile, List.take_append_drop],
    by rw [List.length_take, hn, Nat.min_eq_left hlen]⟩

/-- What is given to `strtoull` are digits of the base. -/
theorem digitsOf_integer (hstart : StartsNumber text) (hds : integerDigits? text = some ds) :
    DigitsOf (integerBase text) text ds := by
  have hzeroth : text.getD 0 eofChar = text.headD eofChar := by cases text <;> rfl
  have hlen {n : Nat} (h : text.getD n eofChar ≠ eofChar) : n ≤ text.length := by
    refine Nat.le_of_not_lt fun hlt => h ?_
    rw [List.getD_eq_getElem?_getD, List.getElem?_eq_none (Nat.le_of_lt hlt)]
    rfl
  unfold integerDigits? at hds
  unfold integerBase
  dsimp only at hds ⊢
  by_cases hzero : text.headD eofChar = chr '0'
  · simp only [if_pos hzero] at hds ⊢
    by_cases hx : toUpper (text.getD 1 eofChar) = chr 'X' ∧ isXDigit (text.getD 2 eofChar)
    · simp only [if_pos hx] at hds ⊢
      unfold hexDigits? at hds
      split at hds
      · cases hds
      rw [← Option.some.inj hds]
      refine digitsOf_takeWhile (by decide) (by decide) (hlen fun h => ?_) digit_sixteen (by decide) hx.2
      exact absurd hx.2 (by rw [h]; decide)
    simp only [if_neg hx] at hds ⊢
    by_cases hb : toUpper (text.getD 1 eofChar) = chr 'B' ∧ (text.getD 2 eofChar = chr '0' ∨ text.getD 2 eofChar = chr '1')
    · simp only [if_pos hb] at hds ⊢
      unfold binaryDigits? at hds
      split at hds
      · cases hds
      rw [← Option.some.inj hds]
      have hbin : isBin (text.getD 2 eofChar) = true := by simpa [isBin] using hb.2
      refine digitsOf_takeWhile (by decide) (by decide) (hlen fun h => ?_) digit_two (by decide) hbin
      exact absurd hbin (by rw [h]; decide)
    simp only [if_neg hb] at hds ⊢
    split at hds
    · cases hds
    unfold octalDigits? at hds
    split at hds
    · cases hds
    have hoct : DigitsOf 8 text ((text.drop 0).takeWhile isOct) :=
      digitsOf_takeWhile (by decide) (by decide) (Nat.zero_le _) digit_eight (by decide) (by rw [hzeroth, hzero]; decide)
    exact Option.some.inj hds ▸ hoct
  · simp only [if_neg hzero] at hds ⊢
    unfold decimalDigits? at hds
    dsimp only at hds
    split at hds
    · cases hds
    rename_i hpoint
    have hdigit : isDigit (text.getD 0 eofChar) = true := by
      rw [hzeroth]
      refine hstart.resolve_right fun hdot => hpoint (.inr ?_)
      rcases text with _ | ⟨c, text⟩
      · exact absurd hdot.1 (by decide)
      · obtain rfl : c = chr '.' := hdot.1
        rw [List.dropWhile_cons_of_neg (by decide), List.headD_cons]
    have hdecimal : DigitsOf 10 text ((text.drop 0).takeWhile isDigit) :=
      digitsOf_takeWhile (by decide) (by decide) (Nat.zero_le _) digit_ten (by decide) hdigit
    exact Option.some.inj hds ▸ hdecimal

/-- An integer has no point. -/
theorem pointAt?_of_integer (hds : integerDigits? text = some ds) : pointAt? text = none := by
  unfold integerDigits? at hds
  unfold pointAt?
  dsimp only at hds ⊢
  by_cases hzero : text.headD eofChar = chr '0'
  · simp only [if_pos hzero] at hds ⊢
    by_cases hx : toUpper (text.getD 1 eofChar) = chr 'X' ∧ isXDigit (text.getD 2 eofChar)
    · simp only [if_pos hx] at hds ⊢
      unfold hexDigits? at hds
      split at hds
      · cases hds
      · exact if_neg ‹_›
    simp only [if_neg hx] at hds ⊢
    by_cases hb : toUpper (text.getD 1 eofChar) = chr 'B' ∧ (text.getD 2 eofChar = chr '0' ∨ text.getD 2 eofChar = chr '1')
    · exact if_pos hb
    simp only [if_neg hb] at hds ⊢
    by_cases hc : toUpper (text.getD 1 eofChar) = chr '.' ∨ toUpper (text.getD 1 eofChar) = chr 'E'
    · rw [if_pos hc] at hds
      cases hds
    simp only [if_neg hc] at hds ⊢
    unfold octalDigits? at hds
    split at hds
    · cases hds
    · exact if_neg fun h => absurd h.1 ‹_›
  · simp only [if_neg hzero] at hds ⊢
    unfold decimalDigits? at hds
    dsimp only at hds
    split at hds
    · cases hds
    · exact if_neg ‹_›

/-! ### The conversions -/

/-- What a token comes to for `Lexer_next`. -/
def toPass (r : TokenKind × Token) : Pass Unit (TokenKind × Token) := if r.1 = .tokCOUNT then .again () else .done r

/-- An error has been found. -/
def isAgain : Pass Unit (TokenKind × Token) → Bool
  | .again _ => true
  | .done _ => false

/-- A token with a value, or an error for a value that has no token. -/
def ReadsInteger (value : Nat) (lX : Lexer) (pass : Pass Unit (TokenKind × Token)) (lX' : Lexer) : Prop :=
  if value < 2 ^ 64 then
    ∃ tok, pass = .done (.tokInteger, tok) ∧ tok.kind = .tokInteger ∧ tok.value = .int (BitVec.ofNat 64 value)
  else pass = .again () ∧ ∃ d, lX'.log.errors = lX.log.errors ++ [d]

/-- The result is an error when there has been one before, or when not all of the text is read. -/
theorem setNumber_ends {x : Strto} {fmt : String} (hle : start ≤ t.idx) : ∃ r t',
    Returns (setNumber tok kind start pos text x fmt) t r t' ∧
      if (t.erange || x.erange) = true ∨ text.getD x.stop 0 ≠ 0 then r.1 = .tokCOUNT ∧ ∃ d, t'.log.errors = t.log.errors ++ [d]
      else r.1 = kind ∧ r.2.kind = kind ∧ r.2.value = .int x.value := by
  have hset {r t'} : Returns (setNumber tok kind start pos text x fmt) t r t' ↔ _ :=
    (returns_bind_of_returns (a := ()) (returns_modify.mpr rfl)).trans (returns_bind_of_returns (returns_get.mpr ⟨rfl, rfl⟩))
  by_cases he : (t.erange || x.erange) = true ∨ text.getD x.stop 0 ≠ 0
  · rw [if_pos he] at hset
    simp only [if_pos he]
    exact ⟨_, _, hset.mpr (returns_bind.mpr ⟨(), _, returns_modify.mpr rfl, returns_pure.mpr ⟨rfl, rfl⟩⟩), rfl, _, rfl⟩
  · rw [if_neg he] at hset
    simp only [if_neg he]
    exact ⟨_, _, hset.mpr (returns_updateToken.mpr ⟨hle, rfl, rfl⟩), rfl, rfl, rfl⟩

theorem stopIf_bind {α : Type} {c : Prop} [Decidable c] {e : LexStop} {f : Unit → LexM α} {a : α} :
    Returns (stopIf c e >>= f) lX a lX' ↔ ¬c ∧ Returns (f ()) lX a lX' :=
  returns_bind_of_iff fun _ _ => returns_stopIf.trans (and_congr_right fun _ => (and_iff_right rfl).symm)

theorem parseInteger_iff {base : Nat} (hs : InStep src lX) (hds : DigitsOf base lX.left ds) :
    Returns (parseInteger tok lX.idx lX.pos base) (lX.advance (prefixLength base + ds.length)) r lX' ↔ ds.length ≤ 39 ∧
      Returns (setNumber tok .tokInteger lX.idx lX.pos ds (strtoull ds base) "parsing integer failed: %s")
        (lX.advance (prefixLength base + ds.length)) r lX' := by
  obtain ⟨lead, rest, hsplit, hlead⟩ := hds.split
  have hlen : prefixLength base + ds.length ≤ lX.left.length := by
    rw [hsplit, List.length_append, List.length_append]
    omega
  have hidx := hs.idx_advance hlen
  have hstart : (if base = 16 ∨ base = 2 then lX.idx + 2 else lX.idx) = lX.idx + prefixLength base := by
    rw [prefixLength]
    split <;> rfl
  have hsub : (lX.advance (prefixLength base + ds.length)).idx - (lX.idx + prefixLength base) = ds.length := by
    rw [hidx]
    omega
  have htext : ((lX.advance (prefixLength base + ds.length)).src.drop (lX.idx + prefixLength base)).take ds.length = ds := by
    change (lX.src.drop (lX.idx + prefixLength base)).take ds.length = ds
    rw [← List.drop_drop, ← Lexer.left, hsplit, ← hlead, List.append_assoc, List.drop_left, List.take_left]
  refine (returns_bind_of_returns (returns_get.mpr ⟨rfl, rfl⟩)).trans ?_
  dsimp only
  rw [hstart, hsub, htext, stopIf_bind, Nat.not_lt]

/-- When an integer is read as what it is. -/
theorem integer_iff (hs : InStep src lX) (hfuel : src.length < fuel) (hstart : StartsNumber lX.left)
    (hds : integerDigits? lX.left = some ds) :
    (∃ r lX', Returns (tokNumber strtod tok fuel) lX r lX' ∧
      ReadsInteger (digitsValue (integerBase lX.left) ds) lX (toPass r) lX') ↔
      ds.length ≤ 39 ∧ (digitsValue (integerBase lX.left) ds < 2 ^ 64 → lX.erange = false) := by
  have hdigits := digitsOf_integer hstart hds
  have hconv := (converts_number hs hfuel : Converts strtod fuel tok lX _ _ _ _).integer ds hds
  generalize integerBase lX.left = base at *
  have hle : lX.idx ≤ (lX.advance (prefixLength base + ds.length)).idx := by
    have := hs.idx_le
    simp only [Lexer.advance, hs.src_eq]
    omega
  obtain ⟨r, t, hr, hcase⟩ := @setNumber_ends _ lX.idx tok .tokInteger lX.pos ds (strtoull ds base) "parsing integer failed: %s" hle
  have hstop : ds.getD (strtoull ds base).stop 0 = 0 := by
    have hlen : (strtoull ds base).stop = ds.length := by
      rw [strtoull_eq hdigits.base_le hdigits.ne_nil hdigits.digits]
      split <;> rfl
    rw [hlen, List.getD_eq_getElem?_getD, List.getElem?_eq_none (Nat.le_refl _)]
    rfl
  have herange : (lX.advance (prefixLength base + ds.length)).erange = lX.erange := rfl
  have herrors : (lX.advance (prefixLength base + ds.length)).log = lX.log := rfl
  have hfound : (∃ r lX', Returns (tokNumber strtod tok fuel) lX r lX' ∧ ReadsInteger (digitsValue base ds) lX (toPass r) lX') ↔
      ds.length ≤ 39 ∧ ReadsInteger (digitsValue base ds) lX (toPass r) t := by
    constructor
    · rintro ⟨r', t', hr', hreads⟩
      obtain ⟨hlen, hset⟩ := (parseInteger_iff hs hdigits).mp ((hconv _ _).mp hr')
      obtain ⟨rfl, rfl⟩ := hr.unique hset
      exact ⟨hlen, hreads⟩
    · rintro ⟨hlen, hreads⟩
      exact ⟨r, t, (hconv _ _).mpr ((parseInteger_iff hs hdigits).mpr ⟨hlen, hr⟩), hreads⟩
  rw [hfound]
  refine and_congr_right fun _ => ?_
  rw [herange, herrors, hstop, strtoull_eq hdigits.base_le hdigits.ne_nil hdigits.digits] at hcase
  unfold ReadsInteger
  by_cases hvalue : digitsValue base ds < 2 ^ 64
  · simp only [if_pos hvalue, Bool.or_false, ne_eq, not_true_eq_false, or_false] at hcase ⊢
    rw [imp_iff_right hvalue]
    by_cases he : lX.erange = true
    · rw [if_pos he] at hcase
      refine iff_of_false ?_ (by rw [he]; exact Bool.noConfusion)
      rintro ⟨tok, hpass, -⟩
      rw [toPass, if_pos hcase.1] at hpass
      cases hpass
    · rw [if_neg he] at hcase
      obtain ⟨hkind, hkind', hval⟩ := hcase
      refine iff_of_true ⟨r.2, ?_, hkind', hval⟩ (Bool.eq_false_of_not_eq_true he)
      rw [toPass, if_neg (by rw [hkind]; decide), ← hkind]
  · simp only [if_neg hvalue, Bool.or_true, true_or, if_true] at hcase ⊢
    refine iff_of_true ⟨?_, hcase.2⟩ fun h => absurd h hvalue
    rw [toPass, if_pos hcase.1]

/-! ### Floating point numbers -/

/-- How many characters are copied for `strtod`. -/
def floating? (text : List U8) : Option Nat :=
  (pointAt? text).bind fun n =>
    let c := toUpper ((text.drop n).headD eofChar)
    let sign := ((text.drop n).drop 1).headD eofChar
    let skip := if (c = chr 'E' ∨ c = chr 'P') ∧ (sign = chr '-' ∨ sign = chr '+') then 1 else 0
    let digits := ((text.drop n).drop 1).drop skip
    if (c = chr 'E' ∨ c = chr 'P') ∧ !isDigit (digits.headD eofChar) then none
    else some (n + (1 + (skip + (digits.takeWhile isDigit).length)))

/-- The point or the exponent is where it is looked for. -/
theorem pointAt?_isPoint {n : Nat} (hn : pointAt? text = some n) : n ≤ text.length ∧ isPoint ((text.drop n).headD eofChar) := by
  have htake (p : U8 → Bool) (s : List U8) : s.drop (s.takeWhile p).length = s.dropWhile p :=
    (congrArg (List.drop _) List.takeWhile_append_dropWhile.symm).trans List.drop_left
  have hlen (p : U8 → Bool) (s : List U8) : (s.takeWhile p).length ≤ s.length := (List.takeWhile_prefix p).length_le
  have hpoint : ∀ c : U8, c = chr '.' ∨ c = chr 'e' ∨ c = chr 'E' → toUpper c = chr '.' ∨ toUpper c = chr 'E' := by
    decide +kernel
  unfold pointAt? at hn
  dsimp only at hn
  split at hn
  · rename_i hzero
    split at hn
    · rename_i hx
      split at hn
      · rename_i hp
        obtain rfl := Option.some.inj hn
        rw [← List.drop_drop, htake]
        have hle := hlen isXDigit (text.drop 2)
        have hlong : 2 ≤ text.length := Nat.le_of_not_lt fun hlt => by
          have hdigit := hx.2
          rw [List.getD_eq_getElem?_getD, List.getElem?_eq_none (by omega)] at hdigit
          exact absurd hdigit (by decide)
        rw [List.length_drop] at hle
        exact ⟨by omega, .inr (.inr hp)⟩
      · cases hn
    · split at hn
      · cases hn
      split at hn
      · rename_i hc
        obtain rfl := Option.some.inj hn
        rcases text with _ | ⟨c, text⟩
        · exact absurd hzero (by decide)
        · have hsecond : (c :: text).getD 1 eofChar = text.headD eofChar := by cases text <;> rfl
          rw [hsecond] at hc
          exact ⟨Nat.le_add_left _ _, hc.imp id .inl⟩
      · split at hn
        · rename_i hc
          obtain rfl := Option.some.inj hn
          rw [← List.drop_drop, htake, htake]
          have hle := hlen isDigit (text.dropWhile isOct)
          have hsum := congrArg List.length (List.takeWhile_append_dropWhile (p := isOct) (l := text))
          rw [List.length_append] at hsum
          refine ⟨by omega, (hpoint _ hc.2).imp id .inl⟩
        · cases hn
  · split at hn
    · rename_i hc
      obtain rfl := Option.some.inj hn
      rw [htake]
      refine ⟨hlen _ _, hc.elim (fun h => .inr (.inl h)) fun h => .inl ?_⟩
      rw [h]
      decide
    · cases hn

theorem advanceIf_advance (hs : InStep src lX) (c : Prop) [Decidable c] :
    Returns (advanceIf c) lX () (lX.advance (if c then 1 else 0)) := by
  unfold advanceIf
  split
  · exact returns_bind.mpr ⟨_, _, returns_advance.mpr ⟨rfl, rfl⟩, returns_pure.mpr ⟨rfl, rfl⟩⟩
  · rw [hs.advance_zero]
    exact returns_pure.mpr ⟨rfl, rfl⟩

/-- From the point on. -/
theorem tokFloatingPoint_iff (hs : InStep src t) (hfuel : src.length < fuel) (hstart : start ≤ t.idx) (hpoint : isPoint (t.peek 0)) :
    (∃ r lX', Returns (tokFloatingPoint strtod tok start pos fuel) t r lX') ↔
      let c := toUpper (t.peek 0)
      let sign := (t.left.drop 1).headD eofChar
      let skip := if (c = chr 'E' ∨ c = chr 'P') ∧ (sign = chr '-' ∨ sign = chr '+') then 1 else 0
      let digits := (t.left.drop 1).drop skip
      (c = chr 'E' ∨ c = chr 'P') ∧ !isDigit (digits.headD eofChar) ∨
        t.idx + (1 + (skip + (digits.takeWhile isDigit).length)) - start < 1084 := by
  have hassert : ¬(toUpper (t.peek 0) ≠ chr '.' ∧ toUpper (t.peek 0) ≠ chr 'E' ∧ toUpper (t.peek 0) ≠ chr 'P') := by
    rintro ⟨h1, h2, h3⟩
    exact hpoint.elim h1 fun h => h.elim h2 h3
  have hsteps {r lX'} : Returns (tokFloatingPoint strtod tok start pos fuel) t r lX' ↔ _ :=
    (returns_bind_of_returns (returns_peek.mpr ⟨rfl, rfl⟩)).trans (stopIf_bind.trans ((and_iff_right hassert).trans
      ((returns_bind_of_returns (returns_advance.mpr ⟨rfl, rfl⟩)).trans ((returns_bind_of_returns (returns_peek.mpr ⟨rfl, rfl⟩)).trans
        ((returns_bind_of_returns (advanceIf_advance (hs.advance 1) _)).trans
          (returns_bind_of_returns (returns_peek.mpr ⟨rfl, rfl⟩)))))))
  dsimp only
  rw [← left_advance, ← peek_zero, ← left_advance, ← peek_zero]
  generalize hskip : (if (toUpper (t.peek 0) = chr 'E' ∨ toUpper (t.peek 0) = chr 'P') ∧
    ((t.advance 1).peek 0 = chr '-' ∨ (t.advance 1).peek 0 = chr '+') then 1 else 0) = skip at hsteps ⊢
  obtain ⟨w, hw⟩ : ∃ w, (t.advance 1).advance skip = w := ⟨_, rfl⟩
  have hws : InStep src w := hw ▸ (hs.advance 1).advance skip
  rw [hw] at hsteps ⊢
  by_cases hbad : (toUpper (t.peek 0) = chr 'E' ∨ toUpper (t.peek 0) = chr 'P') ∧ (!isDigit (w.peek 0)) = true
  · rw [if_pos hbad] at hsteps
    exact iff_of_true ⟨_, _, hsteps.mpr (error_returns ..)⟩ (.inl hbad)
  rw [if_neg hbad] at hsteps
  have hlen := hws.length_left
  have htake := (List.takeWhile_prefix isDigit (l := w.left)).length_le
  have hrest {r lX'} : Returns (tokFloatingPoint strtod tok start pos fuel) t r lX' ↔ _ :=
    hsteps.trans ((returns_bind_of_returns (eatWhile_advances hws (by omega))).trans
      ((returns_bind_of_returns (returns_get.mpr ⟨rfl, rfl⟩)).trans stopIf_bind))
  -- the indices up to the end of the number
  have hone : 1 ≤ t.left.length := lt_length_of_peek fun h => by
    rw [h] at hpoint
    exact absurd hpoint (by unfold isPoint; decide)
  have hsign : skip ≤ (t.advance 1).left.length := by
    rw [← hskip]
    split
    · rename_i h
      exact lt_length_of_peek fun heof => absurd h.2 (by rw [heof]; decide)
    · exact Nat.zero_le _
  have hidx : (w.advance (w.left.takeWhile isDigit).length).idx = t.idx + (1 + (skip + (w.left.takeWhile isDigit).length)) := by
    rw [hws.idx_advance htake, ← hw, (hs.advance 1).idx_advance hsign, hs.idx_advance hone]
    omega
  have htext : ((w.advance (w.left.takeWhile isDigit).length).src.drop start |>.take
      ((w.advance (w.left.takeWhile isDigit).length).idx - start)).length =
        t.idx + (1 + (skip + (w.left.takeWhile isDigit).length)) - start := by
    have hle := (hws.advance (w.left.takeWhile isDigit).length).idx_le
    rw [List.length_take, List.length_drop, (hws.advance _).src_eq, hidx]
    rw [hidx] at hle
    omega
  rw [htext, Nat.not_le] at hrest
  rw [or_iff_right hbad]
  constructor
  · rintro ⟨r, lX', hr⟩
    exact (hrest.mp hr).1
  · intro hlt
    have hle : start ≤ (w.advance (w.left.takeWhile isDigit).length).idx := by
      rw [hidx]
      omega
    obtain ⟨r, lX', hr, -⟩ := setNumber_ends hle
    exact ⟨r, lX', hrest.mpr ⟨hlt, hr⟩⟩

/-- When a floating point number is read at all. -/
theorem floating_iff {n : Nat} (hs : InStep src lX) (hfuel : src.length < fuel) (hn : pointAt? lX.left = some n) :
    (∃ r lX', Returns (tokNumber strtod tok fuel) lX r lX') ↔ ∀ k, floating? lX.left = some k → k < 1084 := by
  have hconv := (converts_number hs hfuel : Converts strtod fuel tok lX _ _ _ _).floating n hn
  obtain ⟨hlen, hpoint⟩ := pointAt?_isPoint hn
  have hidx := hs.idx_advance hlen
  rw [← left_advance, ← peek_zero] at hpoint
  have hiff := @tokFloatingPoint_iff _ _ _ lX.idx tok lX.pos strtod (hs.advance n) hfuel (by omega) hpoint
  rw [floating?, hn, Option.bind_some]
  dsimp only at hiff ⊢
  rw [hidx, left_advance, peek_zero, left_advance] at hiff
  simp only [hconv, hiff]
  generalize (if (toUpper ((lX.left.drop n).headD eofChar) = chr 'E' ∨ toUpper ((lX.left.drop n).headD eofChar) = chr 'P') ∧
    (((lX.left.drop n).drop 1).headD eofChar = chr '-' ∨ ((lX.left.drop n).drop 1).headD eofChar = chr '+') then 1 else 0) = skip
  split
  · rename_i h
    exact iff_of_true (.inl h) nofun
  · rename_i h
    rw [or_iff_right h]
    simp only [Option.some.injEq, forall_eq']
    omega

/-! ### A pass of the loop -/

/-- The space before a token, of which the first newline is a token. -/
theorem skipSpace_ends (hs : InStep src lX) (hfuel : (lX.left.takeWhile isSpace).length < fuel) :
    ∃ out, Returns (skipSpace tok fuel) lX out (lX.advance (lX.left.takeWhile isSpace).length) ∧
      if tok.kind = .tokCOUNT ∧ chr '\n' ∈ lX.left.takeWhile isSpace then out.kind = .tokNl else out = tok := by
  induction fuel generalizing lX tok with
  | zero => omega
  | succ fuel ih =>
    by_cases hspace : isSpace (lX.left.headD eofChar) = true
    · obtain ⟨c, text, hleft⟩ : ∃ c text, lX.left = c :: text := by
        rcases hleft : lX.left with _ | ⟨c, text⟩
        · rw [hleft] at hspace
          exact absurd hspace (by decide)
        · exact ⟨c, text, rfl⟩
      rw [hleft, List.headD_cons] at hspace
      rw [hleft, List.takeWhile_cons_of_pos hspace, List.length_cons] at hfuel ⊢
      have hpeek : lX.peek 0 = c := by rw [peek_zero, hleft, List.headD_cons]
      have hlt : lX.idx < lX.src.length := by
        have := hs.length_left
        rw [hleft, List.length_cons] at this
        rw [hs.src_eq]
        omega
      have hnext : (lX.advance 1).left = text := by rw [left_advance, hleft]; rfl
      have hpass {tok'} (hnl : Returns (newline lX tok) lX (tok'.kind, tok') lX) {out t}
          (hrest : Returns (skipSpace tok' fuel) (lX.advance 1) out t) : Returns (skipSpace tok (fuel + 1)) lX out t := by
        refine returns_bind.mpr ⟨.again tok', lX.advance 1, returns_bind.mpr ⟨lX, lX, returns_get.mpr ⟨rfl, rfl⟩, ?_⟩, hrest⟩
        rw [if_pos ⟨hlt, hpeek ▸ hspace⟩]
        exact returns_bind.mpr ⟨_, _, hnl, returns_bind.mpr ⟨(), _, returns_modify.mpr rfl, returns_pure.mpr ⟨rfl, advance_one hlt⟩⟩⟩
      rw [← hnext] at hfuel ⊢
      rw [Nat.add_comm (List.length _), ← advance_advance]
      by_cases hc : tok.kind = .tokCOUNT ∧ c = chr '\n'
      · obtain ⟨out, hr, hout⟩ := @ih _ { tok with
            kind := .tokNl, range := { start := lX.idx, stop := lX.idx, coord := lX.pos.update c, source := lX.src } } (hs.advance 1) (by omega)
        rw [if_neg fun h => TokenKind.noConfusion h.1] at hout
        refine ⟨out, hpass ?_ hr, ?_⟩
        · unfold newline
          rw [hpeek, if_pos hc]
          exact returns_updateToken.mpr ⟨Nat.le_refl _, rfl, rfl⟩
        · rw [if_pos ⟨hc.1, hc.2.symm ▸ List.mem_cons_self⟩, hout]
      · obtain ⟨out, hr, hout⟩ := @ih _ tok (hs.advance 1) (by omega)
        refine ⟨out, hpass ?_ hr, ?_⟩
        · unfold newline
          rw [hpeek, if_neg hc]
          exact returns_pure.mpr ⟨rfl, rfl⟩
        · refine (if_congr (and_congr_right fun hkind => ?_) rfl rfl).mpr hout
          rw [List.mem_cons]
          exact or_iff_right fun heq => hc ⟨hkind, heq.symm⟩
    · have hnil : lX.left.takeWhile isSpace = [] := by
        rcases hleft : lX.left with _ | ⟨c, text⟩
        · rfl
        · rw [hleft, List.headD_cons] at hspace
          exact List.takeWhile_cons_of_neg hspace
      rw [hnil, List.length_nil, hs.advance_zero]
      refine ⟨tok, ?_, by rw [if_neg fun h => absurd h.2 List.not_mem_nil]⟩
      refine returns_bind.mpr ⟨.done tok, lX, returns_bind.mpr ⟨lX, lX, returns_get.mpr ⟨rfl, rfl⟩, ?_⟩, returns_pure.mpr ⟨rfl, rfl⟩⟩
      rw [if_neg fun h => hspace (peek_zero lX ▸ h.2)]
      exact returns_pure.mpr ⟨rfl, rfl⟩

/-- The space before a token, which has no newline. -/
theorem skipSpace_lead {lead : List U8} (hs : InStep src lX) (hleft : lX.left = lead ++ text)
    (hlead : ∀ c ∈ lead, isSpace c ∧ c ≠ chr '\n') (htext : isSpace (text.headD eofChar) = false) (hfuel : lead.length < fuel) :
    Returns (skipSpace tok fuel) lX tok (lX.advance lead.length) := by
  have htake : lX.left.takeWhile isSpace = lead := by
    have hnil : text.takeWhile isSpace = [] := by
      rcases text with _ | ⟨c, text⟩
      · rfl
      · exact List.takeWhile_cons_of_neg (by rw [show isSpace c = false from htext]; decide)
    rw [hleft, List.takeWhile_append_of_pos fun c hc => (hlead c hc).1, hnil, List.append_nil]
  obtain ⟨out, hr, hout⟩ := @skipSpace_ends _ _ _ tok hs (htake.symm ▸ hfuel)
  rw [htake] at hr hout
  rw [if_neg fun h => (hlead _ h.2).2 rfl] at hout
  exact hout ▸ hr

/-- The token that a pass begins with. -/
def emptyToken (lX : Lexer) : Token :=
  { kind := .tokCOUNT, range := { start := lX.idx, stop := lX.idx, coord := lX.pos, source := lX.src } }

/-- A pass comes to the number behind the space. -/
theorem round_number {lead : List U8} (hs : InStep src lX) (hnext : lX.next.kind = .tokCOUNT) (hleft : lX.left = lead ++ text)
    (hlead : ∀ c ∈ lead, isSpace c ∧ c ≠ chr '\n') (hstart : StartsNumber text) (hfuel : src.length < fuel) :
    ∀ pass lX', Returns (round strtod fuel) lX pass lX' ↔
      ∃ r, Returns (tokNumber strtod (emptyToken lX) fuel) (lX.advance lead.length) r lX' ∧ pass = toPass r := by
  have hlen := hs.length_left
  rw [hleft, List.length_append] at hlen
  have hspace : isSpace (text.headD eofChar) = false := by
    have hdigit : ∀ c : U8, isDigit c ∨ c = chr '.' → isSpace c = false := by decide +kernel
    exact hdigit _ (hstart.imp id And.left)
  have htext : (lX.advance lead.length).left = text := by rw [left_advance, hleft, List.drop_left]
  have hlex : lexeme ((lX.advance lead.length).peek 0) ((lX.advance lead.length).peek 1) ((lX.advance lead.length).peek 2)
      (lX.advance lead.length).inStrExpr = .number := by
    rw [peek_zero, peek_eq _ 1, htext]
    rcases hstart with h | ⟨hdot, h⟩
    · exact lexeme_digit h
    · rw [hdot]
      exact if_pos h
  have hbegin {pass lX'} : Returns (round strtod fuel) lX pass lX' ↔ _ :=
    (returns_bind_of_returns (returns_get.mpr ⟨rfl, rfl⟩)).trans
      (returns_bind_of_returns (returns_updateToken.mpr ⟨Nat.le_refl _, rfl, rfl⟩))
  rw [if_neg (not_not.mpr hnext)] at hbegin
  have hskip := @skipSpace_lead _ _ fuel (emptyToken lX) _ _ hs hleft hlead hspace (by omega)
  have hrest {pass lX'} := (@hbegin pass lX').trans (returns_bind_of_returns hskip)
  have hkind : (emptyToken lX).kind = .tokCOUNT := rfl
  rw [if_neg (not_not.mpr hkind)] at hrest
  have htokenize (r : TokenKind × Token) (t : Lexer) : Returns (tokenize strtod fuel (emptyToken lX)) (lX.advance lead.length) r t ↔
      Returns (tokNumber strtod (emptyToken lX) fuel) (lX.advance lead.length) r t := by
    refine (returns_bind_of_returns (returns_get.mpr ⟨rfl, rfl⟩)).trans ?_
    rw [hlex]
    rfl
  have hpass (r : TokenKind × Token) (t : Lexer) (pass : Pass Unit (TokenKind × Token)) (lX' : Lexer) :
      Returns (if r.1 = .tokCOUNT then pure (.again ()) else pure (.done r) : LexM (Pass Unit (TokenKind × Token))) t pass lX' ↔
        pass = toPass r ∧ lX' = t := by
    unfold toPass
    split <;> exact returns_pure
  intro pass lX'
  rw [hrest, returns_bind]
  constructor
  · rintro ⟨r, t, hr, hlast⟩
    obtain ⟨rfl, rfl⟩ := (hpass ..).mp hlast
    exact ⟨r, (htokenize ..).mp hr, rfl⟩
  · rintro ⟨r, hr, rfl⟩
    exact ⟨r, lX', (htokenize ..).mpr hr, (hpass ..).mpr ⟨rfl, rfl⟩⟩

/-- A call returns what its first pass does. -/
theorem next_of_round (hr : Returns (round strtod fuel) lX (.done r) lX') (hfuel : 0 < fuel) :
    Returns (next strtod fuel) lX r lX' := by
  obtain ⟨k, rfl⟩ : ∃ k, fuel = k + 1 := ⟨fuel - 1, by omega⟩
  exact returns_bind.mpr ⟨_, _, hr, returns_pure.mpr ⟨rfl, rfl⟩⟩

/-! ### Numbers in a run -/

/-- A pass reads the number before which the lexer is: it comes to an end, and an integer is read as what it is. -/
def ReadsNumber (strtod : Strtod) (fuel : Nat) (lX : Lexer) (text : List U8) : Prop :=
  ∃ pass lX', Returns (round strtod fuel) lX pass lX' ∧
    ∀ ds, integerDigits? text = some ds → ReadsInteger (digitsValue (integerBase text) ds) lX pass lX'

end LexM

open LexM

/-- The numbers that the lexer reads: it has to be before them without `ERANGE` in `errno`, and they have to fit in `conv`. -/
theorem Lexer.run_numbers {strtod : Strtod} {src text lead : List U8} {lX : Lexer} {fuel : Nat} (h : Visits strtod src lX)
    (hnext : lX.next.kind = .tokCOUNT) (hleft : lX.left = lead ++ text) (hlead : ∀ c ∈ lead, isSpace c ∧ c ≠ chr '\n')
    (hstart : StartsNumber text) (hfuel : src.length < fuel) :
    ReadsNumber strtod fuel lX text ↔
      (∀ ds, integerDigits? text = some ds → ds.length ≤ 39 ∧ (digitsValue (integerBase text) ds < 2 ^ 64 → lX.erange = false)) ∧
        ∀ n, floating? text = some n → n < 1084 := by
  have hs := h.inStep
  obtain ⟨t, ht⟩ : ∃ t, lX.advance lead.length = t := ⟨_, rfl⟩
  have hts : InStep src t := ht ▸ hs.advance _
  have htext : t.left = text := by rw [← ht, left_advance, hleft, List.drop_left]
  have hround := @round_number _ _ _ _ strtod _ hs hnext hleft hlead hstart hfuel
  rw [ht] at hround
  cases hds : integerDigits? text with
  | some ds =>
    have hfloat : floating? text = none := by rw [floating?, pointAt?_of_integer hds, Option.bind_none]
    have hiff := @integer_iff _ _ _ (emptyToken lX) ds strtod hts hfuel (htext ▸ hstart) (htext ▸ hds)
    have herrors : t.log = lX.log := by rw [← ht]; rfl
    have herange : t.erange = lX.erange := by rw [← ht]; rfl
    rw [htext, herange] at hiff
    simp only [ReadsNumber, hds, Option.some.injEq, forall_eq', hfloat, reduceCtorEq, false_implies, implies_true, and_true]
    rw [← hiff]
    simp only [ReadsInteger, herrors]
    constructor
    · rintro ⟨pass, lX', hr, hreads⟩
      obtain ⟨r, hnum, rfl⟩ := (hround ..).mp hr
      exact ⟨r, lX', hnum, hreads⟩
    · rintro ⟨r, lX', hnum, hreads⟩
      exact ⟨toPass r, lX', (hround ..).mpr ⟨r, hnum, rfl⟩, hreads⟩
  | none =>
    have hreturns : ReadsNumber strtod fuel lX text ↔ ∃ r lX', Returns (tokNumber strtod (emptyToken lX) fuel) t r lX' := by
      constructor
      · rintro ⟨pass, lX', hr, -⟩
        obtain ⟨r, hnum, -⟩ := (hround ..).mp hr
        exact ⟨r, lX', hnum⟩
      · rintro ⟨r, lX', hnum⟩
        exact ⟨toPass r, lX', (hround ..).mpr ⟨r, hnum, rfl⟩, fun ds h => by rw [hds] at h; cases h⟩
    simp only [reduceCtorEq, false_implies, implies_true, true_and]
    rw [hreturns]
    cases hpoint : pointAt? text with
    | some n =>
      rw [floating_iff hts hfuel (htext ▸ hpoint), htext]
    | none =>
      have hfloat : floating? text = none := by rw [floating?, hpoint, Option.bind_none]
      rw [hfloat]
      exact iff_of_true ((converts_number hts hfuel).neither (htext ▸ hds) (htext ▸ hpoint)) nofun

theorem Lexer.run_numbers_two : ReadsNumber (fun _ => ⟨0, false, 0⟩) 8 (init {} false (ascii [' ', '4', '2'])) (ascii ['4', '2']) := by
  refine (@Lexer.run_numbers _ _ _ [chr ' '] _ _ (.init {} false) rfl rfl ?_ (.inl (by decide)) (by decide)).mpr ⟨?_, ?_⟩
  · decide
  · rintro ds hds
    obtain rfl : ascii ['4', '2'] = ds := Option.some.inj hds
    exact ⟨by decide, fun _ => rfl⟩
  · rintro n hn
    cases hn

/-- `2 ^ 64`, and a number that could be read. -/
def pastRange : List U8 := ascii "18446744073709551616 1".toList

/-- After a number that is out of range no number is read, and one of forty digits fails an assertion. -/
theorem Lexer.errno_not_reset : (∃ lX, Visits (fun _ => ⟨0, false, 0⟩) pastRange lX ∧ lX.next.kind = .tokCOUNT ∧
    lX.left = ascii [' ', '1'] ∧ ¬ReadsNumber (fun _ => ⟨0, false, 0⟩) 32 lX (ascii ['1'])) ∧
    ¬ReadsNumber (fun _ => ⟨0, false, 0⟩) 64 (init {} false (List.replicate 40 (chr '0'))) (List.replicate 40 (chr '0')) := by
  constructor
  · obtain ⟨pass, lX, hr, hp⟩ := Prog.exists_of_passes (m := round (fun _ => ⟨0, false, 0⟩) 32) (s := init {} false pastRange)
      (p := fun _ lX => lX.next.kind = .tokCOUNT ∧ lX.left = ascii [' ', '1'] ∧
        Prog.passes (fun pass _ => isAgain pass) (round (fun _ => ⟨0, false, 0⟩) 32) lX) (by decide +kernel)
    obtain ⟨hnext, hleft, hagain⟩ := of_decide_eq_true hp
    refine ⟨lX, .round (.init {} false) hr, hnext, hleft, ?_⟩
    rintro ⟨pass', lX', hr', hreads⟩
    obtain ⟨pass'', lX'', hr'', hp''⟩ := Prog.exists_of_passes hagain
    obtain ⟨rfl, -⟩ := hr'.unique hr''
    obtain ⟨tok, rfl, -⟩ := hreads (ascii ['1']) rfl
    cases hp''
  · rintro ⟨pass, lX, hr, -⟩
    have hstop : Prog.Ends (· = .assertion) (fun _ _ => False) (round (fun _ => ⟨0, false, 0⟩) 64)
      (init {} false (List.replicate 40 (chr '0'))) := (rfl : LexStop.assertion = .assertion)
    exact hstop.of_returns hr

end Cyntatic
