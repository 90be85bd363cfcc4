import Cyntatic.Theorems.LexerText

/-! # Escapes

How long an escaped character is and which one it stands for, read off the text that is left of the source. -/

namespace Cyntatic
open Library Prog

namespace Lexer
variable {lX lX' lX'' : Lexer} {src : List U8} {m n : Nat}

/-! ### Moving forward -/

theorem InStep.length_left (h : InStep src lX) : lX.idx + lX.left.length = src.length := by
  have := h.idx_le
  rw [left, List.length_drop, h.src_eq]
  omega

theorem InStep.advance_zero (h : InStep src lX) : lX.advance 0 = lX := Lexer.advance_zero (h.src_eq ▸ h.idx_le)

theorem InStep.idx_advance (h : InStep src lX) (hn : n ≤ lX.left.length) : (lX.advance n).idx = lX.idx + n := by
  have := h.length_left
  simp only [Lexer.advance, h.src_eq]
  omega

/-- The lexer moves forward, and only adds to the log besides. -/
structure Skips (lX : Lexer) (n : Nat) (lX' : Lexer) : Prop where
  eq : lX' = { lX.advance n with log := lX'.log }

theorem skips_advance (lX : Lexer) (n : Nat) : Skips lX n (lX.advance n) := ⟨rfl⟩

theorem InStep.skips_zero (h : InStep src lX) : Skips lX 0 lX := ⟨by rw [h.advance_zero]⟩

theorem Skips.left (h : Skips lX n lX') : lX'.left = lX.left.drop n := by
  rw [h.eq]
  exact lX.left_advance n

theorem Skips.inStrExpr (h : Skips lX n lX') : lX'.inStrExpr = lX.inStrExpr := by
  rw [h.eq]
  rfl

theorem Skips.trans (h : Skips lX m lX') (h' : Skips lX' n lX'') : Skips lX (m + n) lX'' := by
  constructor
  conv_lhs => rw [h'.eq, h.eq]
  rw [← advance_advance]
  rfl

theorem Skips.inStep (h : Skips lX n lX') (hs : InStep src lX) : InStep src lX' := by
  have hadv := hs.advance n
  rw [h.eq]
  exact ⟨hadv.src_eq, hadv.idx_le, hadv.pos_eq, hadv.next⟩

theorem Skips.le (h : Skips lX n lX') (hs : InStep src lX) : lX.idx ≤ lX'.idx := by
  have := hs.idx_le
  rw [h.eq]
  simp only [Lexer.advance, hs.src_eq]
  omega

theorem Skips.idx (h : Skips lX n lX') (hs : InStep src lX) (hn : n ≤ lX.left.length) : lX'.idx = lX.idx + n := by
  rw [h.eq]
  exact hs.idx_advance hn

end Lexer

/-! ### What an escape stands for -/

/-- A number in hexadecimal digits, behind the digits of `r`. -/
def hexValue (r : U32) (digits : List U8) : U32 :=
  digits.foldl (fun r c => r <<< 4 ||| ((hexDigit? c).getD 0).setWidth 32) r

/-- The digits after `\u` or `\U`: the first character after the letter is skipped. -/
def universal? (len : Nat) (r : U32) (text : List U8) : Option (U32 × Nat) :=
  let digits := (text.drop 1).take len
  if digits.length = len ∧ digits.all isXDigit ∧ isUcn (hexValue r digits) then some (hexValue r digits, len) else none

/-- Up to three octal digits, of which `c` is the first. -/
def octalEscape (c : U8) (text : List U8) : U32 × Nat :=
  let r := (c - chr '0').setWidth 32
  let c := text.headD eofChar
  let cc := text.getD 1 eofChar
  if !isOct c then (r, 0)
  else if !isOct cc then (r <<< 3 ||| (c - chr '0').setWidth 32, 1)
  else ((r <<< 3 ||| (c - chr '0').setWidth 32) <<< 3 ||| (cc - chr '0').setWidth 32, 2)

/-- The hexadecimal digits after `\x`. -/
def hexEscape? (text : List U8) : Option (U32 × Nat) :=
  let digits := text.takeWhile isXDigit
  if digits = [] then none else some (hexValue 0 digits, digits.length)

/-- The character after a backslash and its length, unless the lexer aborts. -/
def escape? (inStr : Bool) (text : List U8) : Option (U32 × Nat) :=
  let c := text.headD eofChar
  if c = chr '\n' ∧ inStr then some (0x0A, 1)
  else
    match LexM.simpleEscape? c with
    | some r => some (r.setWidth 32, 1)
    | none =>
      if c = chr 'x' then (hexEscape? (text.drop 1)).map fun r => (r.1, 1 + r.2)
      else if c = chr 'u' then (universal? 4 0 (text.drop 1)).map fun r => (r.1, 1 + r.2)
      else if c = chr 'U' then (universal? 8 0 (text.drop 1)).map fun r => (r.1, 1 + r.2)
      else if isOct c then some ((octalEscape c (text.drop 1)).1, 1 + (octalEscape c (text.drop 1)).2)
      else some (c.signExtend 32, 1)

namespace LexM
open Lexer
variable {lX : Lexer} {src : List U8} {fuel start n : Nat} {x : Option (U32 × Nat)} {m : LexM U32}

/-- An escape is read as `x` says: the lexer aborts if there is none. -/
def Escapes (x : Option (U32 × Nat)) (m : LexM U32) (lX : Lexer) : Prop :=
  Ends (fun e => e = .abort ∧ x = none) (fun v lX' => ∃ n, x = some (v, n) ∧ Skips lX n lX') m lX

theorem escapes_pure (h : InStep src lX) (v : U32) : Escapes (some (v, 0)) (pure v) lX := ends_pure.mpr ⟨0, rfl, h.skips_zero⟩

theorem escapes_fail {range : Range} {fmt : String} {args : List DiagnosticArg} : Escapes none (fail range fmt args) lX :=
  ends_bind.mpr (ends_modify.mpr (ends_stop.mpr ⟨rfl, rfl⟩))

theorem Escapes.returns {v : U32} (h : Escapes (some (v, n)) m lX) : ∃ lX', Returns m lX v lX' ∧ Skips lX n lX' := by
  unfold Escapes Ends at h
  rcases hm : (m lX).2 with ⟨v', t⟩ | ⟨e, t⟩
  · rw [hm] at h
    obtain ⟨k, heq, hskip⟩ := h
    obtain ⟨rfl, rfl⟩ := Prod.mk.inj (Option.some.inj heq)
    exact ⟨t, hm, hskip⟩
  · rw [hm] at h
    cases h.2

theorem escapes_get {f : Lexer → LexM U32} (h : Escapes x (f lX) lX) : Escapes x (get >>= f) lX := h

theorem escapes_peek {f : U8 → LexM U32} (h : Escapes x (f (lX.peek n)) lX) : Escapes x (peek n >>= f) lX := h

/-- An escape behind some characters. -/
theorem Escapes.behind (h : Escapes x m (lX.advance n)) :
    Ends (fun e => e = .abort ∧ (x.map fun r => (r.1, n + r.2)) = none)
      (fun v lX' => ∃ k, (x.map fun r => (r.1, n + r.2)) = some (v, k) ∧ Skips lX k lX') m (lX.advance n) := by
  refine h.imp ?_ ?_
  · rintro e ⟨he, rfl⟩
    exact ⟨he, rfl⟩
  · rintro v lX' ⟨k, rfl, hskip⟩
    exact ⟨n + k, rfl, (skips_advance lX n).trans hskip⟩

theorem escapes_advance {f : Nat → LexM U32} (h : Escapes x (f lX.idx) (lX.advance n)) :
    Escapes (x.map fun r => (r.1, n + r.2)) (advance n >>= f) lX :=
  ends_bind_of_returns (returns_advance.mpr ⟨rfl, rfl⟩) h.behind

theorem universal?_zero (r : U32) (text : List U8) : universal? 0 r text = if isUcn r then some (r, 0) else none := by
  unfold universal?
  rw [List.take_zero]
  change (if 0 = 0 ∧ true = true ∧ isUcn r = true then some (r, 0) else none) = _
  simp only [true_and]

theorem universal?_succ (len : Nat) (r : U32) (text : List U8) : universal? (len + 1) r text =
    (hexDigit? (text.getD 1 eofChar)).bind fun d =>
      (universal? len (r <<< 4 ||| d.setWidth 32) (text.drop 1)).map fun x => (x.1, 1 + x.2) := by
  have heof : hexDigit? eofChar = none := by decide
  rcases text with _ | ⟨c, _ | ⟨c, rest⟩⟩
  · simp [universal?, heof]
  · simp [universal?, heof]
  · change (if _ then _ else _) = (hexDigit? c).bind _
    cases hd : hexDigit? c with
    | none =>
      refine if_neg fun hand => ?_
      have hx := List.all_eq_true.mp hand.2.1 c List.mem_cons_self
      rw [isXDigit, hd] at hx
      cases hx
    | some d =>
      have hval : ∀ digits, hexValue r (c :: digits) = hexValue (r <<< 4 ||| d.setWidth 32) digits := by
        intro digits
        rw [hexValue, List.foldl_cons, hd]
        rfl
      have hx : isXDigit c = true := by rw [isXDigit, hd]; rfl
      simp only [universal?, List.drop_succ_cons, List.drop_zero, List.take_succ_cons, List.length_cons, List.all_cons, hx,
        hval, Bool.true_and, Nat.add_right_cancel_iff, Option.bind_some]
      split
      · rw [Option.map_some, Nat.add_comm]
      · rfl

theorem escapes_universalChar (len : Nat) (r : U32) (h : InStep src lX) :
    Escapes (universal? len r lX.left) (universalChar start len r) lX := by
  induction len generalizing r lX with
  | zero =>
    refine escapes_get ?_
    rw [universal?_zero]
    split
    · exact escapes_pure h r
    · exact escapes_fail
  | succ len ih =>
    refine escapes_peek ?_
    rw [universal?_succ, peek_eq]
    cases hexDigit? (lX.left.getD 1 eofChar) with
    | some d =>
      refine escapes_advance ?_
      rw [← left_advance]
      exact ih _ (h.advance 1)
    | none => exact escapes_advance (x := none) (escapes_get escapes_fail)

theorem escapes_tokOctalChar (c : U8) (h : InStep src lX) : Escapes (some (octalEscape c lX.left)) (tokOctalChar c) lX := by
  refine escapes_peek ?_
  rw [peek_zero]
  cases hoct : isOct (lX.left.headD eofChar) with
  | false =>
    have heq : octalEscape c lX.left = ((c - chr '0').setWidth 32, 0) := by
      simp only [octalEscape, hoct, Bool.not_false, if_true]
    rw [heq]
    exact escapes_pure h _
  | true =>
    have hhead : (lX.advance 1).peek 0 = lX.left.getD 1 eofChar := by
      rw [peek_zero, left_advance]
      rcases lX.left with _ | ⟨_, _ | ⟨_, _⟩⟩ <;> rfl
    have h' := h.advance 1
    cases hoct' : isOct (lX.left.getD 1 eofChar) with
    | false =>
      have heq : octalEscape c lX.left =
          ((c - chr '0').setWidth 32 <<< 3 ||| (lX.left.headD eofChar - chr '0').setWidth 32, 1 + 0) := by
        simp only [octalEscape, hoct, hoct', Bool.not_false, Bool.not_true, if_true, if_false, Bool.false_eq_true]
      rw [heq]
      refine escapes_advance (x := some (_, 0)) ?_
      refine escapes_peek ?_
      rw [hhead, hoct']
      exact escapes_pure h' _
    | true =>
      have heq : octalEscape c lX.left =
          (((c - chr '0').setWidth 32 <<< 3 ||| (lX.left.headD eofChar - chr '0').setWidth 32) <<< 3 |||
            (lX.left.getD 1 eofChar - chr '0').setWidth 32, 1 + (1 + 0)) := by
        simp only [octalEscape, hoct, hoct', Bool.not_true, if_false, Bool.false_eq_true]
      rw [heq]
      refine escapes_advance (x := some (_, 1 + 0)) ?_
      refine escapes_peek ?_
      rw [hhead, hoct']
      refine escapes_advance (x := some (_, 0)) ?_
      exact escapes_pure (h'.advance 1) _

/-- The loop over hexadecimal digits. -/
theorem escapes_hexLoop (h : InStep src lX) (r : U32) (hfuel : lX.left.length < fuel) :
    Escapes (some (hexValue r (lX.left.takeWhile isXDigit), (lX.left.takeWhile isXDigit).length))
      (iterate .fuel (fun r => do
        let c ← peek 0
        if c = eofChar then return .done r
        else
          match hexDigit? c with
          | none => return .done r
          | some d => do
            let _ ← advance 1
            return .again (r <<< 4 ||| d.setWidth 32)) fuel r) lX := by
  induction fuel generalizing lX r with
  | zero => omega
  | succ fuel ih =>
    cases hd : hexDigit? (lX.left.headD eofChar) with
    | none =>
      have hnil : lX.left.takeWhile isXDigit = [] := by
        rcases hleft : lX.left with _ | ⟨c, text⟩
        · rfl
        · rw [hleft, List.headD_cons] at hd
          rw [List.takeWhile_cons, isXDigit, hd]
          rfl
      rw [hnil]
      refine ends_iterate_done (a := r) (returns_bind.mpr ⟨_, _, returns_peek.mpr ⟨rfl, rfl⟩, ?_⟩) ⟨0, rfl, h.skips_zero⟩
      rw [peek_zero, hd]
      split <;> exact returns_pure.mpr ⟨rfl, rfl⟩
    | some d =>
      have hne : lX.left.headD eofChar ≠ eofChar := fun heq => by rw [heq] at hd; cases hd
      have hleft : lX.left = lX.left.headD eofChar :: (lX.advance 1).left := by
        rw [left_advance]
        rcases hcases : lX.left with _ | ⟨c, text⟩
        · rw [hcases] at hne
          exact absurd rfl hne
        · rfl
      have htake : lX.left.takeWhile isXDigit = lX.left.headD eofChar :: (lX.advance 1).left.takeWhile isXDigit := by
        conv_lhs => rw [hleft]
        rw [List.takeWhile_cons, isXDigit, hd]
        rfl
      have hlen := congrArg List.length hleft
      rw [List.length_cons] at hlen
      have hrest := (ih (h.advance 1) (r <<< 4 ||| d.setWidth 32) (by omega)).behind
      rw [Option.map_some, Nat.add_comm] at hrest
      rw [htake, hexValue, List.foldl_cons, hd, List.length_cons]
      refine ends_iterate_again (returns_bind.mpr ⟨_, _, returns_peek.mpr ⟨rfl, rfl⟩, ?_⟩) hrest
      rw [peek_zero, if_neg hne, hd]
      exact returns_bind.mpr ⟨_, _, returns_advance.mpr ⟨rfl, rfl⟩, returns_pure.mpr ⟨rfl, rfl⟩⟩

theorem escapes_tokHexChar (h : InStep src lX) (hfuel : src.length < fuel) : Escapes (hexEscape? lX.left) (tokHexChar fuel) lX := by
  refine escapes_get ?_
  have hlen := h.length_left
  rw [peek_zero]
  unfold hexEscape?
  dsimp only
  cases hx : isXDigit (lX.left.headD eofChar) with
  | false =>
    have hnil : lX.left.takeWhile isXDigit = [] := by
      rcases hleft : lX.left with _ | ⟨c, text⟩
      · rfl
      · rw [hleft, List.headD_cons] at hx
        rw [List.takeWhile_cons, hx]
        rfl
    rw [if_pos hnil]
    exact escapes_fail
  | true =>
    have hne : lX.left.takeWhile isXDigit ≠ [] := by
      rcases hleft : lX.left with _ | ⟨c, text⟩
      · rw [hleft] at hx
        cases hx
      · rw [hleft, List.headD_cons] at hx
        rw [List.takeWhile_cons, hx]
        exact List.cons_ne_nil _ _
    rw [if_neg hne]
    exact escapes_hexLoop h 0 (by omega)

theorem escapes_tokEscapedChar (inStr : Bool) (h : InStep src lX) (hfuel : src.length < fuel) :
    Escapes (escape? inStr lX.left) (tokEscapedChar inStr fuel) lX := by
  have h' := h.advance 1
  refine escapes_get ?_
  rw [peek_zero]
  unfold escape?
  dsimp only
  rw [← left_advance]
  by_cases hnl : lX.left.headD eofChar = chr '\n' ∧ inStr = true
  · simp only [if_pos hnl]
    exact escapes_advance (x := some (_, 0)) (escapes_pure h' _)
  simp only [if_neg hnl]
  cases hr : simpleEscape? (lX.left.headD eofChar) with
  | some r => exact escapes_advance (x := some (_, 0)) (escapes_pure h' _)
  | none =>
    dsimp only
    split
    · exact escapes_advance (escapes_tokHexChar h' hfuel)
    · split
      · exact escapes_advance (escapes_get (escapes_universalChar 4 0 h'))
      · split
        · exact escapes_advance (escapes_get (escapes_universalChar 8 0 h'))
        · split
          · exact escapes_advance (x := some (_, _)) (escapes_tokOctalChar _ h')
          · exact escapes_advance (x := some (_, 0)) <|
              ends_bind.mpr (ends_modify.mpr (ends_pure.mpr ⟨0, rfl, ⟨by rw [h'.advance_zero]⟩⟩))

end LexM

end Cyntatic
