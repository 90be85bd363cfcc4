import Cyntatic.Theorems.LexerEscapes

/-! # How a token ends

With passes enough for the source, the lexer reads every token to its end or aborts, but for four kinds of literals: a
character literal of a wide character with no quote behind it, one that ends inside a character, a number with too many
digits, and a string with an escape past the code points. -/

namespace Cyntatic
open Library Prog

namespace LexM
open Lexer

/-- The lexer aborts. -/
def Regular (e : LexStop) : Prop := e = .abort

/-- More characters of a number than `conv` has room for. -/
def PastConv (e : LexStop) : Prop := e = .overflow

/-- From an index on, a computation moves forward, and ends. -/
def Steady {α : Type} (E : LexStop → Prop) (src : List U8) (lo : Nat) (m : LexM α) : Prop :=
  ∀ lX, InStep src lX → lo ≤ lX.idx → Ends E (fun _ lX' => InStep src lX' ∧ lX.idx ≤ lX'.idx) m lX

variable {α β : Type} {E : LexStop → Prop} {src : List U8} {lo n fuel start stop : Nat} {m : LexM α} {f : α → LexM β} {a : α} {lX : Lexer}
  {p : U8 → Bool} {range : Range} {fmt : String} {args : List DiagnosticArg} {tok : Token} {kind : TokenKind} {pos : LineColumn}

/-! ### Rules -/

theorem steady_of_ends (hm : Forward m) (h : ∀ lX, InStep src lX → lo ≤ lX.idx → Ends E (fun _ _ => True) m lX) :
    Steady E src lo m :=
  fun lX hs hlo => (h lX hs hlo).iff_returns.mpr fun _ _ hr => hm.of_returns hr src hs

theorem Steady.mono {lo' : Nat} (h : Steady E src lo m) (hle : lo ≤ lo') : Steady E src lo' m :=
  fun lX hs hlo => h lX hs (Nat.le_trans hle hlo)

theorem Steady.ends (hs : InStep src lX) (hlo : lo ≤ lX.idx) (h : Steady E src lo m) :
    Ends E (fun _ lX' => InStep src lX' ∧ lo ≤ lX'.idx) m lX :=
  (h lX hs hlo).mono fun _ _ h' => ⟨h'.1, Nat.le_trans hlo h'.2⟩

theorem steady_pure : Steady E src lo (pure a) := fun _ hs _ => ends_pure.mpr ⟨hs, Nat.le_refl _⟩

theorem steady_bind (hm : Steady E src lo m) (hf : ∀ a, Steady E src lo (f a)) : Steady E src lo (m >>= f) := by
  refine fun lX hs hlo => ends_bind.mpr ((hm lX hs hlo).mono fun a lX' h => ?_)
  exact (hf a lX' h.1 (Nat.le_trans hlo h.2)).mono fun b lX'' h' => ⟨h'.1, Nat.le_trans h.2 h'.2⟩

/-- What follows may depend on where the lexer is. -/
theorem steady_get {f : Lexer → LexM β} (h : ∀ lX, InStep src lX → lo ≤ lX.idx → Steady E src lX.idx (f lX)) :
    Steady E src lo (get >>= f) :=
  fun lX hs hlo => ends_bind.mpr (ends_get.mpr (h lX hs hlo lX hs (Nat.le_refl _)))

theorem steady_ite {c : Prop} [Decidable c] {m' : LexM α} (hm : Steady E src lo m) (hm' : Steady E src lo m') :
    Steady E src lo (if c then m else m') := by
  split
  · exact hm
  · exact hm'

theorem steady_modify {g : Lexer → Lexer} (h : ∀ lX, InStep src lX → InStep src (g lX) ∧ lX.idx ≤ (g lX).idx) :
    Steady E src lo (modify g) := fun lX hs _ => ends_modify.mpr (h lX hs)

theorem steady_stopIf {c : Prop} [Decidable c] {e : LexStop} (he : E e) : Steady E src lo (stopIf c e : LexM Unit) :=
  fun _ hs _ => ends_stopIf (fun _ => he) fun _ => ⟨hs, Nat.le_refl _⟩

/-- A loop whose passes go forward ends. -/
theorem steady_iterate {body : β → LexM (Pass β α)} {b : β} (hfuel : src.length < fuel)
    (hbody : ∀ b lX, InStep src lX → lo ≤ lX.idx → Ends E (fun x lX' => InStep src lX' ∧ lX.idx ≤ lX'.idx ∧
      x.Ensures (fun _ => lX.idx < lX'.idx) fun _ => True) (body b) lX) : Steady E src lo (iterate .fuel body fuel b) := by
  intro lX hs hlo
  refine ends_iterate (I := fun _ t => InStep src t ∧ lX.idx ≤ t.idx) (fun _ t => src.length - t.idx) ?_ ⟨hs, Nat.le_refl _⟩ (by omega)
  rintro b t ⟨ht, hle⟩
  refine (hbody b t ht (Nat.le_trans hlo hle)).mono fun x u hx => ?_
  obtain ⟨hu, hle', hpass⟩ := hx
  have hidx := hu.idx_le
  cases x with
  | again b' =>
    have hlt : t.idx < u.idx := hpass
    exact ⟨⟨hu, Nat.le_trans hle hle'⟩, by omega⟩
  | done a => exact ⟨hu, Nat.le_trans hle hle'⟩

/-! ### Steps -/

theorem steady_peek : Steady E src lo (peek n) := fun _ hs _ => ends_of_returns (returns_peek.mpr ⟨rfl, rfl⟩) ⟨hs, Nat.le_refl _⟩

theorem steady_advance : Steady E src lo (advance n) := fun lX hs _ =>
  ends_of_returns (returns_advance.mpr ⟨rfl, rfl⟩) ⟨hs.advance n, (skips_advance lX n).le hs⟩

/-- What follows may depend on the index before the characters. -/
theorem steady_advance_bind {f : Nat → LexM β} (h : ∀ i, lo ≤ i → Steady E src i (f i)) : Steady E src lo (advance n >>= f) := by
  refine fun lX hs hlo => ends_bind_of_returns (returns_advance.mpr ⟨rfl, rfl⟩) ?_
  have hle := (skips_advance lX n).le hs
  exact (h lX.idx hlo _ (hs.advance n) hle).mono fun b lX' h' => ⟨h'.1, Nat.le_trans hle h'.2⟩

theorem steady_error : Steady E src lo (error range fmt args) :=
  steady_modify fun _ h => ⟨⟨h.src_eq, h.idx_le, h.pos_eq, h.next⟩, Nat.le_refl _⟩

theorem steady_fail : Steady Regular src lo (fail range fmt args : LexM α) :=
  fun _ _ _ => ends_bind.mpr (ends_modify.mpr (ends_stop.mpr rfl))

theorem steady_advanceIf {c : Prop} [Decidable c] : Steady E src lo (advanceIf c) :=
  steady_ite (steady_bind steady_advance fun _ => steady_pure) steady_pure

theorem steady_updateToken (h : start ≤ stop) : Steady E src lo (updateToken tok kind start stop pos) :=
  fun _ hs _ => ends_of_returns (returns_updateToken.mpr ⟨h, rfl, rfl⟩) ⟨hs, Nat.le_refl _⟩

theorem lt_length_of_peek (h : lX.peek n ≠ eofChar) : n < lX.left.length := by
  by_contra hge
  refine h ?_
  rw [peek_eq, List.getD_eq_getElem?_getD, List.getElem?_eq_none (by omega)]
  rfl

theorem lt_of_peek (hs : InStep src lX) (h : lX.peek 0 ≠ eofChar) : lX.idx < src.length := by
  have := lt_length_of_peek h
  have := hs.length_left
  omega

theorem lt_advance (hs : InStep src lX) (h : lX.idx < src.length) (hn : 0 < n) : lX.idx < (lX.advance n).idx := by
  simp only [Lexer.advance, hs.src_eq]
  omega

theorem steady_eatWhile (hfuel : src.length < fuel) : Steady E src lo (eatWhile p fuel) := by
  refine steady_iterate hfuel fun _ lX hs _ => ends_bind.mpr (ends_get.mpr ?_)
  split
  · rename_i hc
    have hstep := hs.step hc.1
    exact ends_bind.mpr (ends_modify.mpr (ends_pure.mpr ⟨hstep, Nat.le_succ _, Nat.lt_succ_self _⟩))
  · exact ends_pure.mpr ⟨hs, Nat.le_refl _, trivial⟩

/-! ### What goes wrong -/

/-- A computation stops for the reasons of `fault`, and if there are none it ends at an index from `lo` on. -/
structure Concludes {α : Type} (E : LexStop → Prop) (src : List U8) (lo : Nat) (fault : LexStop → Prop) (m : LexM α) (lX : Lexer) : Prop where
  fails : ∀ e, fault e → Ends (· = e) (fun _ _ => False) m lX
  ends : (∀ e, ¬fault e) → Ends E (fun _ lX' => InStep src lX' ∧ lo ≤ lX'.idx) m lX

variable {fault fault' : LexStop → Prop} {lX' : Lexer}

theorem Concludes.congr (h : Concludes E src lo fault m lX) (hiff : ∀ e, fault' e ↔ fault e) : Concludes E src lo fault' m lX where
  fails e he := h.fails e ((hiff e).mp he)
  ends hno := h.ends fun e he => hno e ((hiff e).mpr he)

theorem Concludes.mono {lo' : Nat} (h : Concludes E src lo' fault m lX) (hle : lo ≤ lo') : Concludes E src lo fault m lX where
  fails := h.fails
  ends hno := (h.ends hno).mono fun _ _ h' => ⟨h'.1, Nat.le_trans hle h'.2⟩

theorem concludes_of_ends (hno : ∀ e, ¬fault e) (h : Ends E (fun _ lX' => InStep src lX' ∧ lo ≤ lX'.idx) m lX) :
    Concludes E src lo fault m lX := ⟨fun e he => absurd he (hno e), fun _ => h⟩

theorem concludes_of_steady (hno : ∀ e, ¬fault e) (h : Steady E src lo m) (hs : InStep src lX) (hlo : lo ≤ lX.idx) :
    Concludes E src lo fault m lX :=
  concludes_of_ends hno (h.ends hs hlo)

/-- An assertion, and then the rest. -/
theorem concludes_stopIf {c : Prop} [Decidable c] {e : LexStop} {f : Unit → LexM α} (hc : c → ∀ e', fault e' ↔ e' = e)
    (hf : ¬c → Concludes E src lo fault (f ()) lX) : Concludes E src lo fault (stopIf c e >>= f) lX := by
  by_cases h : c
  · refine ⟨fun e' he' => ?_, fun hno => absurd ((hc h e).mpr rfl) (hno e)⟩
    rw [stopIf, if_pos h]
    exact ends_bind.mpr (ends_stop.mpr ((hc h e').mp he').symm)
  · rw [stopIf, if_neg h]
    exact hf h

/-- A step that returns, and then the rest. -/
theorem concludes_bind (hr : Returns m lX a lX') (h : Concludes E src lo fault (f a) lX') : Concludes E src lo fault (m >>= f) lX :=
  ⟨fun e he => ends_bind_of_returns hr (h.fails e he), fun hno => ends_bind_of_returns hr (h.ends hno)⟩

theorem Concludes.bind (h : Concludes E src lo fault m lX) (hf : ∀ a, Steady E src lo (f a)) :
    Concludes E src lo fault (m >>= f) lX where
  fails e he := ends_bind.mpr ((h.fails e he).mono fun _ _ hfalse => hfalse.elim)
  ends hno := ends_bind.mpr ((h.ends hno).mono fun a t ht =>
    (hf a t ht.1 ht.2).mono fun _ _ h' => ⟨h'.1, Nat.le_trans ht.2 h'.2⟩)

/-- A check that aborts, and then the rest. -/
theorem concludes_failIf {c : Prop} [Decidable c] {f : Unit → LexM α} (hc : c → ∀ e, ¬fault e)
    (hf : ¬c → Concludes Regular src lo fault (f ()) lX) : Concludes Regular src lo fault (failIf c range fmt args >>= f) lX := by
  by_cases h : c
  · rw [failIf, if_pos h]
    exact concludes_of_ends (hc h) (ends_bind.mpr (ends_bind.mpr (ends_modify.mpr (ends_stop.mpr rfl))))
  · rw [failIf, if_neg h]
    exact hf h

/-! ### Numbers -/

theorem steady_setNumber {text : List U8} {r : Strto} (h : start ≤ lo) : Steady E src lo (setNumber tok kind start pos text r fmt) :=
  steady_bind (steady_modify fun _ hs => ⟨⟨hs.src_eq, hs.idx_le, hs.pos_eq, hs.next⟩, Nat.le_refl _⟩) fun _ =>
    steady_get fun _ _ hlo => steady_ite
      (steady_bind steady_error fun _ => steady_pure)
      (steady_updateToken (Nat.le_trans h hlo))

/-- Faults that fail an assertion. -/
def Asserts (P : Prop) (e : LexStop) : Prop := e = .assertion ∧ P

theorem asserts_iff {P : Prop} (h : P) (e : LexStop) : Asserts P e ↔ e = .assertion := and_iff_left h

theorem not_asserts {P : Prop} (h : ¬P) (e : LexStop) : ¬Asserts P e := fun he => h he.2

theorem concludes_parseInteger {base : Nat} (hs : InStep src lX) (hstart : start ≤ lX.idx) :
    Concludes E src lX.idx (Asserts (39 < lX.idx - if base = 16 ∨ base = 2 then start + 2 else start))
      (parseInteger tok start pos base) lX :=
  concludes_bind (returns_get.mpr ⟨rfl, rfl⟩) <| concludes_stopIf asserts_iff fun h =>
    concludes_of_steady (not_asserts h) (steady_setNumber hstart) hs (Nat.le_refl _)

/-- The characters at which a floating point number goes on. -/
def isPoint (c : U8) : Prop := toUpper c = chr '.' ∨ toUpper c = chr 'E' ∨ toUpper c = chr 'P'

theorem ends_tokFloatingPoint {strtod : Strtod} (hs : InStep src lX) (hstart : start ≤ lX.idx) (hc : isPoint (lX.peek 0))
    (hfuel : src.length < fuel) :
    Ends PastConv (fun _ lX' => InStep src lX' ∧ lX.idx < lX'.idx) (tokFloatingPoint strtod tok start pos fuel) lX := by
  have hlt : lX.idx < src.length := by
    refine lt_of_peek hs fun heq => ?_
    rw [heq] at hc
    exact absurd hc (by unfold isPoint; decide)
  have hlt' := lt_advance hs hlt Nat.one_pos
  refine ends_bind_of_returns (returns_peek.mpr ⟨rfl, rfl⟩) (ends_bind.mpr (ends_stopIf ?_ fun _ => ?_))
  · rintro ⟨h1, h2, h3⟩
    exact absurd hc (not_or.mpr ⟨h1, not_or.mpr ⟨h2, h3⟩⟩)
  · refine ends_bind_of_returns (returns_advance.mpr ⟨rfl, rfl⟩) ?_
    refine Steady.ends (hs.advance 1) hlt' (steady_bind steady_peek fun _ => steady_bind steady_advanceIf fun _ =>
      steady_bind steady_peek fun _ => steady_ite ?_ ?_)
    · exact steady_get fun _ _ _ => steady_bind steady_error fun _ => steady_pure
    · refine steady_bind (steady_eatWhile hfuel) fun _ => steady_get fun t _ hle => steady_bind ?_ fun _ => ?_
      · exact steady_stopIf rfl
      · exact steady_setNumber (by omega)

/-- The digits of a number that are too many for `conv`. -/
def TooLong (digits : Option (List U8)) : Prop := ∃ ds, digits = some ds ∧ 39 < ds.length

theorem tooLong_some {ds : List U8} : TooLong (some ds) ↔ 39 < ds.length := by simp [TooLong]

theorem not_tooLong_none : ¬TooLong none := by simp [TooLong]

/-- The digits of a decimal number that has no point. -/
def decimalDigits? (text : List U8) : Option (List U8) :=
  let c := (text.dropWhile isDigit).headD eofChar
  if toUpper c = chr 'E' ∨ c = chr '.' then none else some (text.takeWhile isDigit)

/-- The digits of an octal number. -/
def octalDigits? (text : List U8) : Option (List U8) :=
  if isDigit ((text.dropWhile isOct).headD eofChar) then none else some (text.takeWhile isOct)

/-- The digits of a hexadecimal number that has no exponent, after `0x`. -/
def hexDigits? (text : List U8) : Option (List U8) :=
  if toUpper ((text.dropWhile isXDigit).headD eofChar) = chr 'P' then none else some (text.takeWhile isXDigit)

def isBin (c : U8) : Bool := c = chr '0' ∨ c = chr '1'

/-- The digits of a binary number, after `0b`. -/
def binaryDigits? (text : List U8) : Option (List U8) :=
  if isDigit ((text.dropWhile isBin).headD eofChar) then none else some (text.takeWhile isBin)

theorem headD_dropWhile (hp : p eofChar = false) (text : List U8) : p ((text.dropWhile p).headD eofChar) = false := by
  have hnot := List.head?_dropWhile_not p text
  rcases hdrop : text.dropWhile p with _ | ⟨c, rest⟩
  · exact hp
  · rw [hdrop] at hnot
    simpa using hnot

/-- Digits are read, and then the rest. -/
theorem concludes_advanceWhile {f : Unit → LexM β} (hs : InStep src lX) (hp : p eofChar = false) (hfuel : src.length < fuel)
    (h : ∀ t, InStep src t → t.idx = lX.idx + (lX.left.takeWhile p).length → t.left = lX.left.dropWhile p →
      Concludes E src lo fault (f ()) t) : Concludes E src lo fault (advanceWhile p fuel >>= f) lX := by
  have hlen := hs.length_left
  have htake := (List.takeWhile_prefix p (l := lX.left)).length_le
  refine concludes_bind (advanceWhile_advances (hs.src_eq ▸ hs.idx_le) (headD_dropWhile hp _) (by omega)) ?_
  refine h _ (hs.advance _) (hs.idx_advance htake) ?_
  rw [left_advance]
  exact (congrArg (List.drop _) List.takeWhile_append_dropWhile.symm).trans List.drop_left

/-- The first of the characters that are read. -/
theorem takeWhile_pos (hp : p eofChar = false) (h : p (lX.peek 0) = true) : 0 < (lX.left.takeWhile p).length := by
  rw [peek_zero] at h
  rcases hleft : lX.left with _ | ⟨c, text⟩
  · rw [hleft, List.headD_nil, hp] at h
    cases h
  · rw [hleft, List.headD_cons] at h
    rw [List.takeWhile_cons_of_pos h]
    exact Nat.succ_pos _

/-- What is read after the digits: a floating point number goes on, or an integer ends. -/
theorem concludes_digits {strtod : Strtod} {base : Nat} {c : Prop} [Decidable c] {ds : List U8} (hs : InStep src lX)
    (hfuel : src.length < fuel) (hstart : start ≤ lX.idx) (hc : c → isPoint (lX.peek 0))
    (hds : ¬c → start < lX.idx ∧ (lX.idx - if base = 16 ∨ base = 2 then start + 2 else start) = ds.length) :
    Concludes PastConv src (start + 1) (Asserts (TooLong (if c then none else some ds)))
      (if c then tokFloatingPoint strtod tok start pos fuel else parseInteger tok start pos base) lX := by
  by_cases h : c
  · rw [if_pos h, if_pos h]
    refine concludes_of_ends (not_asserts not_tooLong_none) ?_
    exact (ends_tokFloatingPoint hs hstart (hc h) hfuel).mono fun _ _ h' => ⟨h'.1, by omega⟩
  · obtain ⟨hlt, hlen⟩ := hds h
    rw [if_neg h, if_neg h, tooLong_some, ← hlen]
    exact (concludes_parseInteger hs hstart).mono hlt

theorem concludes_tokDecimalNumber {strtod : Strtod} (hs : InStep src lX) (hfuel : src.length < fuel)
    (hhead : isDigit (lX.peek 0) ∨ lX.peek 0 = chr '.') :
    Concludes PastConv src (lX.idx + 1) (Asserts (TooLong (decimalDigits? lX.left))) (tokDecimalNumber strtod tok fuel) lX := by
  refine concludes_bind (returns_get.mpr ⟨rfl, rfl⟩) (concludes_advanceWhile hs (by decide) hfuel fun t ht hidx hleft => ?_)
  refine concludes_bind (returns_peek.mpr ⟨rfl, rfl⟩) ?_
  unfold decimalDigits?
  dsimp only
  rw [← hleft, ← peek_zero]
  refine concludes_digits ht hfuel (by omega) ?_ fun hc => ?_
  · rintro (hc | hc)
    · exact .inr (.inl hc)
    · exact .inl (by rw [hc]; decide)
  · have hdigit : isDigit (lX.peek 0) = true := by
      refine hhead.resolve_right fun hdot => hc (.inr ?_)
      rw [peek_zero] at hdot ⊢
      rw [hleft]
      rcases htext : lX.left with _ | ⟨c, text⟩
      · rw [htext] at hdot
        exact absurd hdot (by decide)
      · rw [htext, List.headD_cons] at hdot
        rw [List.dropWhile_cons_of_neg (by rw [hdot]; decide)]
        exact hdot
    have hpos := takeWhile_pos (by decide) hdigit
    refine ⟨by omega, ?_⟩
    rw [if_neg (by decide), hidx]
    omega

theorem concludes_tokOctalNumber {strtod : Strtod} (hs : InStep src lX) (hfuel : src.length < fuel)
    (hhead : lX.peek 0 = chr '0') :
    Concludes PastConv src (lX.idx + 1) (Asserts (TooLong (octalDigits? lX.left))) (tokOctalNumber strtod tok fuel) lX := by
  have hpos : 0 < (lX.left.takeWhile isOct).length := takeWhile_pos (by decide) (by rw [hhead]; decide)
  refine concludes_bind (returns_get.mpr ⟨rfl, rfl⟩) (concludes_advanceWhile hs (by decide) hfuel fun t ht hidx hleft => ?_)
  refine concludes_bind (returns_peek.mpr ⟨rfl, rfl⟩) ?_
  unfold octalDigits?
  rw [← hleft, ← peek_zero]
  by_cases hd : isDigit (t.peek 0) = true
  · rw [if_pos hd, if_pos hd]
    refine concludes_advanceWhile ht (by decide) hfuel fun u hu hidx' _ => ?_
    refine concludes_bind (returns_peek.mpr ⟨rfl, rfl⟩) (concludes_of_ends (not_asserts not_tooLong_none) ?_)
    split
    · rename_i hc
      have hpoint : isPoint (u.peek 0) := by
        rcases hc with hc | hc | hc <;> rw [hc] <;> unfold isPoint <;> decide
      exact (ends_tokFloatingPoint hu (by omega) hpoint hfuel).mono fun _ _ h => ⟨h.1, by omega⟩
    · exact Steady.ends hu (by omega) (steady_get fun _ _ _ => steady_bind steady_error fun _ => steady_pure)
  · rw [if_neg hd, if_neg hd, tooLong_some]
    have hparse : Concludes PastConv src t.idx _ (parseInteger tok lX.idx lX.pos 8) t := concludes_parseInteger ht (by omega)
    rw [if_neg (by decide), hidx, Nat.add_sub_cancel_left] at hparse
    exact hparse.mono (by omega)

/-- The two characters that a number begins with. -/
theorem concludes_twoChars {f : Nat → LexM β} (hs : InStep src lX) (hlen : 2 ≤ lX.left.length)
    (h : ∀ t, InStep src t → t.idx = lX.idx + 2 → t.left = lX.left.drop 2 → Concludes E src lo fault (f lX.idx) t) :
    Concludes E src lo fault (advance 2 >>= f) lX :=
  concludes_bind (returns_advance.mpr ⟨rfl, rfl⟩) (h _ (hs.advance 2) (hs.idx_advance hlen) (left_advance lX 2))

theorem concludes_tokHexNumber {strtod : Strtod} (hs : InStep src lX) (hfuel : src.length < fuel) (hlen : 2 ≤ lX.left.length) :
    Concludes PastConv src (lX.idx + 1) (Asserts (TooLong (hexDigits? (lX.left.drop 2)))) (tokHexNumber strtod tok fuel) lX := by
  refine concludes_bind (returns_get.mpr ⟨rfl, rfl⟩) (concludes_twoChars hs hlen fun t ht hidx hleft => ?_)
  refine concludes_advanceWhile ht (by decide) hfuel fun u hu hidx' hleft' => ?_
  refine concludes_bind (returns_peek.mpr ⟨rfl, rfl⟩) ?_
  unfold hexDigits?
  rw [← hleft, ← hleft', ← peek_zero]
  refine concludes_digits hu hfuel (by omega) (fun hc => .inr (.inr hc)) fun _ => ⟨by omega, ?_⟩
  rw [if_pos (by decide)]
  omega

theorem concludes_tokBinaryNumber (hs : InStep src lX) (hfuel : src.length < fuel) (hlen : 2 ≤ lX.left.length) :
    Concludes PastConv src (lX.idx + 1) (Asserts (TooLong (binaryDigits? (lX.left.drop 2)))) (tokBinaryNumber tok fuel) lX := by
  refine concludes_bind (returns_get.mpr ⟨rfl, rfl⟩) (concludes_twoChars hs hlen fun t ht hidx hleft => ?_)
  refine concludes_advanceWhile (p := isBin) ht (by decide) hfuel fun u hu hidx' hleft' => ?_
  refine concludes_bind (returns_get.mpr ⟨rfl, rfl⟩) ?_
  unfold binaryDigits?
  rw [← hleft, ← hleft', ← peek_zero]
  by_cases hd : isDigit (u.peek 0) = true
  · rw [if_pos hd, if_pos hd]
    refine concludes_of_steady (not_asserts not_tooLong_none) (steady_bind (steady_eatWhile hfuel) fun _ => ?_) hu (by omega)
    exact steady_get fun _ _ _ => steady_bind steady_error fun _ => steady_pure
  · rw [if_neg hd, if_neg hd, tooLong_some]
    have hparse : Concludes PastConv src u.idx _ (parseInteger tok lX.idx lX.pos 2) u := concludes_parseInteger hu (by omega)
    rw [if_pos (by decide), hidx', hidx, Nat.add_sub_cancel_left] at hparse
    exact hparse.mono (by omega)

/-- The digits of a number that `Lexer_parseInteger` gets. -/
def integerDigits? (text : List U8) : Option (List U8) :=
  let cc := toUpper (text.getD 1 eofChar)
  let ccc := text.getD 2 eofChar
  if text.headD eofChar = chr '0' then
    if cc = chr 'X' ∧ isXDigit ccc then hexDigits? (text.drop 2)
    else if cc = chr 'B' ∧ (ccc = chr '0' ∨ ccc = chr '1') then binaryDigits? (text.drop 2)
    else if cc = chr '.' ∨ cc = chr 'E' then none
    else octalDigits? text
  else decimalDigits? text

theorem concludes_tokNumber {strtod : Strtod} (hs : InStep src lX) (hfuel : src.length < fuel)
    (hhead : isDigit (lX.peek 0) ∨ lX.peek 0 = chr '.') :
    Concludes PastConv src (lX.idx + 1) (Asserts (TooLong (integerDigits? lX.left))) (tokNumber strtod tok fuel) lX := by
  refine concludes_bind (returns_get.mpr ⟨rfl, rfl⟩) ?_
  unfold integerDigits?
  dsimp only
  rw [← peek_zero, ← peek_eq, ← peek_eq]
  split
  · rename_i hzero
    have hlen : toUpper (lX.peek 1) ≠ toUpper eofChar → 2 ≤ lX.left.length := fun hne =>
      lt_length_of_peek fun heq => hne (congrArg toUpper heq)
    split
    · rename_i hx
      exact concludes_tokHexNumber hs hfuel (hlen (by rw [hx.1]; decide))
    · split
      · rename_i hb
        exact concludes_tokBinaryNumber hs hfuel (hlen (by rw [hb.1]; decide))
      · split
        · rename_i hc
          have hlt := lt_of_peek hs (by rw [hzero]; decide)
          have hpeek : (lX.advance 1).peek 0 = lX.peek 1 := by
            rw [peek_zero, left_advance, peek_eq]
            rcases lX.left with _ | ⟨_, _ | ⟨_, _⟩⟩ <;> rfl
          refine concludes_bind (returns_advance.mpr ⟨rfl, rfl⟩) (concludes_of_ends (not_asserts not_tooLong_none) ?_)
          have hadv := lt_advance hs hlt Nat.one_pos
          refine (ends_tokFloatingPoint (hs.advance 1) hadv.le ?_ hfuel).mono fun _ _ h => ⟨h.1, by omega⟩
          rw [hpeek]
          exact hc.elim .inl fun he => .inr (.inl he)
        · exact concludes_tokOctalNumber hs hfuel hzero
  · exact concludes_tokDecimalNumber hs hfuel hhead

/-! ### Character literals -/

/-- The first character of a literal, of which the text begins behind the quote, and how much longer it is than one byte. -/
def literal? (text : List U8) : Option (U32 × Nat) :=
  if text.headD eofChar = chr '\\' then escape? false (text.drop 1) else some ((text.headD eofChar).setWidth 32, 0)

theorem escapes_firstChar {c : U8} {text : List U8} (hs : InStep src lX) (hfuel : src.length < fuel)
    (hc : c = text.headD eofChar) (hleft : lX.left = text.drop 1) : Escapes (literal? text) (firstChar c fuel) lX := by
  unfold literal?
  rw [← hc, ← hleft, firstChar]
  split
  · exact escapes_tokEscapedChar false hs hfuel
  · exact escapes_pure hs _

/-- Bytes that go on with a character. -/
def isContinuation (c : U8) : Bool := c &&& 0xC0 = 0x80

/-- The text of a literal, up to the quote that is looked for from the byte after its first character. -/
def literalText (text : List U8) (n : Nat) : List U8 :=
  text.take (n + 2 + ((text.drop (n + 2)).takeWhile (· ≠ chr '\'')).length)

/-- A literal of a wide character with no quote behind it. -/
def Runaway (text : List U8) : Prop :=
  ∃ v n, literal? text = some (v, n) ∧ 0x80 ≤ v ∧ chr '\'' ∉ text.drop (n + 2)

/-- A literal that ends inside of a character. -/
def CutShort (text : List U8) : Prop :=
  ∃ v n, literal? text = some (v, n) ∧ 0x80 ≤ v ∧ chr '\'' ∈ text.drop (n + 2) ∧
    (literalText text n).length < clz (text.headD eofChar) ∧ (literalText text n).tail.all isContinuation

theorem concludes_readContinuation {stop : Nat} (hs : InStep src lX) (hlo : lo ≤ lX.idx) (n i : Nat) (hi : start + i ≤ stop)
    (hstop : isContinuation (src.getD stop eofChar) = false) :
    Concludes Regular src lo (Asserts (stop < start + i + n ∧ ∀ j, start + i ≤ j → j < stop → isContinuation (src.getD j eofChar)))
      (readContinuation { start, stop, coord := pos, source := src } n i) lX := by
  induction n generalizing i with
  | zero => exact concludes_of_steady (not_asserts fun h => by omega) steady_pure hs hlo
  | succ n ih =>
    by_cases hc : isContinuation (src.getD (start + i) eofChar) = true
    · -- The byte at the end of the literal is the quote.
      have hne : start + i ≠ stop := fun heq => by rw [heq, hstop] at hc; cases hc
      have hc' : src.getD (start + i) eofChar &&& 0xC0 = 0x80 := of_decide_eq_true hc
      unfold readContinuation
      rw [if_neg (not_not.mpr hc')]
      refine (ih (i + 1) (by omega)).congr fun e => and_congr_right fun _ => ?_
      refine and_congr (by omega) ⟨fun h j hj => h j (by omega), fun h j hj hlt => ?_⟩
      rcases Nat.eq_or_lt_of_le hj with rfl | hlt'
      · exact hc
      · exact h j (by omega) hlt
    · have hc' : src.getD (start + i) eofChar &&& 0xC0 ≠ 0x80 := fun h => hc (decide_eq_true h)
      unfold readContinuation
      rw [if_pos hc']
      refine concludes_stopIf (c := stop < start + i + 1) (fun hlt => asserts_iff ⟨by omega, fun j hj hj' => by omega⟩) fun hge => ?_
      exact concludes_of_steady (not_asserts fun h => hc (h.2 (start + i) (Nat.le_refl _) (by omega))) steady_fail hs hlo

theorem concludes_readRune {stop : Nat} (hs : InStep src lX) (hlo : lo ≤ lX.idx) (hle : start + 1 ≤ stop)
    (hstop : isContinuation (src.getD stop eofChar) = false) :
    Concludes Regular src lo (Asserts (stop - start < clz (src.getD start eofChar) ∧
      ∀ j, start + 1 ≤ j → j < stop → isContinuation (src.getD j eofChar)))
      (readRune { start, stop, coord := pos, source := src }) lX := by
  unfold readRune
  dsimp only
  rw [Nat.add_zero]
  split
  · rename_i hlen
    have hzero : clz (src.getD start eofChar) = 0 := hlen
    exact concludes_of_steady (not_asserts fun h => by omega) steady_pure hs hlo
  · rename_i hlen
    have hne : clz (src.getD start eofChar) ≠ 0 := hlen
    refine concludes_failIf (fun hlt => not_asserts fun h => ?_) fun hge => ?_
    · exact Nat.lt_asymm h.1 hlt
    · have hcont : Concludes Regular src lo _ (readContinuation { start, stop, coord := pos, source := src }
        (clz (src.getD start eofChar) - 1) 1) lX := concludes_readContinuation hs hlo _ 1 hle hstop
      refine Concludes.bind (hcont.congr fun e => and_congr_right fun _ => and_congr_left fun _ => by omega) fun _ => ?_
      split
      · exact steady_pure
      · exact steady_pure
      · exact steady_pure
      · exact steady_fail

/-- A pass of the loop of `wideChar`. -/
def quotePass (c : U8) : LexM (Pass U8 Unit) :=
  if c ≠ chr '\'' then do
    let _ ← advance 1
    return .again (← peek 0)
  else return .done ()

theorem returns_quotePass {c : U8} (h : c ≠ chr '\'') : Returns (quotePass c) lX (.again ((lX.advance 1).peek 0)) (lX.advance 1) := by
  rw [quotePass, if_pos h]
  exact returns_bind.mpr ⟨_, _, returns_advance.mpr ⟨rfl, rfl⟩, returns_bind.mpr ⟨_, _, returns_peek.mpr ⟨rfl, rfl⟩,
    returns_pure.mpr ⟨rfl, rfl⟩⟩⟩

/-- The loop from a character that it has looked at. -/
theorem quoteLoop_returns (hs : InStep src lX) (hquote : chr '\'' ∈ lX.left)
    (hfuel : (lX.left.takeWhile (· ≠ chr '\'')).length < fuel) :
    Returns (iterate .fuel quotePass fuel (lX.peek 0)) lX () (lX.advance (lX.left.takeWhile (· ≠ chr '\'')).length) := by
  induction fuel generalizing lX with
  | zero => omega
  | succ fuel ih =>
    rcases hleft : lX.left with _ | ⟨c, text⟩
    · rw [hleft] at hquote
      cases hquote
    · have hpeek : lX.peek 0 = c := by rw [peek_zero, hleft, List.headD_cons]
      have htext : (lX.advance 1).left = text := by
        rw [left_advance, hleft]
        rfl
      rw [hleft] at hquote hfuel
      rw [hpeek]
      by_cases hc : c = chr '\''
      · rw [List.takeWhile_cons_of_neg (by simp [hc]), List.length_nil, hs.advance_zero]
        refine returns_bind.mpr ⟨.done (), lX, ?_, returns_pure.mpr ⟨rfl, rfl⟩⟩
        rw [quotePass, if_neg (not_not.mpr hc)]
        exact returns_pure.mpr ⟨rfl, rfl⟩
      · have htake : (c :: text).takeWhile (· ≠ chr '\'') = c :: text.takeWhile (· ≠ chr '\'') :=
          List.takeWhile_cons_of_pos (by simp [hc])
        rw [htake, List.length_cons] at hfuel ⊢
        have hmem : chr '\'' ∈ text := (List.mem_cons.mp hquote).resolve_left fun h => hc h.symm
        have hrest := ih (hs.advance 1) (htext ▸ hmem) (by rw [htext]; omega)
        rw [htext, advance_advance, Nat.add_comm] at hrest
        exact returns_bind.mpr ⟨_, _, returns_quotePass hc, hrest⟩

/-- With no quote ahead, the loop goes on at the end of the source. -/
theorem quoteLoop_forever {c : U8} {Q : Unit → Lexer → Prop} (hc : c ≠ chr '\'') (hquote : chr '\'' ∉ lX.left.drop 1) :
    Ends (· = .fuel) Q (iterate .fuel quotePass fuel c) lX := by
  refine ends_iterate_forever (I := fun c t => c ≠ chr '\'' ∧ chr '\'' ∉ t.left.drop 1) ?_ ⟨hc, hquote⟩
  rintro c t ⟨hc, hquote⟩
  refine ⟨_, _, returns_quotePass hc, fun heq => ?_, fun hmem => ?_⟩
  · rw [peek_zero, left_advance] at heq
    rcases hdrop : t.left.drop 1 with _ | ⟨c', text⟩
    · rw [hdrop] at heq
      exact absurd heq (by decide)
    · rw [hdrop, List.headD_cons] at heq
      rw [hdrop] at hquote
      exact hquote (heq ▸ List.mem_cons_self)
  · rw [left_advance] at hmem
    exact hquote (List.mem_of_mem_drop hmem)

/-- The faults of a character literal. -/
inductive CharFault (text : List U8) : LexStop → Prop
  | runaway (h : Runaway text) : CharFault text .fuel
  | cutShort (h : CutShort text) : CharFault text .assertion

theorem all_tail_take {text : List U8} (hn : n ≤ text.length) (p : U8 → Bool) :
    (text.take n).tail.all p = true ↔ ∀ i, 0 < i → i < n → p (text.getD i eofChar) = true := by
  rw [List.all_eq_true]
  constructor
  · rintro h i hpos hi
    obtain ⟨i, rfl⟩ : ∃ k, i = k + 1 := ⟨i - 1, by omega⟩
    refine h _ (List.mem_iff_getElem?.mpr ⟨i, ?_⟩)
    rw [List.getElem?_tail, List.getElem?_take, if_pos hi, List.getD_eq_getElem?_getD, List.getElem?_eq_getElem (by omega)]
    rfl
  · rintro h c hc
    obtain ⟨i, hi⟩ := List.mem_iff_getElem?.mp hc
    rw [List.getElem?_tail, List.getElem?_take] at hi
    split at hi
    · rename_i hlt
      have hp := h (i + 1) (Nat.succ_pos i) hlt
      rwa [List.getD_eq_getElem?_getD, hi] at hp
    · cases hi

theorem getD_left (hs : InStep src lX) (n : Nat) : src.getD (lX.idx + n) eofChar = lX.left.getD n eofChar := by
  rw [← hs.src_eq]
  exact peek_eq lX n

/-- The quote is behind the characters that are not. -/
theorem drop_takeWhile_quote {text : List U8} (h : chr '\'' ∈ text) :
    ∃ rest, text.drop (text.takeWhile (· ≠ chr '\'')).length = chr '\'' :: rest := by
  induction text with
  | nil => cases h
  | cons c text ih =>
    by_cases hc : c = chr '\''
    · rw [List.takeWhile_cons_of_neg (by simp [hc]), hc]
      exact ⟨text, rfl⟩
    · rw [List.takeWhile_cons_of_pos (by simp [hc])]
      exact ih ((List.mem_cons.mp h).resolve_left fun heq => hc heq.symm)

theorem head_of_wide {text : List U8} {v : U32} (hlit : literal? text = some (v, n)) (hv : 0x80 ≤ v) :
    text.headD eofChar ≠ chr '\'' := by
  intro heq
  rw [literal?, heq, if_neg (by decide)] at hlit
  obtain ⟨rfl, -⟩ := Prod.mk.inj (Option.some.inj hlit)
  exact absurd hv (by decide)

/-- A literal of a wide character, of which the text is left behind the quote. -/
theorem concludes_wideChar {v : U32} {t : Lexer} (hs : InStep src lX) (hfuel : src.length < fuel) (ht : Skips lX (n + 2) t)
    (hlit : literal? (lX.left.drop 1) = some (v, n)) (hv : 0x80 ≤ v) :
    Concludes Regular src (lX.idx + 1) (CharFault (lX.left.drop 1))
      (wideChar (lX.idx + 1) pos ((lX.left.drop 1).headD eofChar) fuel) t := by
  have hhead := head_of_wide hlit hv
  have hts := ht.inStep hs
  have hleft : t.left.drop 1 = (lX.left.drop 1).drop (n + 2) := by
    rw [ht.left, List.drop_drop, List.drop_drop, Nat.add_comm]
  by_cases hquote : chr '\'' ∈ (lX.left.drop 1).drop (n + 2)
  · obtain ⟨rest, hrest⟩ := drop_takeWhile_quote hquote
    have hlen := congrArg List.length hrest
    have htotal := hs.length_left
    simp only [List.length_drop, List.length_cons] at hlen
    obtain ⟨fuel, rfl⟩ : ∃ k, fuel = k + 1 := ⟨fuel - 1, by omega⟩
    have hleft' : (t.advance 1).left = (lX.left.drop 1).drop (n + 2) := by rw [left_advance, hleft]
    have hloop : Returns (iterate .fuel quotePass fuel ((t.advance 1).peek 0)) _ () _ :=
      quoteLoop_returns (hts.advance 1) (hleft'.symm ▸ hquote) (by rw [hleft']; omega)
    rw [hleft'] at hloop
    have hu := ht.trans ((skips_advance t 1).trans (skips_advance (t.advance 1)
      (((lX.left.drop 1).drop (n + 2)).takeWhile (· ≠ chr '\'')).length))
    have hus := hu.inStep hs
    have hidx := hu.idx hs (by omega)
    have huleft := hu.left
    generalize hk : (((lX.left.drop 1).drop (n + 2)).takeWhile (· ≠ chr '\'')).length = k at *
    generalize (t.advance 1).advance k = u at *
    have hpeek : src.getD u.idx eofChar = chr '\'' := by
      have hcons : u.left = chr '\'' :: rest := by
        rw [huleft, ← hrest, List.drop_drop, List.drop_drop]
        exact congrArg (lX.left.drop ·) (by omega)
      have hzero := getD_left hus 0
      rwa [Nat.add_zero, hcons] at hzero
    have hcut : (literalText (lX.left.drop 1) n).length = n + 2 + k := by
      rw [literalText, hk, List.length_take, List.length_drop]
      omega
    have hget : ∀ i, src.getD (lX.idx + 1 + i) eofChar = (lX.left.drop 1).getD i eofChar := by
      intro i
      rw [Nat.add_assoc, getD_left hs, List.getD_eq_getElem?_getD, List.getD_eq_getElem?_getD, List.getElem?_drop]
    have hzero : src.getD (lX.idx + 1) eofChar = (lX.left.drop 1).headD eofChar := by
      rw [← Nat.add_zero (lX.idx + 1), hget]
      cases lX.left.drop 1 <;> rfl
    refine concludes_bind (returns_bind.mpr ⟨_, _, returns_quotePass hhead, hloop⟩) (concludes_bind (returns_get.mpr ⟨rfl, rfl⟩) ?_)
    refine Concludes.bind ?_ fun _ => steady_pure
    have hrange : u.rangeFrom (lX.idx + 1) pos = { start := lX.idx + 1, stop := u.idx, coord := pos, source := src } := by
      rw [Lexer.rangeFrom, hus.src_eq]
    rw [hrange]
    refine (concludes_readRune hus (by omega) (by omega) (by rw [hpeek]; decide)).congr fun e => ?_
    rw [hzero]
    have hcont : (literalText (lX.left.drop 1) n).tail.all isContinuation = true ↔
        ∀ j, lX.idx + 1 + 1 ≤ j → j < u.idx → isContinuation (src.getD j eofChar) := by
      rw [literalText, hk, all_tail_take (by rw [List.length_drop]; omega)]
      refine ⟨fun h j hj hlt => ?_, fun h i hpos hlt => ?_⟩
      · obtain ⟨i, rfl⟩ : ∃ i, j = lX.idx + 1 + i := ⟨j - (lX.idx + 1), by omega⟩
        rw [hget]
        exact h i (by omega) (by omega)
      · rw [← hget]
        exact h _ (by omega) (by omega)
    constructor
    · intro he
      cases he with
      | runaway h =>
        obtain ⟨v', n', hlit', -, hquote'⟩ := h
        obtain ⟨rfl, rfl⟩ := Prod.mk.inj (Option.some.inj (hlit.symm.trans hlit'))
        exact absurd hquote hquote'
      | cutShort h =>
        obtain ⟨v', n', hlit', -, -, hlt, hall⟩ := h
        obtain ⟨rfl, rfl⟩ := Prod.mk.inj (Option.some.inj (hlit.symm.trans hlit'))
        exact ⟨rfl, by omega, hcont.mp hall⟩
    · rintro ⟨rfl, hlt, hall⟩
      exact .cutShort ⟨v, n, hlit, hv, hquote, by omega, hcont.mpr hall⟩
  · refine ⟨fun e he => ?_, fun hno => absurd (.runaway ⟨v, n, hlit, hv, hquote⟩) (hno .fuel)⟩
    cases he with
    | runaway => exact ends_bind.mpr ((quoteLoop_forever hhead (hleft ▸ hquote)).mono fun _ _ h => h)
    | cutShort h =>
      obtain ⟨v', n', hlit', -, hquote', -⟩ := h
      obtain ⟨rfl, rfl⟩ := Prod.mk.inj (Option.some.inj (hlit.symm.trans hlit'))
      exact absurd hquote' hquote

theorem steady_unterminatedChar (hfuel : src.length < fuel) : Steady Regular src lo (unterminatedChar tok start pos fuel) :=
  steady_bind (steady_eatWhile hfuel) fun _ => steady_bind steady_peek fun _ => steady_ite
    (steady_bind steady_advance fun _ => steady_get fun _ _ _ => steady_bind steady_error fun _ => steady_pure)
    (steady_get fun _ _ _ => steady_bind steady_error fun _ => steady_pure)

theorem concludes_tokChar (hs : InStep src lX) (hfuel : src.length < fuel) (hquote : lX.peek 0 = chr '\'') :
    Concludes Regular src (lX.idx + 1) (CharFault (lX.left.drop 1)) (tokChar tok fuel) lX := by
  have hlt := lt_of_peek hs (by rw [hquote]; decide)
  have hhead : lX.peek 1 = (lX.left.drop 1).headD eofChar := by
    rw [peek_eq]
    rcases lX.left with _ | ⟨_, _ | ⟨_, _⟩⟩ <;> rfl
  have hfirst := escapes_firstChar (hs.advance 2) hfuel hhead (by rw [left_advance, List.drop_drop])
  refine concludes_bind (returns_get.mpr ⟨rfl, rfl⟩) (concludes_bind (returns_advance.mpr ⟨rfl, rfl⟩) ?_)
  cases hlit : literal? (lX.left.drop 1) with
  | none =>
    have hno : ∀ e, ¬CharFault (lX.left.drop 1) e := by
      rintro e (⟨v, n, hsome, -⟩ | ⟨v, n, hsome, -⟩) <;> cases hlit.symm.trans hsome
    rw [hlit] at hfirst
    exact concludes_of_ends hno (ends_bind.mpr (hfirst.imp (fun _ he => he.1) fun _ _ hsome => by cases hsome.choose_spec.1))
  | some r =>
    obtain ⟨v, n⟩ := r
    rw [hlit] at hfirst
    obtain ⟨t, hr, hskip⟩ := hfirst.returns
    have ht : Skips lX (n + 2) t := Nat.add_comm 2 n ▸ (skips_advance lX 2).trans hskip
    refine concludes_bind hr (Concludes.bind ?_ fun _ => ?_)
    · rw [charValue]
      split
      · rw [hhead]
        exact concludes_wideChar hs hfuel ht hlit ‹_›
      · rename_i hnarrow
        have hno : ∀ e, ¬CharFault (lX.left.drop 1) e := by
          rintro e (⟨v', n', hsome, hv, -⟩ | ⟨v', n', hsome, hv, -⟩) <;>
          · obtain ⟨rfl, -⟩ := Prod.mk.inj (Option.some.inj (hlit.symm.trans hsome))
            exact hnarrow hv
        refine concludes_of_steady hno steady_pure (ht.inStep hs) ?_
        have hadv := lt_advance hs hlt Nat.two_pos
        exact Nat.le_trans hadv (hskip.le (hs.advance 2))
    · refine steady_bind steady_peek fun _ => steady_ite (steady_unterminatedChar hfuel) ?_
      exact steady_advance_bind fun i hi => steady_updateToken (by omega)

end LexM

end Cyntatic
