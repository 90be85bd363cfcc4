import Mathlib.Data.List.Induction
import Mathlib.Logic.Relation
import Cyntatic.Compiler.Lexer

/-! Every step of the lexer keeps the index inside the source and the position in step with it, and never moves back. What the
    lexer does is a sequence of a few changes of its state, so a relation that these keep is one that it keeps. -/

namespace Cyntatic
open Library Prog

/-! ### Positions -/

/-- The line and the column of an index. -/
def position (src : List U8) (idx : Nat) : LineColumn where
  line := (src.take idx).count (chr '\n')
  column := ((src.take idx).reverse.takeWhile (· ≠ chr '\n')).length

theorem position_eq_foldl (src : List U8) (idx : Nat) : position src idx = (src.take idx).foldl LineColumn.update {} := by
  unfold position
  induction src.take idx using List.reverseRecOn with
  | nil => rfl
  | append_singleton text c ih =>
    rw [List.foldl_append, ← ih, List.foldl_cons, List.foldl_nil, List.reverse_append, List.reverse_singleton,
      List.singleton_append]
    unfold LineColumn.update
    split
    · rename_i hc
      subst hc
      simp
    · rename_i hc
      simp [hc, List.count_append]

namespace Lexer

/-- The index is in the source, the position is that of the index, and a token that is kept for the next call is the
    end of a string expression. -/
structure InStep (src : List U8) (lX : Lexer) : Prop where
  src_eq : lX.src = src
  idx_le : lX.idx ≤ src.length
  pos_eq : lX.pos = position src lX.idx
  next : lX.next.kind = .tokCOUNT ∨ lX.next.kind = .tokRStrExpr

variable {src : List U8} {lX : Lexer}

theorem InStep.advance (h : InStep src lX) (n : Nat) : InStep src (lX.advance n) where
  src_eq := h.src_eq
  idx_le := by simp [Lexer.advance, h.src_eq]
  next := h.next
  pos_eq := by
    change ((lX.src.drop lX.idx).take n).foldl LineColumn.update lX.pos = position src (min lX.src.length (lX.idx + n))
    rw [h.pos_eq, position_eq_foldl, position_eq_foldl, h.src_eq, ← List.foldl_append, ← List.take_add,
      Nat.min_comm, ← List.take_eq_take_min]

theorem advance_one (h : lX.idx < lX.src.length) : lX.advance 1 = lX.step := by
  unfold Lexer.advance Lexer.step Lexer.peek
  rw [Nat.min_eq_right h, List.take_one_drop_eq_of_lt_length h]
  simp [List.getElem?_eq_getElem h]

theorem InStep.step (h : InStep src lX) (hidx : lX.idx < lX.src.length) : InStep src lX.step :=
  advance_one hidx ▸ h.advance 1

theorem inStep_init (log : Log) (erange : Bool) : InStep src (init log erange src) := ⟨rfl, Nat.zero_le _, rfl, .inl rfl⟩

/-- A change that the lexer makes to its state. -/
inductive Change : Lexer → Lexer → Prop
  | advance (lX : Lexer) (n : Nat) : Change lX (lX.advance n)
  | step {lX : Lexer} (h : lX.idx < lX.src.length) : Change lX lX.step
  | error (lX : Lexer) (d : Diagnostic) : Change lX { lX with log.errors := lX.log.errors ++ [d] }
  | warn (lX : Lexer) (d : Diagnostic) : Change lX { lX with log.warnings := lX.log.warnings ++ [d] }
  | inStrExpr (lX : Lexer) (b : Bool) : Change lX { lX with inStrExpr := b }
  | erange (lX : Lexer) (b : Bool) : Change lX { lX with erange := b }
  | next (lX : Lexer) {tok : Token} (h : tok.kind = .tokCOUNT ∨ tok.kind = .tokRStrExpr) : Change lX { lX with next := tok }

/-- Changes one after the other. -/
abbrev Changes : Lexer → Lexer → Prop := Relation.ReflTransGen Change

theorem composes_changes : Composes Changes fun (_ : LexStop) _ _ => True where
  refl _ := .refl
  trans h h' := h.trans h'
  stop _ _ := trivial

/-- What a step of the lexer does. -/
def Moves (lX lX' : Lexer) : Prop := ∀ src, InStep src lX → InStep src lX' ∧ lX.idx ≤ lX'.idx

theorem Change.moves {lX' : Lexer} (h : Change lX lX') : Moves lX lX' := by
  intro src hs
  cases h with
  | advance n =>
    refine ⟨hs.advance n, ?_⟩
    have := hs.idx_le
    simp only [Lexer.advance, hs.src_eq]
    omega
  | step h => exact ⟨hs.step h, Nat.le_succ _⟩
  | error => exact ⟨⟨hs.src_eq, hs.idx_le, hs.pos_eq, hs.next⟩, Nat.le_refl _⟩
  | warn => exact ⟨⟨hs.src_eq, hs.idx_le, hs.pos_eq, hs.next⟩, Nat.le_refl _⟩
  | inStrExpr => exact ⟨⟨hs.src_eq, hs.idx_le, hs.pos_eq, hs.next⟩, Nat.le_refl _⟩
  | erange => exact ⟨⟨hs.src_eq, hs.idx_le, hs.pos_eq, hs.next⟩, Nat.le_refl _⟩
  | next h => exact ⟨⟨hs.src_eq, hs.idx_le, hs.pos_eq, h⟩, Nat.le_refl _⟩

theorem Changes.moves {lX' : Lexer} (h : Changes lX lX') : Moves lX lX' := by
  intro src hs
  induction h with
  | refl => exact ⟨hs, Nat.le_refl _⟩
  | tail _ hchange ih =>
    obtain ⟨hs', hle⟩ := hchange.moves src ih.1
    exact ⟨hs', Nat.le_trans ih.2 hle⟩

end Lexer

namespace LexM
open Lexer

/-- A computation that changes the state step by step. -/
abbrev Stepwise {α : Type} (m : LexM α) : Prop := Relates Changes (fun _ _ _ => True) m

/-- A computation that moves forward, in step. -/
abbrev Forward {α : Type} (m : LexM α) : Prop := Relates Moves (fun _ _ _ => True) m

variable {α β : Type} {m : LexM α} {f : α → LexM β} {a : α} {n : Nat} {p : U8 → Bool} {range : Range} {fmt : String}
  {args : List DiagnosticArg} {tok : Token} {kind : TokenKind} {start stop : Nat} {pos : LineColumn} {fuel : Nat}

theorem Stepwise.forward (h : Stepwise m) : Forward m := relates_of_returns fun _ _ _ hr => Changes.moves (h.of_returns hr)

/-! ### Steps -/

theorem stepwise_pure : Stepwise (pure a : LexM α) := relates_pure composes_changes

theorem stepwise_get : Stepwise get := relates_get composes_changes

theorem stepwise_bind (hm : Stepwise m) (hf : ∀ a, Stepwise (f a)) : Stepwise (m >>= f) := relates_bind composes_changes hm hf

theorem stepwise_stop {e : LexStop} : Stepwise (Prog.stop e : LexM α) := relates_stop fun _ => trivial

theorem stepwise_stopIf {c : Prop} [Decidable c] {e : LexStop} : Stepwise (stopIf c e : LexM Unit) :=
  relates_stopIf composes_changes fun _ => trivial

theorem stepwise_ofOption {e : LexStop} {x : Option α} : Stepwise (ofOption e x : LexM α) :=
  relates_ofOption composes_changes fun _ => trivial

theorem stepwise_iterate {body : β → LexM (Pass β α)} (hbody : ∀ b, Stepwise (body b)) (n : Nat) (b : β) :
    Stepwise (iterate .fuel body n b) := relates_iterate composes_changes (fun _ => trivial) hbody n b

theorem stepwise_modify {g : Lexer → Lexer} (h : ∀ lX, Change lX (g lX)) : Stepwise (modify g) :=
  relates_modify fun lX => .single (h lX)

theorem stepwise_peek : Stepwise (peek n) := stepwise_bind stepwise_get fun _ => stepwise_pure

theorem stepwise_advance : Stepwise (advance n) :=
  stepwise_bind stepwise_get fun _ => stepwise_bind (stepwise_modify fun lX => .advance lX n) fun _ => stepwise_pure

theorem stepwise_error : Stepwise (error range fmt args) := stepwise_modify fun lX => .error lX ⟨range, fmt, args⟩

theorem stepwise_warn : Stepwise (warn range fmt args) := stepwise_modify fun lX => .warn lX ⟨range, fmt, args⟩

theorem stepwise_fail : Stepwise (fail range fmt args : LexM α) := stepwise_bind stepwise_error fun _ => stepwise_stop

theorem stepwise_failIf {c : Prop} [Decidable c] : Stepwise (failIf c range fmt args) := relates_ite stepwise_fail stepwise_pure

theorem stepwise_updateToken : Stepwise (updateToken tok kind start stop pos) :=
  stepwise_bind stepwise_stopIf fun _ => stepwise_bind stepwise_get fun _ => stepwise_pure

theorem stepwise_advanceIf {c : Prop} [Decidable c] : Stepwise (advanceIf c) :=
  relates_ite (stepwise_bind stepwise_advance fun _ => stepwise_pure) stepwise_pure

theorem stepwise_advanceWhile : Stepwise (advanceWhile p fuel) :=
  stepwise_iterate (fun _ => stepwise_bind stepwise_peek fun _ =>
    relates_ite (stepwise_bind stepwise_advance fun _ => stepwise_pure) stepwise_pure) fuel ()

theorem stepwise_eatWhile : Stepwise (eatWhile p fuel) := by
  refine stepwise_iterate (fun _ => relates_of_returns fun lX x lX' h => ?_) fuel ()
  obtain ⟨s, t, hget, hpass⟩ := returns_bind.mp h
  obtain ⟨rfl, rfl⟩ := returns_get.mp hget
  split at hpass
  · rename_i hc
    obtain ⟨u, t, hstep, hend⟩ := returns_bind.mp hpass
    obtain ⟨rfl, rfl⟩ := returns_pure.mp hend
    obtain rfl := returns_modify.mp hstep
    exact .single (.step hc.1)
  · obtain ⟨rfl, rfl⟩ := returns_pure.mp hpass
    exact .refl

theorem stepwise_eatUntilAnyOf {chrs : List U8} : Stepwise (eatUntilAnyOf chrs fuel) := stepwise_eatWhile

/-! ### Characters and strings -/

theorem stepwise_universalChar (len : Nat) (r : U32) : Stepwise (universalChar start len r) := by
  induction len generalizing r with
  | zero => exact stepwise_bind stepwise_get fun _ => relates_ite stepwise_pure stepwise_fail
  | succ len ih =>
    refine stepwise_bind stepwise_peek fun c => ?_
    cases hexDigit? c with
    | none => exact stepwise_bind stepwise_advance fun _ => stepwise_bind stepwise_get fun _ => stepwise_fail
    | some d => exact stepwise_bind stepwise_advance fun _ => ih _

theorem stepwise_tokUniversalChar {len : Nat} : Stepwise (tokUniversalChar len) :=
  stepwise_bind stepwise_get fun _ => stepwise_universalChar len 0

theorem stepwise_tokOctalChar {c : U8} : Stepwise (tokOctalChar c) :=
  stepwise_bind stepwise_peek fun _ => relates_ite stepwise_pure <| stepwise_bind stepwise_advance fun _ =>
    stepwise_bind stepwise_peek fun _ => relates_ite stepwise_pure <| stepwise_bind stepwise_advance fun _ => stepwise_pure

theorem stepwise_tokHexChar : Stepwise (tokHexChar fuel) := by
  refine stepwise_bind stepwise_get fun _ => relates_ite stepwise_fail (stepwise_iterate (fun r => ?_) fuel 0)
  refine stepwise_bind stepwise_peek fun c => relates_ite stepwise_pure ?_
  cases hexDigit? c with
  | none => exact stepwise_pure
  | some d => exact stepwise_bind stepwise_advance fun _ => stepwise_pure

theorem stepwise_tokEscapedChar {inStr : Bool} : Stepwise (tokEscapedChar inStr fuel) := by
  refine stepwise_bind stepwise_get fun lX => stepwise_bind stepwise_advance fun _ => relates_ite stepwise_pure ?_
  cases simpleEscape? (lX.peek 0) with
  | some r => exact stepwise_pure
  | none =>
    exact relates_ite stepwise_tokHexChar <| relates_ite stepwise_tokUniversalChar <|
      relates_ite stepwise_tokUniversalChar <| relates_ite stepwise_tokOctalChar <|
      stepwise_bind stepwise_warn fun _ => stepwise_pure

theorem stepwise_readContinuation (n i : Nat) : Stepwise (readContinuation range n i) := by
  induction n generalizing i with
  | zero => exact stepwise_pure
  | succ n ih => exact relates_ite (stepwise_bind stepwise_stopIf fun _ => stepwise_fail) (ih (i + 1))

theorem stepwise_readRune : Stepwise (readRune range) := by
  refine relates_ite stepwise_pure <| stepwise_bind stepwise_failIf fun _ =>
    stepwise_bind (stepwise_readContinuation _ 1) fun _ => ?_
  split
  · exact stepwise_pure
  · exact stepwise_pure
  · exact stepwise_pure
  · exact stepwise_fail

theorem stepwise_charValue {c : U8} {value : U32} : Stepwise (charValue start pos c value fuel) := by
  refine relates_ite (stepwise_bind (stepwise_iterate (fun _ => relates_ite ?_ stepwise_pure) fuel c) fun _ =>
    stepwise_bind stepwise_get fun _ => stepwise_bind stepwise_readRune fun _ => stepwise_pure) stepwise_pure
  exact stepwise_bind stepwise_advance fun _ => stepwise_bind stepwise_peek fun _ => stepwise_pure

theorem stepwise_unterminatedChar : Stepwise (unterminatedChar tok start pos fuel) :=
  stepwise_bind stepwise_eatUntilAnyOf fun _ => stepwise_bind stepwise_peek fun _ => relates_ite
    (stepwise_bind stepwise_advance fun _ => stepwise_bind stepwise_get fun _ => stepwise_bind stepwise_error fun _ => stepwise_pure)
    (stepwise_bind stepwise_get fun _ => stepwise_bind stepwise_error fun _ => stepwise_pure)

theorem stepwise_tokChar : Stepwise (tokChar tok fuel) :=
  stepwise_bind stepwise_get fun _ => stepwise_bind stepwise_advance fun _ =>
    stepwise_bind (relates_ite stepwise_tokEscapedChar stepwise_pure) fun _ => stepwise_bind stepwise_charValue fun _ =>
    stepwise_bind stepwise_peek fun _ => relates_ite stepwise_unterminatedChar <|
    stepwise_bind stepwise_advance fun _ => stepwise_updateToken

theorem stepwise_stringLoop : Stepwise (stringLoop fuel) := by
  refine stepwise_iterate (fun os => stepwise_bind stepwise_get fun lX => relates_ite stepwise_pure <| relates_ite ?_ <|
    relates_ite stepwise_pure <| stepwise_bind stepwise_advance fun _ => stepwise_bind stepwise_peek fun _ =>
    relates_ite stepwise_pure <| relates_ite stepwise_pure <| stepwise_bind stepwise_tokEscapedChar fun _ =>
    relates_ite (stepwise_bind stepwise_ofOption fun _ => stepwise_pure) stepwise_pure) fuel []
  exact stepwise_bind (stepwise_modify fun lX => .inStrExpr lX false) fun _ => stepwise_pure

theorem stepwise_unterminatedString : Stepwise (unterminatedString tok start pos fuel) :=
  stepwise_bind stepwise_eatUntilAnyOf fun _ => stepwise_bind stepwise_get fun _ => stepwise_bind stepwise_error fun _ =>
    stepwise_bind stepwise_peek fun _ => stepwise_bind stepwise_advanceIf fun _ => stepwise_pure

theorem returns_updateToken {lX lX' : Lexer} {r : TokenKind × Token} : Returns (updateToken tok kind start stop pos) lX r lX' ↔
    start ≤ stop ∧ r = (kind, { tok with kind, range := { start, stop, coord := pos, source := lX.src } }) ∧ lX' = lX := by
  unfold updateToken
  simp only [returns_bind, returns_stopIf, returns_get, returns_pure, Nat.not_lt]
  constructor
  · rintro ⟨-, s, ⟨h, rfl⟩, s, t, ⟨rfl, rfl⟩, rfl, rfl⟩
    exact ⟨h, rfl, rfl⟩
  · rintro ⟨h, rfl, rfl⟩
    exact ⟨(), lX', ⟨h, rfl⟩, lX', lX', ⟨rfl, rfl⟩, rfl, rfl⟩

theorem stepwise_closeStrExpr {r : TokenKind × Token} : Stepwise (closeStrExpr r start pos) := by
  refine stepwise_bind stepwise_get fun lX => relates_ite stepwise_updateToken (relates_of_returns fun s a s' h => ?_)
  obtain ⟨next, t, hnext, hset⟩ := returns_bind.mp h
  obtain ⟨u, w, hmod, hend⟩ := returns_bind.mp hset
  obtain ⟨-, rfl, rfl⟩ := returns_updateToken.mp hnext
  obtain rfl := returns_modify.mp hmod
  obtain ⟨rfl, rfl⟩ := returns_pure.mp hend
  exact .single (.next _ (.inr rfl))

theorem stepwise_tokString : Stepwise (tokString tok start pos fuel) :=
  stepwise_bind stepwise_get fun _ => stepwise_bind stepwise_stringLoop fun _ => stepwise_bind stepwise_get fun _ =>
    relates_ite stepwise_unterminatedString <| stepwise_bind stepwise_advance fun _ =>
    stepwise_bind (stepwise_bind stepwise_get fun _ => relates_ite stepwise_updateToken stepwise_pure) fun _ =>
    relates_ite stepwise_closeStrExpr stepwise_pure

/-! ### Numbers -/

theorem stepwise_setNumber {text : List U8} {r : Strto} : Stepwise (setNumber tok kind start pos text r fmt) :=
  stepwise_bind (stepwise_modify fun lX => .erange lX (lX.erange || r.erange)) fun _ =>
    stepwise_bind stepwise_get fun _ => relates_ite (stepwise_bind stepwise_error fun _ => stepwise_pure) stepwise_updateToken

theorem stepwise_parseInteger {base : Nat} : Stepwise (parseInteger tok start pos base) :=
  stepwise_bind stepwise_get fun _ => stepwise_bind stepwise_stopIf fun _ => stepwise_setNumber

theorem stepwise_tokFloatingPoint {strtod : Strtod} : Stepwise (tokFloatingPoint strtod tok start pos fuel) :=
  stepwise_bind stepwise_peek fun _ => stepwise_bind stepwise_stopIf fun _ => stepwise_bind stepwise_advance fun _ =>
    stepwise_bind stepwise_peek fun _ => stepwise_bind stepwise_advanceIf fun _ => stepwise_bind stepwise_peek fun _ =>
    relates_ite (stepwise_bind stepwise_get fun _ => stepwise_bind stepwise_error fun _ => stepwise_pure) <|
    stepwise_bind stepwise_eatWhile fun _ => stepwise_bind stepwise_get fun _ => stepwise_bind stepwise_stopIf fun _ =>
    stepwise_setNumber

theorem stepwise_tokBinaryNumber : Stepwise (tokBinaryNumber tok fuel) :=
  stepwise_bind stepwise_get fun _ => stepwise_bind stepwise_advance fun _ => stepwise_bind stepwise_advanceWhile fun _ =>
    stepwise_bind stepwise_get fun _ => relates_ite
      (stepwise_bind stepwise_eatWhile fun _ => stepwise_bind stepwise_get fun _ => stepwise_bind stepwise_error fun _ => stepwise_pure)
      stepwise_parseInteger

theorem stepwise_tokHexNumber {strtod : Strtod} : Stepwise (tokHexNumber strtod tok fuel) :=
  stepwise_bind stepwise_get fun _ => stepwise_bind stepwise_advance fun _ => stepwise_bind stepwise_advanceWhile fun _ =>
    stepwise_bind stepwise_peek fun _ => relates_ite stepwise_tokFloatingPoint stepwise_parseInteger

theorem stepwise_tokOctalNumber {strtod : Strtod} : Stepwise (tokOctalNumber strtod tok fuel) :=
  stepwise_bind stepwise_get fun _ => stepwise_bind stepwise_advanceWhile fun _ => stepwise_bind stepwise_peek fun _ =>
    relates_ite (stepwise_bind stepwise_advanceWhile fun _ => stepwise_bind stepwise_peek fun _ =>
      relates_ite stepwise_tokFloatingPoint <|
      stepwise_bind stepwise_get fun _ => stepwise_bind stepwise_error fun _ => stepwise_pure) stepwise_parseInteger

theorem stepwise_tokDecimalNumber {strtod : Strtod} : Stepwise (tokDecimalNumber strtod tok fuel) :=
  stepwise_bind stepwise_get fun _ => stepwise_bind stepwise_advanceWhile fun _ => stepwise_bind stepwise_peek fun _ =>
    relates_ite stepwise_tokFloatingPoint stepwise_parseInteger

theorem stepwise_tokNumber {strtod : Strtod} : Stepwise (tokNumber strtod tok fuel) :=
  stepwise_bind stepwise_get fun _ => relates_ite
    (relates_ite stepwise_tokHexNumber <| relates_ite stepwise_tokBinaryNumber <|
      relates_ite (stepwise_bind stepwise_advance fun _ => stepwise_tokFloatingPoint) stepwise_tokOctalNumber)
    stepwise_tokDecimalNumber

/-! ### Identifiers and comments -/

theorem stepwise_tokIdent : Stepwise (tokIdent tok fuel) := by
  refine stepwise_bind stepwise_get fun _ => stepwise_bind stepwise_advanceWhile fun _ => stepwise_bind stepwise_get fun _ =>
    stepwise_bind stepwise_ofOption fun kw => ?_
  cases kw with
  | none => exact stepwise_updateToken
  | some kw => exact stepwise_updateToken

theorem stepwise_commentLoop {isMultiLine : Bool} {c : U8} : Stepwise (commentLoop isMultiLine fuel c) :=
  stepwise_iterate (fun _ => relates_ite stepwise_pure <| stepwise_bind stepwise_peek fun _ =>
    stepwise_bind stepwise_advance fun _ => relates_ite stepwise_pure <| stepwise_bind stepwise_peek fun _ =>
    relates_ite (stepwise_bind stepwise_advance fun _ => relates_ite stepwise_pure stepwise_pure) stepwise_pure) fuel (c, 1)

theorem stepwise_tokComment : Stepwise (tokComment tok fuel) :=
  stepwise_bind stepwise_get fun _ => stepwise_bind stepwise_advance fun _ => stepwise_bind stepwise_peek fun _ =>
    stepwise_bind stepwise_advance fun _ => stepwise_bind stepwise_commentLoop fun _ => stepwise_bind stepwise_get fun _ =>
    relates_ite (stepwise_bind stepwise_get fun _ => stepwise_bind stepwise_error fun _ => stepwise_pure) stepwise_updateToken

/-! ### Tokens -/

theorem stepwise_tokLexeme {strtod : Strtod} {lX : Lexer} (x : Lexeme) : Stepwise (tokLexeme strtod fuel tok lX x) := by
  cases x with
  | add kind n => exact stepwise_bind stepwise_advance fun _ => stepwise_updateToken
  | addThree kind => exact stepwise_bind stepwise_advance fun _ => stepwise_bind stepwise_advance fun _ => stepwise_updateToken
  | comment => exact stepwise_tokComment
  | strEnd => exact stepwise_bind stepwise_advance fun _ => stepwise_tokString
  | string => exact stepwise_bind stepwise_advance fun _ => stepwise_tokString
  | char => exact stepwise_tokChar
  | strExpr =>
    exact stepwise_bind (stepwise_modify fun lX => .inStrExpr lX true) fun _ => stepwise_bind stepwise_advance fun _ =>
      stepwise_updateToken
  | ident => exact stepwise_tokIdent
  | number => exact stepwise_tokNumber
  | eof => exact stepwise_pure
  | error => exact stepwise_bind stepwise_advance fun _ => stepwise_bind stepwise_error fun _ => stepwise_pure

theorem stepwise_tokenize {strtod : Strtod} : Stepwise (tokenize strtod fuel tok) :=
  stepwise_bind stepwise_get fun _ => stepwise_tokLexeme _

theorem returns_newline {lX s s' : Lexer} {r : TokenKind × Token} (h : Returns (newline lX tok) s r s') :
    s' = s ∧ (r.2.kind = tok.kind ∨ r.2.kind = .tokNl) := by
  unfold newline at h
  split at h
  · obtain ⟨-, rfl, rfl⟩ := returns_updateToken.mp h
    exact ⟨rfl, .inr rfl⟩
  · obtain ⟨rfl, rfl⟩ := returns_pure.mp h
    exact ⟨rfl, .inl rfl⟩

theorem stepwise_skipSpace : Stepwise (skipSpace tok fuel) := by
  refine stepwise_iterate (fun out => relates_of_returns fun lX x lX' h => ?_) fuel tok
  obtain ⟨s, t, hget, hpass⟩ := returns_bind.mp h
  obtain ⟨rfl, rfl⟩ := returns_get.mp hget
  split at hpass
  · rename_i hc
    obtain ⟨r, w, hnl, hrest⟩ := returns_bind.mp hpass
    obtain ⟨u, v, hstep, hend⟩ := returns_bind.mp hrest
    obtain ⟨rfl, rfl⟩ := returns_pure.mp hend
    obtain rfl := returns_modify.mp hstep
    obtain ⟨rfl, -⟩ := returns_newline hnl
    exact .single (.step hc.1)
  · obtain ⟨rfl, rfl⟩ := returns_pure.mp hpass
    exact .refl

/-- A pass of the loop of `Lexer_next`: it returns a token, or an error is in the log. -/
def round (strtod : Strtod) (fuel : Nat) : LexM (Pass Unit (TokenKind × Token)) := do
  let lX ← get
  let zero : Token := { kind := .tokEoF, range := { start := 0, stop := 0, source := [] } }
  let out ← updateToken zero .tokCOUNT lX.idx lX.idx lX.pos
  if lX.next.kind ≠ .tokCOUNT then do
    modify fun lX => { lX with next := { lX.next with kind := .tokCOUNT } }
    return .done (lX.next.kind, lX.next)
  else do
    let out ← skipSpace out.2 fuel
    if out.kind ≠ .tokCOUNT then return .done (out.kind, out)
    else do
      let r ← tokenize strtod fuel out
      if r.1 = .tokCOUNT then return .again () else return .done r

theorem next_eq (strtod : Strtod) (fuel : Nat) : next strtod fuel = iterate .fuel (fun _ => round strtod fuel) fuel () := rfl

theorem stepwise_round {strtod : Strtod} : Stepwise (round strtod fuel) := by
  refine stepwise_bind stepwise_get fun lX => stepwise_bind stepwise_updateToken fun out =>
    relates_ite (stepwise_bind (stepwise_modify fun lX => .next lX (.inl rfl)) fun _ => stepwise_pure) <|
    stepwise_bind stepwise_skipSpace fun out => relates_ite stepwise_pure <| stepwise_bind stepwise_tokenize fun r =>
    relates_ite stepwise_pure stepwise_pure

theorem stepwise_next {strtod : Strtod} : Stepwise (next strtod fuel) :=
  stepwise_iterate (fun _ => stepwise_round) fuel ()

end LexM

/-! ### Runs -/

/-- A lexer after `Lexer_init` and some calls of `Lexer_next`. -/
inductive Lexer.Reaches (strtod : LexM.Strtod) (src : List U8) : Lexer → Prop
  | init (log : Log) (erange : Bool) : Reaches strtod src (init log erange src)
  | next {lX lX' : Lexer} {r : TokenKind × Token} {fuel : Nat} (h : Reaches strtod src lX)
      (hr : Returns (LexM.next strtod fuel) lX r lX') : Reaches strtod src lX'

theorem Lexer.Reaches.inStep {strtod : LexM.Strtod} {src : List U8} {lX : Lexer} (h : Reaches strtod src lX) :
    InStep src lX := by
  induction h with
  | init log erange => exact inStep_init log erange
  | next _ hr ih => exact (LexM.stepwise_next.forward.of_returns hr src ih).1

/-- A lexer before a pass of the loop of `Lexer_next`, in one of its calls after `Lexer_init`. -/
inductive Lexer.Visits (strtod : LexM.Strtod) (src : List U8) : Lexer → Prop
  | init (log : Log) (erange : Bool) : Visits strtod src (init log erange src)
  | round {lX lX' : Lexer} {pass : Pass Unit (TokenKind × Token)} {fuel : Nat} (h : Visits strtod src lX)
      (hr : Returns (LexM.round strtod fuel) lX pass lX') : Visits strtod src lX'

theorem Lexer.Visits.of_iterate {strtod : LexM.Strtod} {src : List U8} {lX lX' : Lexer} {r : TokenKind × Token}
    {fuel n : Nat} (h : Visits strtod src lX)
    (hr : Returns (iterate .fuel (fun _ => LexM.round strtod fuel) n ()) lX r lX') : Visits strtod src lX' := by
  induction n generalizing lX with
  | zero => exact absurd hr returns_stop
  | succ n ih =>
    obtain ⟨pass, t, hpass, hrest⟩ := returns_bind.mp hr
    cases pass with
    | again u => exact ih (h.round hpass) hrest
    | done r =>
      obtain ⟨-, rfl⟩ := returns_pure.mp hrest
      exact h.round hpass

/-- Every call begins with a pass. -/
theorem Lexer.Reaches.visits {strtod : LexM.Strtod} {src : List U8} {lX : Lexer} (h : Reaches strtod src lX) :
    Visits strtod src lX := by
  induction h with
  | init log erange => exact .init log erange
  | next _ hr ih => exact ih.of_iterate (LexM.next_eq .. ▸ hr)

theorem Lexer.Visits.inStep {strtod : LexM.Strtod} {src : List U8} {lX : Lexer} (h : Visits strtod src lX) : InStep src lX := by
  induction h with
  | init log erange => exact inStep_init log erange
  | round _ hr ih => exact (LexM.stepwise_round.forward.of_returns hr src ih).1

end Cyntatic
