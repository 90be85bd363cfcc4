import Cyntatic.Theorems.Keywords
import Cyntatic.Theorems.LexerMoves

/-! The range of a token starts where the lexer stood, with the line and the column of that index. -/

namespace Cyntatic
open Library Prog

namespace LexM
open Lexer

/-! ### Where tokens start -/

/-- A token of the kind that is returned, which is not the end of the input, starts at an index, with its position. -/
def Marked (start : Nat) (pos : LineColumn) (r : TokenKind × Token) : Prop :=
  r.1 = .tokCOUNT ∨ (r.2.kind = r.1 ∧ r.1 ≠ .tokEoF) ∧ r.2.range.start = start ∧ r.2.range.coord = pos

/-- A computation whose token starts where the lexer stands. -/
def MarksHere (m : LexM (TokenKind × Token)) : Prop := ∀ lX r lX', Returns m lX r lX' → Marked lX.idx lX.pos r

variable {tok : Token} {kind : TokenKind} {start stop : Nat} {pos : LineColumn} {fuel : Nat} {strtod : Strtod}

theorem marksHere_get {f : Lexer → LexM (TokenKind × Token)} (h : ∀ lX, Gives (Marked lX.idx lX.pos) (f lX)) :
    MarksHere (get >>= f) := by
  rintro lX r lX' hr
  obtain ⟨s, t, hget, hf⟩ := returns_bind.mp hr
  obtain ⟨rfl, rfl⟩ := returns_get.mp hget
  exact h _ _ _ _ hf

theorem gives_none : Gives (Marked start pos) (pure (.tokCOUNT, tok) : LexM (TokenKind × Token)) := gives_pure (.inl rfl)

theorem gives_updateToken (hkind : kind ≠ .tokEoF) : Gives (Marked start pos) (updateToken tok kind start stop pos) := by
  rintro s r s' hr
  obtain ⟨-, rfl, -⟩ := returns_updateToken.mp hr
  exact .inr ⟨⟨rfl, hkind⟩, rfl, rfl⟩

theorem gives_closeStrExpr {r : TokenKind × Token} (hr : Marked start pos r) : Gives (Marked start pos) (closeStrExpr r start pos) :=
  gives_bind fun _ => gives_ite (gives_updateToken (by decide)) (gives_bind fun _ => gives_bind fun _ => gives_pure hr)

theorem gives_tokString : Gives (Marked start pos) (tokString tok start pos fuel) :=
  gives_bind fun _ => gives_bind fun _ => gives_bind fun _ => gives_ite
    (gives_bind fun _ => gives_bind fun _ => gives_bind fun _ => gives_bind fun _ => gives_bind fun _ => gives_none) <|
    gives_bind fun _ => gives_bind_of (gives_bind fun _ => gives_ite (gives_updateToken (by decide)) gives_none) fun _ hr =>
    gives_ite (gives_closeStrExpr hr) (gives_pure hr)

theorem gives_setNumber {text : List U8} {r : Strto} {fmt : String} (hkind : kind ≠ .tokEoF) :
    Gives (Marked start pos) (setNumber tok kind start pos text r fmt) :=
  gives_bind fun _ => gives_bind fun _ => gives_ite (gives_bind fun _ => gives_none) (gives_updateToken hkind)

theorem gives_parseInteger {base : Nat} : Gives (Marked start pos) (parseInteger tok start pos base) :=
  gives_bind fun _ => gives_bind fun _ => gives_setNumber (by decide)

theorem gives_tokFloatingPoint : Gives (Marked start pos) (tokFloatingPoint strtod tok start pos fuel) :=
  gives_bind fun _ => gives_bind fun _ => gives_bind fun _ => gives_bind fun _ => gives_bind fun _ => gives_bind fun _ =>
    gives_ite (gives_bind fun _ => gives_bind fun _ => gives_none)
      (gives_bind fun _ => gives_bind fun _ => gives_bind fun _ => gives_setNumber (by decide))

theorem marksHere_tokBinaryNumber : MarksHere (tokBinaryNumber tok fuel) :=
  marksHere_get fun _ => gives_bind fun _ => gives_bind fun _ => gives_bind fun _ =>
    gives_ite (gives_bind fun _ => gives_bind fun _ => gives_bind fun _ => gives_none) gives_parseInteger

theorem marksHere_tokHexNumber : MarksHere (tokHexNumber strtod tok fuel) :=
  marksHere_get fun _ => gives_bind fun _ => gives_bind fun _ => gives_bind fun _ =>
    gives_ite gives_tokFloatingPoint gives_parseInteger

theorem marksHere_tokOctalNumber : MarksHere (tokOctalNumber strtod tok fuel) :=
  marksHere_get fun _ => gives_bind fun _ => gives_bind fun _ => gives_ite
    (gives_bind fun _ => gives_bind fun _ => gives_ite gives_tokFloatingPoint (gives_bind fun _ => gives_bind fun _ => gives_none))
    gives_parseInteger

theorem marksHere_tokDecimalNumber : MarksHere (tokDecimalNumber strtod tok fuel) :=
  marksHere_get fun _ => gives_bind fun _ => gives_bind fun _ => gives_ite gives_tokFloatingPoint gives_parseInteger

theorem marksHere_tokNumber : MarksHere (tokNumber strtod tok fuel) := by
  rintro lX r lX' hr
  obtain ⟨s, t, hget, hnum⟩ := returns_bind.mp hr
  obtain ⟨rfl, rfl⟩ := returns_get.mp hget
  dsimp only at hnum
  split at hnum
  · split at hnum
    · exact marksHere_tokHexNumber _ _ _ hnum
    · split at hnum
      · exact marksHere_tokBinaryNumber _ _ _ hnum
      · split at hnum
        · exact gives_bind (fun _ => gives_tokFloatingPoint) _ _ _ hnum
        · exact marksHere_tokOctalNumber _ _ _ hnum
  · exact marksHere_tokDecimalNumber _ _ _ hnum

theorem marksHere_tokChar : MarksHere (tokChar tok fuel) :=
  marksHere_get fun _ => gives_bind fun _ => gives_bind fun _ => gives_bind fun _ => gives_bind fun _ => gives_ite
    (gives_bind fun _ => gives_bind fun _ => gives_ite
      (gives_bind fun _ => gives_bind fun _ => gives_bind fun _ => gives_none)
      (gives_bind fun _ => gives_bind fun _ => gives_none))
    (gives_bind fun _ => gives_updateToken (by decide))

theorem gives_keyword {w : List U8} :
    Gives (fun kw => kw ≠ some .tokEoF) (ofOption .overflow (sKeyWordList.get w) : LexM (Option TokenKind)) := by
  rintro s kw s' hr rfl
  exact get_ne_eof (returns_ofOption.mp hr).1

theorem marksHere_tokIdent : MarksHere (tokIdent tok fuel) := by
  refine marksHere_get fun lX => gives_bind fun _ => gives_bind fun _ => gives_bind_of gives_keyword fun kw hkw => ?_
  cases kw with
  | none => exact gives_updateToken (by decide)
  | some kw => exact gives_updateToken fun h => hkw (congrArg some h)

theorem marksHere_tokComment : MarksHere (tokComment tok fuel) :=
  marksHere_get fun _ => gives_bind fun _ => gives_bind fun _ => gives_bind fun _ => gives_bind fun _ => gives_bind fun _ =>
    gives_ite (gives_bind fun _ => gives_bind fun _ => gives_none) (gives_updateToken (by decide))

theorem kind_lexeme {c cc ccc : U8} {b : Bool} {n : Nat} :
    lexeme c cc ccc b ≠ .add .tokEoF n ∧ lexeme c cc ccc b ≠ .addThree .tokEoF := by
  unfold lexeme ifElse ifElse2
  split <;> (try split_ifs) <;> simp

theorem marked_tokLexeme {lX lX' : Lexer} {r : TokenKind × Token} {x : Lexeme} (hx : x ≠ .eof)
    (hadd : ∀ n, x ≠ .add .tokEoF n ∧ x ≠ .addThree .tokEoF)
    (hr : Returns (tokLexeme strtod fuel tok lX x) lX r lX') : Marked lX.idx lX.pos r := by
  cases x with
  | add kind n => exact gives_bind (fun _ => gives_updateToken fun h => (hadd n).1 (by rw [h])) _ _ _ hr
  | addThree kind =>
    exact gives_bind (fun _ => gives_bind fun _ => gives_updateToken fun h => (hadd 0).2 (by rw [h])) _ _ _ hr
  | comment => exact marksHere_tokComment _ _ _ hr
  | strEnd => exact gives_bind (fun _ => gives_tokString) _ _ _ hr
  | string => exact gives_bind (fun _ => gives_tokString) _ _ _ hr
  | char => exact marksHere_tokChar _ _ _ hr
  | strExpr => exact gives_bind (fun _ => gives_bind fun _ => gives_updateToken (by decide)) _ _ _ hr
  | ident => exact marksHere_tokIdent _ _ _ hr
  | number => exact marksHere_tokNumber _ _ _ hr
  | eof => exact absurd rfl hx
  | error => exact gives_bind (fun _ => gives_bind fun _ => gives_none) _ _ _ hr

theorem marked_tokenize {lX lX' : Lexer} {r : TokenKind × Token} (hr : Returns (tokenize strtod fuel tok) lX r lX') :
    (r = (.tokEoF, tok) ∧ lX' = lX ∧ lexeme (lX.peek 0) (lX.peek 1) (lX.peek 2) lX.inStrExpr = .eof) ∨
      Marked lX.idx lX.pos r := by
  obtain ⟨s, t, hget, hlex⟩ := returns_bind.mp hr
  obtain ⟨rfl, rfl⟩ := returns_get.mp hget
  by_cases hx : lexeme (t.peek 0) (t.peek 1) (t.peek 2) t.inStrExpr = .eof
  · rw [hx] at hlex
    obtain ⟨hr, hlX⟩ := returns_pure.mp hlex
    exact .inl ⟨hr, hlX, hx⟩
  · exact .inr (marked_tokLexeme hx (fun _ => kind_lexeme) hlex)

/-! ### The token that a call returns -/

theorem kind_skipSpace {lX lX' : Lexer} {out : Token} (hk : tok.kind = .tokCOUNT)
    (hr : Returns (skipSpace tok fuel) lX out lX') : out.kind = .tokCOUNT ∨ out.kind = .tokNl := by
  refine returns_iterate (I := fun (out : Token) _ => out.kind = .tokCOUNT ∨ out.kind = .tokNl)
    (Q := fun (out : Token) _ => out.kind = .tokCOUNT ∨ out.kind = .tokNl) ?_ (.inl hk) hr
  rintro out s x s' hI hpass
  obtain ⟨t, u, hget, hrest⟩ := returns_bind.mp hpass
  obtain ⟨rfl, rfl⟩ := returns_get.mp hget
  split at hrest
  · obtain ⟨nl, u, hnl, hmod⟩ := returns_bind.mp hrest
    obtain ⟨v, w, -, hend⟩ := returns_bind.mp hmod
    obtain ⟨rfl, -⟩ := returns_pure.mp hend
    change nl.2.kind = .tokCOUNT ∨ nl.2.kind = .tokNl
    rcases (returns_newline hnl).2 with heq | heq
    · rw [heq]
      exact hI
    · exact .inr heq
  · obtain ⟨rfl, -⟩ := returns_pure.mp hrest
    exact hI

theorem position_next {src : List U8} {lX lX' : Lexer} {r : TokenKind × Token} (h : InStep src lX)
    (hr : Returns (next strtod fuel) lX r lX') :
    r.1 = .tokNl ∨ r.1 = .tokEoF ∨ r.1 = .tokRStrExpr ∨ r.2.range.coord = position src r.2.range.start := by
  refine returns_iterate (I := fun _ => InStep src) (Q := fun (r : TokenKind × Token) _ =>
    r.1 = .tokNl ∨ r.1 = .tokEoF ∨ r.1 = .tokRStrExpr ∨ r.2.range.coord = position src r.2.range.start) ?_ h hr
  rintro u s x s' hs hpass
  obtain ⟨t, v, hget, hrest⟩ := returns_bind.mp hpass
  obtain ⟨rfl, rfl⟩ := returns_get.mp hget
  obtain ⟨out, v, hout, hnext⟩ := returns_bind.mp hrest
  obtain ⟨-, rfl, rfl⟩ := returns_updateToken.mp hout
  split at hnext
  · -- the token that the call before has kept
    rename_i hk
    obtain ⟨v, w, -, hend⟩ := returns_bind.mp hnext
    obtain ⟨rfl, -⟩ := returns_pure.mp hend
    exact .inr (.inr (.inl (hs.next.resolve_left hk)))
  · obtain ⟨nl, w, hskip, htok⟩ := returns_bind.mp hnext
    have hw := (stepwise_skipSpace.forward.of_returns hskip src hs).1
    split at htok
    · rename_i hk
      obtain ⟨rfl, -⟩ := returns_pure.mp htok
      exact .inl ((kind_skipSpace rfl hskip).resolve_left hk)
    · obtain ⟨r, v, hlex, hend⟩ := returns_bind.mp htok
      have hv := (stepwise_tokenize.forward.of_returns hlex src hw).1
      split at hend
      · obtain ⟨rfl, rfl⟩ := returns_pure.mp hend
        exact hv
      · rename_i hcount
        obtain ⟨rfl, rfl⟩ := returns_pure.mp hend
        rcases marked_tokenize hlex with ⟨heof, -⟩ | hcnt | ⟨-, hstart, hcoord⟩
        · exact .inr (.inl (congrArg Prod.fst heof))
        · exact absurd hcnt hcount
        · exact .inr (.inr (.inr (by rw [hstart, hcoord, hw.pos_eq])))

end LexM

/-- In every state of the lexer the position is that of the index, and so is that of a token that it returns. -/
theorem Lexer.run_positions {strtod : LexM.Strtod} {src : List U8} {lX : Lexer} (h : Reaches strtod src lX) :
    lX.pos = position src lX.idx ∧
      ∀ fuel kind tok lX', Returns (LexM.next strtod fuel) lX (kind, tok) lX' →
        kind ≠ .tokNl → kind ≠ .tokEoF → kind ≠ .tokRStrExpr → tok.range.coord = position src tok.range.start := by
  refine ⟨h.inStep.pos_eq, fun fuel kind tok lX' hr hnl heof hstr => ?_⟩
  rcases LexM.position_next h.inStep hr with hk | hk | hk | hpos
  · exact absurd hk hnl
  · exact absurd hk heof
  · exact absurd hk hstr
  · exact hpos

/-- After the newline of a source and the identifier behind it. -/
theorem Lexer.run_positions_two :
    ∃ lX, Reaches (fun _ => ⟨0, false, 0⟩) (ascii ['\n', ' ', 'x', '+']) lX ∧ lX.idx = 3 ∧ lX.pos = { line := 1, column := 2 } := by
  obtain ⟨r, lX, hnl, hlX⟩ := Prog.exists_of_passes (m := LexM.next (fun _ => ⟨0, false, 0⟩) 4)
    (s := init {} false (ascii ['\n', ' ', 'x', '+']))
    (p := fun _ lX => lX = { init {} false (ascii ['\n', ' ', 'x', '+']) with idx := 2, pos := ⟨1, 1⟩ }) (by decide +kernel)
  obtain ⟨r', lX', hid, hidx⟩ := Prog.exists_of_passes (m := LexM.next (fun _ => ⟨0, false, 0⟩) 4) (s := lX)
    (p := fun _ lX => lX.idx = 3) (by rw [of_decide_eq_true hlX]; decide +kernel)
  have hreach := ((Reaches.init {} false).next hnl).next hid
  refine ⟨lX', hreach, of_decide_eq_true hidx, ?_⟩
  rw [(run_positions hreach).1, of_decide_eq_true hidx]
  decide

end Cyntatic
