import Mathlib.Data.List.Chain
import Cyntatic.Theorems.LexerFaults
import Cyntatic.Theorems.LexerPositions

/-! # What the tokens cover

The range of a comment, a string, a word or a number is the text that the lexer has gone past. The range of an operator is
empty, and that of a character literal ends before its quote: the macros of `Lexer_tokenize` take the end of the range from
`Lexer_advance`, which returns the index before it. -/

namespace Cyntatic
open Library Prog

namespace LexM
open Lexer

variable {src : List U8} {lX lX' : Lexer} {k n fuel start stop : Nat} {tok : Token} {kind : TokenKind} {pos : LineColumn}
  {range : Range} {fmt : String} {args : List DiagnosticArg} {strtod : Strtod} {r : TokenKind × Token}

/-! ### Errors stay in the log -/

theorem prefix_of_change (h : Change lX lX') : lX.log.errors <+: lX'.log.errors := by
  cases h with
  | error d => exact ⟨_, rfl⟩
  | advance => exact List.prefix_rfl
  | step => exact List.prefix_rfl
  | warn => exact List.prefix_rfl
  | inStrExpr => exact List.prefix_rfl
  | erange => exact List.prefix_rfl
  | next => exact List.prefix_rfl

theorem prefix_of_changes (h : Changes lX lX') : lX.log.errors <+: lX'.log.errors := by
  induction h with
  | refl => exact List.prefix_rfl
  | tail _ hchange ih => exact ih.trans (prefix_of_change hchange)

theorem clean_of_changes (h : Changes lX lX') (hclean : lX'.log.errors = []) : lX.log.errors = [] :=
  List.prefix_nil.mp (hclean ▸ prefix_of_changes h)

/-! ### Where tokens end -/

/-- There is a token that ends `k` characters before the lexer, or an error in the log. -/
def Settled (k : Nat) (r : TokenKind × Token) (lX : Lexer) : Prop :=
  if r.1 = .tokCOUNT then lX.log.errors ≠ [] else r.2.range.stop + k = lX.idx

def Settles (k : Nat) (m : LexM (TokenKind × Token)) : Prop := ∀ lX r lX', Returns m lX r lX' → Settled k r lX'

theorem settles_bind {α : Type} {m : LexM α} {f : α → LexM (TokenKind × Token)} (hf : ∀ a, Settles k (f a)) : Settles k (m >>= f) := by
  intro lX r lX' hr
  obtain ⟨a, t, -, hrest⟩ := returns_bind.mp hr
  exact hf a t r lX' hrest

theorem settles_get {f : Lexer → LexM (TokenKind × Token)} (h : ∀ lX r lX', Returns (f lX) lX r lX' → Settled k r lX') :
    Settles k (get >>= f) := by
  intro lX r lX' hr
  obtain ⟨s, t, hget, hrest⟩ := returns_bind.mp hr
  obtain ⟨rfl, rfl⟩ := returns_get.mp hget
  exact h _ _ _ hrest

theorem settles_ite {c : Prop} [Decidable c] {m m' : LexM (TokenKind × Token)} (hm : Settles k m) (hm' : Settles k m') :
    Settles k (if c then m else m') := by
  split
  · exact hm
  · exact hm'

/-- An error, and then no token. -/
theorem settles_error {f : Unit → LexM (TokenKind × Token)} (hstep : Stepwise (f ())) (hcount : Gives (·.1 = .tokCOUNT) (f ())) :
    Settles k (error range fmt args >>= f) := by
  intro lX r lX' hr
  obtain ⟨u, t, herror, hrest⟩ := returns_bind.mp hr
  obtain rfl := returns_modify.mp herror
  refine (if_pos (hcount _ _ _ hrest)).mpr fun hnil => ?_
  have hclean := clean_of_changes (hstep.of_returns hrest) hnil
  exact List.append_ne_nil_of_right_ne_nil _ (List.cons_ne_nil _ _) hclean

theorem settles_none : Settles k (error range fmt args >>= fun _ => pure (.tokCOUNT, tok)) :=
  settles_error stepwise_pure (gives_pure rfl)

theorem settled_updateToken (hkind : kind ≠ .tokCOUNT) (hstop : stop + k = lX.idx)
    (hr : Returns (updateToken tok kind start stop pos) lX r lX') : Settled k r lX' := by
  obtain ⟨-, rfl, rfl⟩ := returns_updateToken.mp hr
  exact (if_neg hkind).mpr hstop

/-- A token up to the index of the lexer, unless there is an error. -/
theorem settles_here {c : Lexer → Prop} [∀ lX, Decidable (c lX)] {m : Lexer → LexM (TokenKind × Token)}
    {p : Lexer → LineColumn} (hm : ∀ lX, Settles 0 (m lX)) (hkind : kind ≠ .tokCOUNT) :
    Settles 0 (get >>= fun lX => if c lX then m lX else updateToken tok kind start lX.idx (p lX)) := by
  refine settles_get fun lX r lX' hr => ?_
  split at hr
  · exact hm lX _ _ _ hr
  · exact settled_updateToken hkind (Nat.add_zero _) hr

theorem settles_setNumber {text : List U8} {x : Strto} (hkind : kind ≠ .tokCOUNT) :
    Settles 0 (setNumber tok kind start pos text x fmt) :=
  settles_bind fun _ => settles_here (fun _ => settles_none) hkind

theorem settles_parseInteger {base : Nat} : Settles 0 (parseInteger tok start pos base) :=
  settles_bind fun _ => settles_bind fun _ => settles_setNumber (by decide)

theorem settles_tokFloatingPoint : Settles 0 (tokFloatingPoint strtod tok start pos fuel) :=
  settles_bind fun _ => settles_bind fun _ => settles_bind fun _ => settles_bind fun _ => settles_bind fun _ =>
    settles_bind fun _ => settles_ite (settles_bind fun _ => settles_none)
      (settles_bind fun _ => settles_bind fun _ => settles_bind fun _ => settles_setNumber (by decide))

theorem settles_tokBinaryNumber : Settles 0 (tokBinaryNumber tok fuel) :=
  settles_bind fun _ => settles_bind fun _ => settles_bind fun _ => settles_bind fun _ =>
    settles_ite (settles_bind fun _ => settles_bind fun _ => settles_none) settles_parseInteger

theorem settles_tokHexNumber : Settles 0 (tokHexNumber strtod tok fuel) :=
  settles_bind fun _ => settles_bind fun _ => settles_bind fun _ => settles_bind fun _ =>
    settles_ite settles_tokFloatingPoint settles_parseInteger

theorem settles_tokOctalNumber : Settles 0 (tokOctalNumber strtod tok fuel) :=
  settles_bind fun _ => settles_bind fun _ => settles_bind fun _ => settles_ite
    (settles_bind fun _ => settles_bind fun _ => settles_ite settles_tokFloatingPoint (settles_bind fun _ => settles_none))
    settles_parseInteger

theorem settles_tokDecimalNumber : Settles 0 (tokDecimalNumber strtod tok fuel) :=
  settles_bind fun _ => settles_bind fun _ => settles_bind fun _ => settles_ite settles_tokFloatingPoint settles_parseInteger

theorem settles_tokNumber : Settles 0 (tokNumber strtod tok fuel) :=
  settles_bind fun _ => settles_ite
    (settles_ite settles_tokHexNumber <| settles_ite settles_tokBinaryNumber <|
      settles_ite (settles_bind fun _ => settles_tokFloatingPoint) settles_tokOctalNumber)
    settles_tokDecimalNumber

theorem settles_tokIdent : Settles 0 (tokIdent tok fuel) := by
  refine settles_bind fun lX => settles_bind fun _ => settles_get fun t r t' hr => ?_
  obtain ⟨kw, u, hkw, hset⟩ := returns_bind.mp hr
  obtain ⟨hget, rfl⟩ := returns_ofOption.mp hkw
  cases kw with
  | none => exact settled_updateToken (by decide) (Nat.add_zero _) hset
  | some kw =>
    refine settled_updateToken ?_ (Nat.add_zero _) hset
    rintro rfl
    exact get_notMem hget (by simp)

theorem settles_tokComment : Settles 0 (tokComment tok fuel) :=
  settles_bind fun _ => settles_bind fun _ => settles_bind fun _ => settles_bind fun _ => settles_bind fun _ =>
    settles_here (fun _ => settles_bind fun _ => settles_none) (by decide)

theorem settles_unterminatedString : Settles k (unterminatedString tok start pos fuel) :=
  settles_bind fun _ => settles_bind fun _ => settles_error
    (stepwise_bind stepwise_peek fun _ => stepwise_bind stepwise_advanceIf fun _ => stepwise_pure)
    (gives_bind fun _ => gives_bind fun _ => gives_pure rfl)

/-- A string outside of a string expression. -/
theorem settled_tokString (hexpr : lX.inStrExpr = false) (hr : Returns (tokString tok start pos fuel) lX r lX') : Settled 0 r lX' := by
  obtain ⟨s, t, hget, hrest⟩ := returns_bind.mp hr
  obtain ⟨rfl, rfl⟩ := returns_get.mp hget
  rw [hexpr] at hrest
  refine settles_bind (fun str => settles_bind fun _ => settles_ite settles_unterminatedString ?_) _ _ _ hrest
  refine settles_bind fun _ u r u' hset => ?_
  obtain ⟨r', v, htok, hend⟩ := returns_bind.mp hset
  rw [if_neg (by simp)] at hend
  obtain ⟨rfl, rfl⟩ := returns_pure.mp hend
  obtain ⟨s, w, hget, hupdate⟩ := returns_bind.mp htok
  obtain ⟨rfl, rfl⟩ := returns_get.mp hget
  rw [if_pos (by simp)] at hupdate
  exact settled_updateToken (by decide) (Nat.add_zero _) hupdate

theorem settles_unterminatedChar : Settles k (unterminatedChar tok start pos fuel) :=
  settles_bind fun _ => settles_bind fun _ => settles_ite
    (settles_bind fun _ => settles_bind fun _ => settles_none) (settles_bind fun _ => settles_none)

/-- The range of a character literal ends before the quote. -/
theorem settles_tokChar : Settles 1 (tokChar tok fuel) := by
  refine settles_bind fun _ => settles_bind fun _ => settles_bind fun _ => settles_bind fun _ => ?_
  intro lX r lX' hr
  obtain ⟨c, t, hpeek, hrest⟩ := returns_bind.mp hr
  obtain ⟨rfl, rfl⟩ := returns_peek.mp hpeek
  split at hrest
  · exact settles_unterminatedChar _ _ _ hrest
  · rename_i hquote
    obtain ⟨i, u, hadv, hupdate⟩ := returns_bind.mp hrest
    obtain ⟨rfl, rfl⟩ := returns_advance.mp hadv
    have hlt := @lt_length_of_peek 0 t (by rw [not_not.mp hquote]; decide)
    rw [Lexer.left, List.length_drop] at hlt
    refine settled_updateToken (by decide) ?_ hupdate
    simp only [Lexer.advance]
    omega

end LexM

/-! ### White space -/

namespace Lexer

/-- There is only white space from an index to another. -/
def Blank (src : List U8) (i j : Nat) : Prop := ∀ k, i ≤ k → k < j → isSpace (src.getD k eofChar) = true

theorem blank_self {src : List U8} {i : Nat} : Blank src i i := fun _ hle hlt => absurd hlt (Nat.not_lt.mpr hle)

theorem Blank.trans {src : List U8} {i j k : Nat} (h : Blank src i j) (h' : Blank src j k) : Blank src i k := by
  intro n hle hlt
  rcases Nat.lt_or_ge n j with hn | hn
  · exact h n hle hn
  · exact h' n hn hlt

theorem Blank.mono {src : List U8} {i j i' j' : Nat} (h : Blank src i j) (hi : i ≤ i') (hj : j' ≤ j) : Blank src i' j' :=
  fun n hle hlt => h n (Nat.le_trans hi hle) (Nat.lt_of_lt_of_le hlt hj)

theorem blank_lead {src : List U8} {lX : Lexer} (hs : InStep src lX) :
    Blank src lX.idx (lX.advance (lX.left.takeWhile isSpace).length).idx := by
  intro k hle hlt
  obtain ⟨i, rfl⟩ := Nat.exists_eq_add_of_le hle
  rw [hs.idx_advance (List.takeWhile_prefix isSpace).length_le] at hlt
  have hi : i < (lX.left.takeWhile isSpace).length := by omega
  rw [LexM.getD_left hs, ← @List.takeWhile_append_dropWhile _ isSpace lX.left, List.getD_eq_getElem?_getD,
    List.getElem?_append_left hi, List.getElem?_eq_getElem hi]
  exact List.mem_takeWhile_imp (List.getElem_mem hi)

/-- A pass of the loop of `Lexer_next`, with the lexer before it and after it. -/
structure Round where
  before : Lexer
  pass : Pass Unit (TokenKind × Token)
  after : Lexer

/-- A token has the text that a pass goes past, but for the white space before it. -/
structure Round.Exact (src : List U8) (s : Round) (kind : TokenKind) (tok : Token) : Prop where
  lead : s.before.idx ≤ tok.range.start ∧ Blank src s.before.idx tok.range.start
  lexeme : kind ≠ .tokNl → kind ≠ .tokEoF → tok.range.start < tok.range.stop ∧ tok.range.stop = s.after.idx
  rest : tok.range.stop ≤ s.after.idx ∧ Blank src tok.range.stop s.after.idx
  eof : kind = .tokEoF → s.after.idx = src.length

def Round.Covers (src : List U8) (s : Round) : Prop := ∃ kind tok, s.pass = .done (kind, tok) ∧ s.Exact src kind tok

/-- The token of a pass comes after that of another, with only white space between them. -/
def Round.Follows (src : List U8) (s t : Round) : Prop :=
  ∀ kind tok kind' tok', s.pass = .done (kind, tok) → t.pass = .done (kind', tok') →
    tok.range.stop ≤ tok'.range.start ∧ Blank src tok.range.stop tok'.range.start

end Lexer

namespace LexM
open Lexer

/-- The pieces of string expressions. -/
def Lexeme.IsPiece (inStrExpr : Bool) : Lexeme → Prop
  | .strExpr | .strEnd => True
  | .string => inStrExpr
  | _ => False

/-- The lexemes that have their text as their range, of which the text begins with one. -/
def Lexeme.Plain (text : List U8) : Lexeme → Prop
  | .comment | .string | .ident | .number => True
  | .addThree _ => text.length = 3
  | .eof => text = []
  | _ => False

end LexM

open LexM

/-- The next token is a piece of a string expression. -/
def Lexer.AtPiece (lX : Lexer) : Prop :=
  lX.next.kind ≠ .tokCOUNT ∨ chr '\n' ∉ lX.left.takeWhile isSpace ∧
    (lexemeOf (lX.left.dropWhile isSpace) lX.inStrExpr).IsPiece lX.inStrExpr

/-- The next token is a newline, a comment, a string, a word, a number, or one of the operators of three characters at the end
    of the source, or there is no other character. -/
def Lexer.Plain (lX : Lexer) : Prop :=
  chr '\n' ∈ lX.left.takeWhile isSpace ∨ (lexemeOf (lX.left.dropWhile isSpace) lX.inStrExpr).Plain (lX.left.dropWhile isSpace)

namespace LexM
open Lexer

variable {src : List U8} {lX lX' : Lexer} {n fuel : Nat} {tok : Token} {strtod : Strtod} {r : TokenKind × Token}
  {pass : Pass Unit (TokenKind × Token)}

/-! ### One pass -/

/-- The range of a newline is in the white space. -/
theorem range_skipSpace {out : Token} (hr : Returns (skipSpace tok fuel) lX out lX') :
    out = tok ∨ lX.idx ≤ out.range.start ∧ out.range.start = out.range.stop ∧ out.range.stop ≤ lX'.idx := by
  have hrun := returns_iterate (I := fun (out : Token) t => lX.idx ≤ t.idx ∧
      (out = tok ∨ lX.idx ≤ out.range.start ∧ out.range.start = out.range.stop ∧ out.range.stop ≤ t.idx))
    (Q := fun (out : Token) t => lX.idx ≤ t.idx ∧
      (out = tok ∨ lX.idx ≤ out.range.start ∧ out.range.start = out.range.stop ∧ out.range.stop ≤ t.idx)) ?_ ⟨Nat.le_refl _, .inl rfl⟩ hr
  · exact hrun.2
  rintro out s x s' ⟨hle, hI⟩ hpass
  obtain ⟨t, u, hget, hrest⟩ := returns_bind.mp hpass
  obtain ⟨rfl, rfl⟩ := returns_get.mp hget
  split at hrest
  · obtain ⟨nl, u, hnl, hmod⟩ := returns_bind.mp hrest
    obtain ⟨v, w, hstep, hend⟩ := returns_bind.mp hmod
    obtain ⟨rfl, rfl⟩ := returns_pure.mp hend
    obtain rfl := returns_modify.mp hstep
    unfold newline at hnl
    split at hnl
    · obtain ⟨-, rfl, rfl⟩ := returns_updateToken.mp hnl
      exact ⟨Nat.le_succ_of_le hle, .inr ⟨hle, rfl, Nat.le_succ _⟩⟩
    · obtain ⟨rfl, rfl⟩ := returns_pure.mp hnl
      exact ⟨Nat.le_succ_of_le hle, hI.imp_right fun h => ⟨h.1, h.2.1, Nat.le_succ_of_le h.2.2⟩⟩
  · obtain ⟨rfl, rfl⟩ := returns_pure.mp hrest
    exact ⟨hle, hI⟩

/-- What a pass does when no token is kept: a newline, or a lexeme. -/
theorem returns_round (hs : InStep src lX) (hfuel : src.length < fuel) (hnext : lX.next.kind = .tokCOUNT)
    (hr : Returns (round strtod fuel) lX pass lX') :
    (chr '\n' ∈ lX.left.takeWhile isSpace ∧ ∃ out, pass = .done (.tokNl, out) ∧
      lX' = lX.advance (lX.left.takeWhile isSpace).length ∧
      lX.idx ≤ out.range.start ∧ out.range.start = out.range.stop ∧ out.range.stop ≤ lX'.idx) ∨
    (chr '\n' ∉ lX.left.takeWhile isSpace ∧ ∃ r, pass = toPass r ∧ Returns (tokLexeme strtod fuel (emptyToken lX)
      (lX.advance (lX.left.takeWhile isSpace).length) (lexemeOf (lX.left.dropWhile isSpace) lX.inStrExpr))
      (lX.advance (lX.left.takeWhile isSpace).length) r lX') := by
  have hlen := hs.length_left
  have htake := (List.takeWhile_prefix isSpace (l := lX.left)).length_le
  obtain ⟨out, hskip, hout⟩ := @skipSpace_ends _ _ fuel (emptyToken lX) hs (by omega)
  have hbegin := (returns_bind_of_returns (returns_get.mpr ⟨rfl, rfl⟩)).mp hr
  have hrest := (returns_bind_of_returns (returns_updateToken.mpr ⟨Nat.le_refl _, rfl, rfl⟩)).mp hbegin
  rw [if_neg (not_not.mpr hnext)] at hrest
  have hlast := (returns_bind_of_returns hskip).mp hrest
  have hkind : (emptyToken lX).kind = .tokCOUNT := rfl
  by_cases hnl : chr '\n' ∈ lX.left.takeWhile isSpace
  · rw [if_pos ⟨rfl, hnl⟩] at hout
    rw [if_pos (by rw [hout]; decide)] at hlast
    obtain ⟨rfl, rfl⟩ := returns_pure.mp hlast
    refine .inl ⟨hnl, out, by rw [hout], rfl, (range_skipSpace hskip).resolve_left ?_⟩
    rintro rfl
    cases hkind.symm.trans hout
  · rw [if_neg fun h => hnl h.2] at hout
    subst hout
    rw [if_neg (not_not.mpr hkind)] at hlast
    obtain ⟨r, t, htok, hend⟩ := returns_bind.mp hlast
    obtain ⟨s, u, hget, hlex⟩ := returns_bind.mp htok
    obtain ⟨rfl, rfl⟩ := returns_get.mp hget
    have hleft : (lX.advance (lX.left.takeWhile isSpace).length).left = lX.left.dropWhile isSpace := left_takeWhile lX isSpace
    rw [peek_zero, peek_eq _ 1, peek_eq _ 2, hleft] at hlex
    refine .inr ⟨hnl, r, ?_⟩
    unfold toPass
    split at hend
    · rename_i hcount
      obtain ⟨rfl, rfl⟩ := returns_pure.mp hend
      exact ⟨(if_pos hcount).symm, hlex⟩
    · rename_i hcount
      obtain ⟨rfl, rfl⟩ := returns_pure.mp hend
      exact ⟨(if_neg hcount).symm, hlex⟩

/-! ### The token of a lexeme -/

/-- The kind of the token of an operator. -/
def Lexeme.kind? : Lexeme → Option TokenKind
  | .add kind _ | .addThree kind => some kind
  | _ => none

theorem kind?_lexeme {c cc ccc : U8} {b : Bool} : ∀ kind ∈ (lexeme c cc ccc b).kind?,
    kind ≠ .tokCOUNT ∧ kind ≠ .tokEoF ∧ kind ≠ .tokNl := by
  unfold lexeme ifElse ifElse2
  split <;> (try split_ifs) <;> simp [Lexeme.kind?]

theorem addThree_lexeme {c cc ccc : U8} {b : Bool} {kind : TokenKind} (h : lexeme c cc ccc b = .addThree kind) : ccc ≠ eofChar := by
  rintro rfl
  revert h
  unfold lexeme ifElse ifElse2
  split <;> (try split_ifs) <;> intro h <;> cases h <;> exact absurd ‹eofChar = _› (by decide)

theorem kind_tokChar : Gives (fun r => r.1 = .tokCOUNT ∨ r.1 = .tokChar) (tokChar tok fuel) :=
  gives_bind fun _ => gives_bind fun _ => gives_bind fun _ => gives_bind fun _ => gives_bind fun _ => gives_ite
    (gives_bind fun _ => gives_bind fun _ => gives_ite
      (gives_bind fun _ => gives_bind fun _ => gives_bind fun _ => gives_pure (.inl rfl))
      (gives_bind fun _ => gives_bind fun _ => gives_pure (.inl rfl)))
    (gives_bind fun _ => fun s r s' hr => by
      obtain ⟨-, rfl, -⟩ := returns_updateToken.mp hr
      exact .inr rfl)

/-- The token of a lexeme that is no piece of a string expression, where no error is in the log. -/
structure Reads (t : Lexer) (x : Lexeme) (r : TokenKind × Token) (lX' : Lexer) : Prop where
  kind : r.1 ≠ .tokCOUNT ∧ r.1 ≠ .tokEoF
  start : r.2.range.start = t.idx
  stop : r.2.range.stop ≤ lX'.idx
  plain : x.Plain t.left → t.idx < r.2.range.stop ∧ r.2.range.stop = lX'.idx
  other : ¬x.Plain t.left → r.1 ≠ .tokNl ∧ ¬(t.idx < r.2.range.stop ∧ r.2.range.stop = lX'.idx)

theorem reads_settled {t : Lexer} {x : Lexeme} (hmark : Marked t.idx t.pos r) (hset : Settled 0 r lX')
    (hclean : lX'.log.errors = []) (hlt : t.idx < lX'.idx) (hx : x.Plain t.left) : Reads t x r lX' := by
  have hcount : r.1 ≠ .tokCOUNT := fun hcount => (if_pos hcount).mp hset hclean
  have hstop : r.2.range.stop = lX'.idx := (if_neg hcount).mp hset
  obtain ⟨⟨-, heof⟩, hstart, -⟩ := hmark.resolve_left hcount
  exact ⟨⟨hcount, heof⟩, hstart, Nat.le_of_eq hstop, fun _ => ⟨hstop ▸ hlt, hstop⟩, fun hno => absurd hx hno⟩

theorem reads_tokLexeme {t : Lexer} (hs : InStep src t) (hfuel : src.length < fuel)
    (hpiece : ¬(lexemeOf t.left t.inStrExpr).IsPiece t.inStrExpr) (heof : lexemeOf t.left t.inStrExpr ≠ .eof)
    (hr : Returns (tokLexeme strtod fuel tok t (lexemeOf t.left t.inStrExpr)) t r lX') (hclean : lX'.log.errors = []) :
    Reads t (lexemeOf t.left t.inStrExpr) r lX' := by
  have hstarts : (lexemeOf t.left t.inStrExpr).Starts (t.peek 0) (t.peek 1) := by
    rw [peek_zero, peek_eq]
    exact lexeme_starts
  have hkind : ∀ kind ∈ (lexemeOf t.left t.inStrExpr).kind?, kind ≠ .tokCOUNT ∧ kind ≠ .tokEoF ∧ kind ≠ .tokNl := kind?_lexeme
  have hmark : Marked t.idx t.pos r := marked_tokLexeme heof (fun _ => kind_lexeme) hr
  have hlt : t.idx < lX'.idx := by
    obtain ⟨hfails, hends⟩ := @concludes_tokLexeme _ _ _ tok strtod _ hs hfuel hstarts
    rw [if_neg heof] at hends
    by_cases hno : ∃ e, (lexemeOf t.left t.inStrExpr).Fault t.inStrExpr t.left e
    · obtain ⟨e, he⟩ := hno
      exact ((hfails e he).of_returns hr).elim
    · exact ((hends fun e he => hno ⟨e, he⟩).of_returns hr).2
  have hthree : ∀ kind, lexemeOf t.left t.inStrExpr = .addThree kind → 3 ≤ t.left.length := fun kind h =>
    lt_length_of_peek (by rw [peek_eq]; exact addThree_lexeme h)
  have hlen := hs.length_left
  generalize lexemeOf t.left t.inStrExpr = x at *
  cases x with
  | add kind n =>
    obtain ⟨i, u, hadv, hupdate⟩ := returns_bind.mp hr
    obtain ⟨rfl, rfl⟩ := returns_advance.mp hadv
    obtain ⟨-, rfl, rfl⟩ := returns_updateToken.mp hupdate
    obtain ⟨hcount, heof, hnl⟩ := hkind kind rfl
    exact ⟨⟨hcount, heof⟩, rfl, hlt.le, False.elim, fun _ => ⟨hnl, fun h => Nat.lt_irrefl _ h.1⟩⟩
  | addThree kind =>
    obtain ⟨j, u, hadv, hrest⟩ := returns_bind.mp hr
    obtain ⟨rfl, rfl⟩ := returns_advance.mp hadv
    obtain ⟨i, v, hadv, hupdate⟩ := returns_bind.mp hrest
    obtain ⟨rfl, rfl⟩ := returns_advance.mp hadv
    obtain ⟨-, rfl, rfl⟩ := returns_updateToken.mp hupdate
    obtain ⟨hcount, heof, hnl⟩ := hkind kind rfl
    have h3 := hthree kind rfl
    have hidx : (t.advance 3).idx = t.idx + 3 := hs.idx_advance h3
    have hend : ((t.advance 3).advance 1).idx = min src.length (t.idx + 4) := by
      simp only [Lexer.advance, hs.src_eq]
      omega
    refine ⟨⟨hcount, heof⟩, rfl, ?_, fun hplain => ?_, fun hplain => ⟨hnl, fun h => hplain ?_⟩⟩
    · change (t.advance 3).idx ≤ _
      omega
    · have hthree : t.left.length = 3 := hplain
      change t.idx < (t.advance 3).idx ∧ (t.advance 3).idx = _
      omega
    · have h2 : (t.advance 3).idx = ((t.advance 3).advance 1).idx := h.2
      change t.left.length = 3
      omega
  | comment => exact reads_settled hmark (settles_tokComment _ _ _ hr) hclean hlt trivial
  | strEnd => exact absurd trivial hpiece
  | char =>
    have hset : Settled 1 r lX' := settles_tokChar _ _ _ hr
    have hcount : r.1 ≠ .tokCOUNT := fun hcount => (if_pos hcount).mp hset hclean
    have hstop : r.2.range.stop + 1 = lX'.idx := (if_neg hcount).mp hset
    obtain ⟨⟨-, heof⟩, hstart, -⟩ := hmark.resolve_left hcount
    have hchar : r.1 = .tokChar := (kind_tokChar _ _ _ hr).resolve_left hcount
    exact ⟨⟨hcount, heof⟩, hstart, by omega, False.elim, fun _ => ⟨by rw [hchar]; decide, by omega⟩⟩
  | string =>
    obtain ⟨i, u, hadv, hstr⟩ := returns_bind.mp hr
    obtain ⟨rfl, rfl⟩ := returns_advance.mp hadv
    have hexpr : (t.advance 1).inStrExpr = false := Bool.eq_false_iff.mpr hpiece
    exact reads_settled hmark (settled_tokString hexpr hstr) hclean hlt trivial
  | strExpr => exact absurd trivial hpiece
  | ident => exact reads_settled hmark (settles_tokIdent _ _ _ hr) hclean hlt trivial
  | number => exact reads_settled hmark (settles_tokNumber _ _ _ hr) hclean hlt trivial
  | eof => exact absurd rfl heof
  | error =>
    have hset : Settled 0 r lX' := settles_bind (fun _ => settles_none) _ _ _ hr
    obtain ⟨i, u, -, hrest⟩ := returns_bind.mp hr
    obtain ⟨v, w, -, hend⟩ := returns_bind.mp hrest
    obtain ⟨rfl, rfl⟩ := returns_pure.mp hend
    exact absurd hclean hset

end LexM

namespace Lexer
variable {src : List U8} {lX lX' lX'' : Lexer} {fuel : Nat} {strtod : Strtod} {s t : Round} {rounds rounds' : List Round}
  {toks : List (TokenKind × Token)} {log : Log} {erange : Bool}

/-- Where no error is in the log, a pass covers its text if and only if a plain token is before it. -/
theorem covers_iff (hs : InStep src s.before) (hfuel : src.length < fuel)
    (hr : Returns (LexM.round strtod fuel) s.before s.pass s.after) (hpiece : ¬s.before.AtPiece) (hclean : s.after.log.errors = []) :
    s.Covers src ↔ s.before.Plain := by
  obtain ⟨hnext, hlexeme⟩ := not_or.mp hpiece
  have hblank := blank_lead hs
  have hleft : (s.before.advance (s.before.left.takeWhile isSpace).length).left = s.before.left.dropWhile isSpace :=
    left_takeWhile s.before isSpace
  have hle := (skips_advance s.before (s.before.left.takeWhile isSpace).length).le hs
  rcases LexM.returns_round hs hfuel (not_not.mp hnext) hr with ⟨hnl, out, hpass, hafter, hstart, heq, hstop⟩ | ⟨hnl, r, hpass, hlex⟩
  · rw [← hafter] at hblank
    refine iff_of_true ⟨.tokNl, out, hpass, ⟨hstart, ?_⟩, fun h => absurd rfl h, ⟨hstop, ?_⟩, nofun⟩ (.inl hnl)
    · exact hblank.mono (Nat.le_refl _) (heq ▸ hstop)
    · exact hblank.mono (heq ▸ hstart) (Nat.le_refl _)
  · have hpiece := fun h => hlexeme ⟨hnl, h⟩
    have hts := hs.advance (s.before.left.takeWhile isSpace).length
    unfold Lexer.Plain
    rw [or_iff_right hnl]
    have hexpr : (s.before.advance (s.before.left.takeWhile isSpace).length).inStrExpr = s.before.inStrExpr := rfl
    have hdone {r' : TokenKind × Token} (hcount : r.1 ≠ .tokCOUNT) : s.pass = .done r' ↔ r' = r := by
      rw [hpass, toPass, if_neg hcount, Pass.done.injEq, eq_comm]
    generalize s.before.advance (s.before.left.takeWhile isSpace).length = t at *
    rw [← hleft, ← hexpr] at hpiece hlex ⊢
    by_cases heof : lexemeOf t.left t.inStrExpr = .eof
    · rw [heof] at hlex ⊢
      obtain ⟨rfl, hafter⟩ := returns_pure.mp hlex
      have hlen := hts.length_left
      have hend : LexM.Lexeme.Plain t.left .eof ↔ s.after.idx = src.length := by
        change t.left = [] ↔ _
        rw [hafter, ← List.length_eq_zero_iff]
        omega
      rw [hend]
      have hcount : TokenKind.tokEoF ≠ .tokCOUNT := by decide
      constructor
      · rintro ⟨kind, tok, hk, hexact⟩
        obtain ⟨rfl, rfl⟩ := Prod.mk.inj ((hdone hcount).mp hk)
        exact hexact.eof rfl
      · intro hidx
        refine ⟨_, _, (hdone hcount).mpr rfl, ⟨Nat.le_refl _, blank_self⟩, fun _ h => absurd rfl h, ⟨hafter ▸ hle, ?_⟩, fun _ => hidx⟩
        exact hafter ▸ hblank
    · obtain ⟨⟨hcount, hneof⟩, hstart, hstop, hplain, hother⟩ := LexM.reads_tokLexeme hts hfuel hpiece heof hlex hclean
      constructor
      · rintro ⟨kind, tok, hk, hexact⟩
        obtain rfl := (hdone hcount).mp hk
        by_contra hno
        obtain ⟨hnl', hnot⟩ := hother hno
        exact hnot (hstart ▸ hexact.lexeme hnl' hneof)
      · intro h
        obtain ⟨hlt, heq⟩ := hplain h
        exact ⟨r.1, r.2, (hdone hcount).mpr rfl, ⟨hstart ▸ hle, hstart ▸ hblank⟩, fun _ _ => ⟨hstart ▸ hlt, heq⟩,
          ⟨hstop, heq ▸ blank_self⟩, fun h => absurd h hneof⟩

theorem Round.Covers.follows (hs : s.Covers src) (ht : t.Covers src) (h : t.before = s.after) : s.Follows src t := by
  intro kind tok kind' tok' hk hk'
  obtain ⟨_, _, hpass, hexact⟩ := hs
  obtain ⟨_, _, hpass', hexact'⟩ := ht
  obtain ⟨rfl, rfl⟩ := Prod.mk.inj (Pass.done.inj (hk.symm.trans hpass))
  obtain ⟨rfl, rfl⟩ := Prod.mk.inj (Pass.done.inj (hk'.symm.trans hpass'))
  obtain ⟨hle, hblank⟩ := hexact.rest
  obtain ⟨hle', hblank'⟩ := h ▸ hexact'.lead
  exact ⟨Nat.le_trans hle hle', hblank.trans hblank'⟩

/-! ### Runs -/

/-- Passes of the loop of `Lexer_next`, one after the other. -/
inductive Rounds (strtod : Strtod) (fuel : Nat) : Lexer → List Round → Lexer → Prop
  | nil {lX : Lexer} : Rounds strtod fuel lX [] lX
  | cons {lX t lX' : Lexer} {pass : Pass Unit (TokenKind × Token)} {rounds : List Round}
      (hr : Returns (LexM.round strtod fuel) lX pass t) (h : Rounds strtod fuel t rounds lX') :
      Rounds strtod fuel lX (⟨lX, pass, t⟩ :: rounds) lX'

/-- Calls of `Lexer_next`, and what they return. -/
inductive Tokens (strtod : Strtod) (fuel : Nat) : Lexer → List (TokenKind × Token) → Lexer → Prop
  | nil {lX : Lexer} : Tokens strtod fuel lX [] lX
  | cons {lX t lX' : Lexer} {r : TokenKind × Token} {toks : List (TokenKind × Token)}
      (hr : Returns (LexM.next strtod fuel) lX r t) (h : Tokens strtod fuel t toks lX') : Tokens strtod fuel lX (r :: toks) lX'

/-- What the call of a last pass returns. -/
def Round.token? (s : Round) : Option (TokenKind × Token) :=
  match s.pass with
  | .again _ => none
  | .done r => some r

/-- Each pass covers its text, and the tokens of passes that follow each other have only white space between them, but for
    the pieces of string expressions. -/
structure Lossless (src : List U8) (rounds : List Round) : Prop where
  covers : ∀ s ∈ rounds, ¬s.before.AtPiece → s.Covers src
  follows : rounds.IsChain fun s t => ¬s.before.AtPiece → ¬t.before.AtPiece → s.Follows src t

theorem Rounds.append (h : Rounds strtod fuel lX rounds lX') (h' : Rounds strtod fuel lX' rounds' lX'') :
    Rounds strtod fuel lX (rounds ++ rounds') lX'' := by
  induction h with
  | nil => exact h'
  | cons hr _ ih => exact .cons hr (ih h')

theorem Rounds.of_iterate {n : Nat} {r : TokenKind × Token}
    (hr : Returns (iterate .fuel (fun _ => LexM.round strtod fuel) n ()) lX r lX') :
    ∃ rounds, Rounds strtod fuel lX rounds lX' ∧ rounds.filterMap Round.token? = [r] := by
  induction n generalizing lX with
  | zero => exact absurd hr returns_stop
  | succ n ih =>
    obtain ⟨pass, t, hpass, hrest⟩ := returns_bind.mp hr
    cases pass with
    | again u =>
      obtain ⟨rounds, hrounds, htok⟩ := ih hrest
      exact ⟨_, .cons hpass hrounds, htok⟩
    | done r =>
      obtain ⟨rfl, rfl⟩ := returns_pure.mp hrest
      exact ⟨_, .cons hpass .nil, rfl⟩

/-- The tokens of calls are those of passes. -/
theorem Tokens.exists_rounds (h : Tokens strtod fuel lX toks lX') :
    ∃ rounds, Rounds strtod fuel lX rounds lX' ∧ rounds.filterMap Round.token? = toks := by
  induction h with
  | nil => exact ⟨[], .nil, rfl⟩
  | cons hr _ ih =>
    obtain ⟨rounds, hrounds, htok⟩ := Rounds.of_iterate (LexM.next_eq .. ▸ hr)
    obtain ⟨rounds', hrounds', htok'⟩ := ih
    refine ⟨_, hrounds.append hrounds', ?_⟩
    rw [List.filterMap_append, htok, htok', List.singleton_append]

theorem Rounds.clean (h : Rounds strtod fuel lX rounds lX') (hclean : lX'.log.errors = []) : lX.log.errors = [] := by
  induction h with
  | nil => exact hclean
  | cons hr _ ih => exact LexM.clean_of_changes (LexM.stepwise_round.of_returns hr) (ih hclean)

/-- Passes that leave no error in the log are lossless if and only if a plain token is before each. -/
theorem Rounds.lossless_iff (h : Rounds strtod fuel lX rounds lX') (hs : InStep src lX) (hfuel : src.length < fuel)
    (hclean : lX'.log.errors = []) : Lossless src rounds ↔ ∀ s ∈ rounds, s.before.AtPiece ∨ s.before.Plain := by
  have hpass : ∀ s ∈ rounds, ¬s.before.AtPiece → (s.Covers src ↔ s.before.Plain) := by
    induction h with
    | nil => exact fun s hmem => absurd hmem List.not_mem_nil
    | cons hr hrest ih =>
      have ht := (LexM.stepwise_round.forward.of_returns hr src hs).1
      rintro s hmem
      rcases List.mem_cons.mp hmem with rfl | hmem
      · exact fun hpiece => covers_iff hs hfuel hr hpiece (hrest.clean hclean)
      · exact ih ht hclean s hmem
  have hchain : rounds.IsChain fun s t => t.before = s.after := by
    clear hpass
    induction h with
    | nil => exact .nil
    | cons hr hrest ih =>
      refine (ih (LexM.stepwise_round.forward.of_returns hr src hs).1 hclean).cons fun t hhead => ?_
      cases hrest with
      | nil => cases hhead
      | cons => exact Option.some.inj hhead ▸ rfl
  constructor
  · intro h s hmem
    by_cases hpiece : s.before.AtPiece
    · exact .inl hpiece
    · exact .inr ((hpass s hmem hpiece).mp (h.covers s hmem hpiece))
  · intro h
    have hcovers : ∀ s ∈ rounds, ¬s.before.AtPiece → s.Covers src := fun s hmem hpiece =>
      (hpass s hmem hpiece).mpr ((h s hmem).resolve_left hpiece)
    refine ⟨hcovers, hchain.imp_of_mem_imp fun s t hs ht heq hpiece hpiece' => ?_⟩
    exact (hcovers s hs hpiece).follows (hcovers t ht hpiece') heq

/-- The tokens of calls that leave no error in the log are those of passes, which are lossless if and only if before each is a
    piece of a string expression or a plain token. -/
theorem run_lossless (hfuel : src.length < fuel) (h : Tokens strtod fuel (init log erange src) toks lX)
    (hclean : lX.log.errors = []) : ∃ rounds, Rounds strtod fuel (init log erange src) rounds lX ∧
      rounds.filterMap Round.token? = toks ∧ (Lossless src rounds ↔ ∀ s ∈ rounds, s.before.AtPiece ∨ s.before.Plain) := by
  obtain ⟨rounds, hrounds, htoks⟩ := h.exists_rounds
  exact ⟨rounds, hrounds, htoks, hrounds.lossless_iff (inStep_init log erange) hfuel hclean⟩

/-- The call for the source `x`. -/
theorem run_lossless_x : ∃ r lX, Tokens (fun _ => ⟨0, false, 0⟩) 2 (init {} false (ascii ['x'])) [r] lX ∧
    ∃ rounds, Rounds (fun _ => ⟨0, false, 0⟩) 2 (init {} false (ascii ['x'])) rounds lX ∧
      rounds.filterMap Round.token? = [r] ∧
      (Lossless (ascii ['x']) rounds ↔ ∀ s ∈ rounds, s.before.AtPiece ∨ s.before.Plain) := by
  obtain ⟨r, lX, hr, hclean⟩ := Prog.exists_of_passes (m := LexM.next (fun _ => ⟨0, false, 0⟩) 2)
    (s := init {} false (ascii ['x'])) (p := fun _ lX => lX.log.errors = []) (by decide +kernel)
  exact ⟨r, lX, .cons hr .nil, run_lossless (by decide) (.cons hr .nil) (of_decide_eq_true hclean)⟩

/-- The token of the source `+` is empty. -/
theorem not_run_lossless : ∃ (src : List U8) (fuel : Nat) (strtod : Strtod) (toks : List (TokenKind × Token)) (lX : Lexer),
    src.length < fuel ∧ Tokens strtod fuel (init {} false src) toks lX ∧ lX.log.errors = [] ∧
      ¬∃ rounds, Rounds strtod fuel (init {} false src) rounds lX ∧ rounds.filterMap Round.token? = toks ∧ Lossless src rounds := by
  obtain ⟨r, lX, hr, hclean⟩ := Prog.exists_of_passes (m := LexM.next (fun _ => ⟨0, false, 0⟩) 2)
    (s := init {} false (ascii ['+'])) (p := fun _ lX => lX.log.errors = []) (by decide +kernel)
  have hclean := of_decide_eq_true hclean
  refine ⟨ascii ['+'], 2, fun _ => ⟨0, false, 0⟩, [r], lX, by decide, .cons hr .nil, hclean, ?_⟩
  rintro ⟨rounds, hrounds, htoks, hlossless⟩
  have hplain := (hrounds.lossless_iff (inStep_init {} false) (by decide) hclean).mp hlossless
  cases hrounds with
  | nil => cases htoks
  | cons =>
    rcases hplain _ List.mem_cons_self with ⟨hnext | ⟨-, hpiece⟩⟩ | hnl | hlexeme
    · exact hnext rfl
    · exact hpiece
    · exact absurd (show chr '\n' ∈ (init {} false (ascii ['+'])).left.takeWhile isSpace from hnl) (by decide)
    · exact hlexeme

end Lexer

end Cyntatic
