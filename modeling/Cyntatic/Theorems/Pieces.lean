import Cyntatic.Theorems.LexerFaults
import Cyntatic.Theorems.Lookahead
import Cyntatic.Theorems.Words
import Cyntatic.Vm.Code

/-! # Texts that are made of pieces

A text is made of names, numbers, punctuation, spaces and newlines. Where each piece ends before the next one, the lexer
returns a token for each of them, and none for the spaces. -/

namespace Cyntatic
open Library Prog

/-! ### Pieces -/

inductive Piece where
  | space
  | name (w : List Char)
  | number (n : Nat)
  | mark (c : Char) (kind : TokenKind)
  | newline
  deriving DecidableEq

namespace Piece
open LexM

def text : Piece → List Char
  | space => [' ']
  | name w => w
  | number n => unsignedText n
  | mark c _ => [c]
  | newline => ['\n']

/-- The text of some pieces. -/
def source (ps : List Piece) : List Char := ps.flatMap text

/-- A name that the lexer does not take for a keyword. -/
structure IsName (w : List U8) : Prop where
  start : isNameStart (w.headD eofChar) = true
  ident : ∀ c ∈ w, isIdent c = true
  nonkeyword : ∀ x ∈ keywords, ascii x.1 ≠ w
  length : w.length < 2 ^ 31

/-- A piece ends before a text: the lexer goes on to no more than the piece. -/
def Ends (tail : List U8) : Piece → Prop
  | space => True
  | name w => IsName (ascii w) ∧ isIdent (tail.headD eofChar) = false ∧ tail.headD eofChar ≠ chr '"'
  | number n => n < 2 ^ 64 ∧ isDigit (tail.headD eofChar) = false ∧
    toUpper (tail.headD eofChar) ∉ [chr 'X', chr 'B', chr 'E', chr '.']
  | mark c kind => isSpace (chr c) = false ∧ lexemeOf (chr c :: tail) false = .add kind 1 ∧ kind ∉ [.tokEoF, .tokCOUNT]
  | newline => isSpace (tail.headD eofChar) = false

/-- Every piece ends before the next one. -/
def Separate : List Piece → Prop
  | [] => True
  | p :: ps => p.Ends (ascii (source ps)) ∧ Separate ps

/-- The token of a piece. -/
def Reads : Piece → Token → Prop
  | space, _ => False
  | name w, tok => tok.kind = .tokIdentifier ∧ tok.text = ascii w
  | number n, tok => tok.kind = .tokInteger ∧ tok.getInt? = some (BitVec.ofNat 64 n)
  | mark _ kind, tok => tok.kind = kind
  | newline, tok => tok.kind = .tokNl

/-- The pieces that are tokens. -/
def solid (ps : List Piece) : List Piece := ps.filter (· ≠ .space)

end Piece

namespace LexM
open Lexer

variable {src tail w text : List U8} {lX lX' t : Lexer} {fuel n : Nat} {out tok : Token} {kind : TokenKind} {strtod : Strtod}
  {r : TokenKind × Token} {p : Piece} {ps : List Piece}

/-! ### Words and numbers -/

/-- The token of an operator or of punctuation. -/
theorem tokLexeme_add : ∃ tok, Returns (tokLexeme strtod fuel out lX (.add kind n)) lX (kind, tok) (lX.advance n) ∧
    tok.kind = kind :=
  ⟨_, returns_bind.mpr ⟨_, _, returns_advance.mpr ⟨rfl, rfl⟩, returns_updateToken.mpr ⟨Nat.le_refl _, rfl, rfl⟩⟩, rfl⟩

/-- The text of a word is what the lexer has gone past. -/
theorem text_tokIdent (hr : Returns (tokIdent out fuel) lX r lX') :
    r.2.text = (lX'.src.drop lX.idx).take (lX'.idx - lX.idx) := by
  simp only [tokIdent, returns_bind, returns_get, returns_ofOption] at hr
  obtain ⟨_, _, ⟨rfl, rfl⟩, -, _, -, _, _, ⟨rfl, rfl⟩, kw, _, ⟨-, rfl⟩, hset⟩ := hr
  cases kw with
  | none =>
    obtain ⟨-, rfl, rfl⟩ := returns_updateToken.mp hset
    rfl
  | some kw =>
    obtain ⟨-, rfl, rfl⟩ := returns_updateToken.mp hset
    rfl

/-- A name is read with its text. -/
theorem tokIdent_reads (h : Rest lX (w ++ tail)) (hw : Piece.IsName w) (htail : isIdent (tail.headD eofChar) = false)
    (hfuel : w.length < fuel) :
    ∃ tok, Returns (tokIdent out fuel) lX (.tokIdentifier, tok) (lX.advance w.length) ∧ tok.kind = .tokIdentifier ∧ tok.text = w := by
  have hget : sKeyWordList.get w = some none := get_name (nulFree_word hw.ident) hw.length hw.nonkeyword
  obtain ⟨tok, htok⟩ := @tokIdent_returns lX tail w out fuel none h.idx_le h.left hw.ident htail hget hfuel
  refine ⟨tok, htok, ?_, ?_⟩
  · rcases marksHere_tokIdent _ _ _ htok with hcount | ⟨⟨hkind, -⟩, -⟩
    · cases hcount
    · exact hkind
  · have htext := text_tokIdent htok
    rw [h.idx_advance (by rw [List.length_append]; omega), Nat.add_sub_cancel_left] at htext
    rw [htext]
    change (lX.src.drop lX.idx).take w.length = w
    rw [h.drop, List.take_left]

/-- Where the characters of a class end. -/
theorem span_append {p : U8 → Bool} (hw : ∀ c ∈ w, p c) (htail : p (tail.headD eofChar) = false) :
    (w ++ tail).takeWhile p = w ∧ (w ++ tail).dropWhile p = tail := by
  have hspan : tail.takeWhile p = [] ∧ tail.dropWhile p = tail := by
    rcases tail with _ | ⟨c, tail⟩
    · exact ⟨rfl, rfl⟩
    · have hc : ¬p c = true := by rw [show p c = false from htail]; decide
      exact ⟨List.takeWhile_cons_of_neg hc, List.dropWhile_cons_of_neg hc⟩
  exact ⟨by rw [List.takeWhile_append_of_pos hw, hspan.1, List.append_nil], by rw [List.dropWhile_append_of_pos hw, hspan.2]⟩

/-- The digits of a number that ends before a text. -/
theorem integerDigits?_decimal (hdigit : isDigit (tail.headD eofChar) = false)
    (hend : toUpper (tail.headD eofChar) ∉ [chr 'X', chr 'B', chr 'E', chr '.']) :
    integerDigits? (decimal n ++ tail) = some (decimal n) ∧ prefixLength (integerBase (decimal n ++ tail)) = 0 ∧
      digitsValue (integerBase (decimal n ++ tail)) (decimal n) = n := by
  simp only [List.mem_cons, List.not_mem_nil, or_false, not_or] at hend
  obtain ⟨hx, hb, he, hdot⟩ := hend
  by_cases hzero : n = 0
  · subst hzero
    have hone : (decimal 0 ++ tail).getD 1 eofChar = tail.headD eofChar := by cases tail <;> rfl
    have hhead : (decimal 0 ++ tail).headD eofChar = chr '0' := rfl
    have hoct : isOct (tail.headD eofChar) = false := by
      refine Bool.eq_false_iff.mpr fun hoct => ?_
      obtain ⟨hlo, hhi⟩ := of_decide_eq_true hoct
      have hnine : isDigit (tail.headD eofChar) = true := decide_eq_true ⟨hlo, BitVec.le_trans hhi (by decide)⟩
      exact Bool.false_ne_true (hdigit.symm.trans hnine)
    have hspan : (decimal 0 ++ tail).takeWhile isOct = decimal 0 ∧ (decimal 0 ++ tail).dropWhile isOct = tail :=
      span_append (by decide) hoct
    simp only [integerDigits?, integerBase, hone, if_pos hhead, hx, hb, he, hdot, false_and, or_false, if_false, octalDigits?, hspan]
    rw [if_neg (by rw [hdigit]; decide)]
    exact ⟨rfl, by decide, by decide⟩
  · have hhead : (decimal n ++ tail).headD eofChar ≠ chr '0' := by
      obtain ⟨c, text, hct⟩ := List.exists_cons_of_ne_nil (decimal_ne_nil n)
      have hnot := head_decimal hzero
      rw [hct] at hnot ⊢
      exact hnot
    have hdot' : tail.headD eofChar ≠ chr '.' := by
      intro heq
      rw [heq] at hdot
      exact hdot (by decide)
    have hspan : (decimal n ++ tail).takeWhile isDigit = decimal n ∧ (decimal n ++ tail).dropWhile isDigit = tail :=
      span_append (fun c hc => isDigit_of_mem_decimal hc) hdigit
    simp only [integerDigits?, integerBase, if_neg hhead, decimalDigits?, hspan, he, hdot', or_self, if_false]
    exact ⟨trivial, by decide, digitsValue_decimal n⟩

/-- A number is read with its value. -/
theorem tokNumber_reads (hs : InStep src lX) (h : Rest lX (decimal n ++ tail)) (hfuel : src.length < fuel) (hn : n < 2 ^ 64)
    (hdigit : isDigit (tail.headD eofChar) = false)
    (hend : toUpper (tail.headD eofChar) ∉ [chr 'X', chr 'B', chr 'E', chr '.']) :
    ∃ tok, Returns (tokNumber strtod out fuel) lX (.tokInteger, tok) (lX.advance (decimal n).length) ∧ tok.kind = .tokInteger ∧
      tok.getInt? = some (BitVec.ofNat 64 n) := by
  obtain ⟨hds, hbare, hvalue⟩ := @integerDigits?_decimal tail n hdigit hend
  rw [← h.left] at hds hbare hvalue
  have hstart : StartsNumber lX.left := by
    obtain ⟨c, text, hct⟩ := List.exists_cons_of_ne_nil (decimal_ne_nil n)
    refine .inl ?_
    rw [h.left, hct]
    exact isDigit_of_mem_decimal (hct ▸ List.mem_cons_self)
  have hlen : (decimal n).length ≤ 39 := (length_decimal hn).trans (by decide)
  obtain ⟨r, lX', hr, hreads⟩ := (@integer_iff _ _ _ out _ strtod hs hfuel hstart hds).mpr ⟨hlen, fun _ => h.erange⟩
  rw [hvalue, ReadsInteger, if_pos hn, toPass] at hreads
  obtain ⟨tok, hpass, hkind, hint⟩ := hreads
  split at hpass
  · cases hpass
  obtain rfl := Pass.done.inj hpass
  have hconv := ((converts_number hs hfuel : Converts strtod fuel out lX _ _ _ _).integer _ hds _ _).mp hr
  have hdigits := digitsOf_integer hstart hds
  have hbase : integerBase lX.left ≠ 16 ∧ integerBase lX.left ≠ 2 := by
    rw [← not_or]
    intro hor
    rw [prefixLength, if_pos hor] at hbare
    cases hbare
  have hstrtoull : strtoull (decimal n) (integerBase lX.left) = ⟨BitVec.ofNat 64 n, false, (decimal n).length⟩ := by
    rw [strtoull_eq hdigits.base_le hdigits.ne_nil hdigits.digits, hvalue, if_pos hn]
  obtain ⟨tok', htok'⟩ := @parseInteger_returns lX tail _ out _ _ h hbase hlen hstrtoull
  rw [hbare, Nat.zero_add] at hconv
  obtain ⟨-, rfl⟩ := htok'.unique hconv
  exact ⟨tok, hr, hkind, by rw [Token.getInt?, hint]⟩

/-! ### Calls -/

/-- The lexer stands before a text, with no more than white space in between. -/
structure Before (src : List U8) (lX : Lexer) (lead text : List U8) : Prop where
  inStep : InStep src lX
  rest : Rest lX (lead ++ text)
  lead : ∀ c ∈ lead, isSpace c ∧ c ≠ chr '\n'

variable {lead : List U8}

theorem Before.behind (h : Before src lX lead text) : Rest (lX.advance lead.length) text := h.rest.advance_length

theorem Before.advance (h : Before src lX lead (w ++ tail)) : Before src ((lX.advance lead.length).advance w.length) [] tail where
  inStep := (h.inStep.advance _).advance _
  rest := h.behind.advance_length
  lead := fun _ hc => absurd hc List.not_mem_nil

/-- A call returns the token that the text begins with. -/
theorem next_lexeme (h : Before src lX lead text) (htext : isSpace (text.headD eofChar) = false) (hfuel : src.length < fuel)
    (hr : Returns (tokLexeme strtod fuel (emptyToken lX) (lX.advance lead.length) (lexemeOf text false)) (lX.advance lead.length) r lX')
    (hkind : r.1 ≠ .tokCOUNT) : Returns (next strtod fuel) lX r lX' := by
  have hlen : lead.length < fuel := by
    have hle := h.rest.length
    rw [List.length_append, h.inStep.src_eq] at hle
    omega
  have hskip := @skipSpace_lead _ _ fuel (emptyToken lX) _ lead h.inStep h.rest.left h.lead htext hlen
  refine next_of_round (returns_bind.mpr ⟨lX, lX, returns_get.mpr ⟨rfl, rfl⟩, ?_⟩) (Nat.zero_lt_of_lt hfuel)
  refine returns_bind.mpr ⟨(.tokCOUNT, emptyToken lX), lX, returns_updateToken.mpr ⟨Nat.le_refl _, rfl, rfl⟩, ?_⟩
  rw [if_neg (not_not.mpr h.rest.next)]
  refine returns_bind.mpr ⟨_, _, hskip, ?_⟩
  rw [if_neg fun hne : (emptyToken lX).kind ≠ .tokCOUNT => hne rfl]
  refine returns_bind.mpr ⟨r, lX', returns_bind.mpr ⟨_, _, returns_get.mpr ⟨rfl, rfl⟩, ?_⟩, ?_⟩
  · rw [h.behind.peek_zero, h.behind.peek, h.behind.peek, h.behind.inStrExpr]
    exact hr
  · rw [if_neg hkind]
    exact returns_pure.mpr ⟨rfl, rfl⟩

/-- A call at the newline that the text begins with. -/
theorem next_newline (h : Before src lX lead (chr '\n' :: tail)) (htail : isSpace (tail.headD eofChar) = false)
    (hfuel : src.length < fuel) :
    ∃ tok, Returns (next strtod fuel) lX (.tokNl, tok) ((lX.advance lead.length).advance 1) ∧ tok.kind = .tokNl := by
  have htake : lX.left.takeWhile isSpace = lead ++ [chr '\n'] := by
    have hblank : ∀ c ∈ lead ++ [chr '\n'], isSpace c := by
      intro c hc
      rcases List.mem_append.mp hc with hc | hc
      · exact (h.lead c hc).1
      · rw [List.mem_singleton.mp hc]
        decide
    rw [h.rest.left, List.append_cons]
    exact (span_append hblank htail).1
  have hlen : (lX.left.takeWhile isSpace).length < fuel := by
    have hle := h.rest.length
    rw [List.length_append, List.length_cons, h.inStep.src_eq] at hle
    rw [htake, List.length_append, List.length_singleton]
    omega
  obtain ⟨out, hskip, hout⟩ := @skipSpace_ends _ _ fuel (emptyToken lX) h.inStep hlen
  rw [htake] at hskip hout
  rw [if_pos ⟨rfl, List.mem_append_right _ (List.mem_singleton_self _)⟩] at hout
  rw [List.length_append, ← advance_advance] at hskip
  refine ⟨out, next_of_round (returns_bind.mpr ⟨lX, lX, returns_get.mpr ⟨rfl, rfl⟩, ?_⟩) (Nat.zero_lt_of_lt hfuel), hout⟩
  refine returns_bind.mpr ⟨(.tokCOUNT, emptyToken lX), lX, returns_updateToken.mpr ⟨Nat.le_refl _, rfl, rfl⟩, ?_⟩
  rw [if_neg (not_not.mpr h.rest.next)]
  refine returns_bind.mpr ⟨_, _, hskip, ?_⟩
  rw [if_pos (by rw [hout]; decide), hout]
  exact returns_pure.mpr ⟨rfl, rfl⟩

theorem next_end (h : Before src lX lead []) (hfuel : src.length < fuel) :
    ∃ tok, Returns (next strtod fuel) lX (.tokEoF, tok) (lX.advance lead.length) :=
  ⟨emptyToken lX, next_lexeme h (by decide) hfuel (returns_pure.mpr ⟨rfl, rfl⟩) (by simp)⟩

/-- A call returns the token of the piece that the text begins with. -/
theorem next_piece (h : Before src lX lead (ascii p.text ++ tail)) (hp : p.Ends tail) (hspace : p ≠ .space)
    (hfuel : src.length < fuel) :
    ∃ kind tok, Returns (next strtod fuel) lX (kind, tok) ((lX.advance lead.length).advance (ascii p.text).length) ∧
      kind ≠ .tokEoF ∧ p.Reads tok := by
  have hword : (ascii p.text).length < fuel := by
    have hle := h.rest.length
    rw [List.length_append, List.length_append, h.inStep.src_eq] at hle
    omega
  cases p with
  | space => exact absurd rfl hspace
  | newline =>
    obtain ⟨tok, htok, hkind⟩ := @next_newline _ _ _ fuel strtod _ h hp hfuel
    exact ⟨.tokNl, tok, htok, by decide, hkind⟩
  | name w =>
    obtain ⟨hname, hident, hquote⟩ := hp
    obtain ⟨tok, htok, hreads⟩ := @tokIdent_reads _ _ _ fuel (emptyToken lX) h.behind hname hident hword
    obtain ⟨c, cs, hw⟩ : ∃ c cs, ascii w = c :: cs := by
      rcases hw : ascii w with _ | ⟨c, cs⟩
      · have hstart := hname.start
        rw [hw] at hstart
        cases hstart
      · exact ⟨c, cs, rfl⟩
    have hstart : isNameStart c = true := by
      have hstart := hname.start
      rwa [hw] at hstart
    have hcc : (c :: cs ++ tail).getD 1 eofChar ≠ chr '"' := by
      cases cs with
      | nil =>
        have hone : (c :: [] ++ tail).getD 1 eofChar = tail.headD eofChar := by cases tail <;> rfl
        rwa [hone]
      | cons d cs => exact (ne_of_isIdent d (hname.ident d (by rw [hw]; simp))).2
    have hlex : lexemeOf (ascii w ++ tail) false = .ident := by
      rw [hw]
      exact lexeme_nameStart hstart hcc
    refine ⟨.tokIdentifier, tok, next_lexeme h ?_ hfuel ?_ (by simp), by decide, hreads⟩
    · change isSpace ((ascii w ++ tail).headD eofChar) = false
      rw [hw]
      exact (isSpace_nameStart c hstart).1
    · change Returns (tokLexeme strtod fuel _ _ (lexemeOf (ascii w ++ tail) false)) _ _ _
      rw [hlex]
      exact htok
  | number n =>
    obtain ⟨hn, hdigit, hend⟩ := hp
    obtain ⟨tok, htok, hreads⟩ := @tokNumber_reads _ _ _ fuel n (emptyToken lX) strtod (h.inStep.advance _) h.behind hfuel hn hdigit hend
    obtain ⟨c, cs, hw⟩ := List.exists_cons_of_ne_nil (decimal_ne_nil n)
    have hstart : isDigit c = true := isDigit_of_mem_decimal (hw ▸ List.mem_cons_self)
    have hlex : lexemeOf (decimal n ++ tail) false = .number := by
      rw [hw]
      exact lexeme_digit hstart
    refine ⟨.tokInteger, tok, next_lexeme h ?_ hfuel ?_ (by simp), by decide, hreads⟩
    · change isSpace ((decimal n ++ tail).headD eofChar) = false
      rw [hw]
      exact isSpace_digit c hstart
    · change Returns (tokLexeme strtod fuel _ _ (lexemeOf (decimal n ++ tail) false)) _ _ _
      rw [hlex]
      exact htok
  | mark c kind =>
    obtain ⟨hspace, hlex, hkind⟩ := hp
    simp only [List.mem_cons, List.not_mem_nil, or_false, not_or] at hkind
    obtain ⟨tok, htok, hreads⟩ := @tokLexeme_add (lX.advance lead.length) fuel 1 (emptyToken lX) kind strtod
    refine ⟨kind, tok, next_lexeme h hspace hfuel ?_ hkind.2, hkind.1, hreads⟩
    change Returns (tokLexeme strtod fuel _ _ (lexemeOf (chr c :: tail) false)) _ _ _
    rw [hlex]
    exact htok

/-- The tokens of a text are those of its pieces. -/
theorem tokens_pieces (h : Before src lX lead (ascii (Piece.source ps))) (hps : Piece.Separate ps) (hfuel : src.length < fuel)
    (hn : ps.length < n) :
    ∃ toks lX', Returns (tokens strtod fuel n) lX toks lX' ∧ lX'.log = lX.log ∧ List.Forall₂ Piece.Reads (Piece.solid ps) toks := by
  induction ps generalizing lX lead n with
  | nil =>
    obtain ⟨tok, htok⟩ := @next_end _ _ fuel strtod _ h hfuel
    obtain ⟨n, rfl⟩ : ∃ k, n = k + 1 := ⟨n - 1, by omega⟩
    exact ⟨[], _, ITP.returns_tokens_eof htok, rfl, .nil⟩
  | cons p ps ih =>
    have hsource : ascii (Piece.source (p :: ps)) = ascii p.text ++ ascii (Piece.source ps) := List.map_append
    rw [hsource] at h
    by_cases hspace : p = .space
    · subst hspace
      have hlead : Before src lX (lead ++ ascii (Piece.text .space)) (ascii (Piece.source ps)) := by
        refine ⟨h.inStep, (List.append_assoc lead _ _).symm ▸ h.rest, fun c hc => ?_⟩
        rcases List.mem_append.mp hc with hc | hc
        · exact h.lead c hc
        · rw [List.mem_singleton.mp hc]
          decide
      exact ih hlead hps.2 (Nat.lt_of_succ_lt hn)
    · obtain ⟨kind, tok, htok, hkind, hreads⟩ := @next_piece _ _ _ fuel strtod p _ h hps.1 hspace hfuel
      obtain ⟨n, rfl⟩ : ∃ k, n = k + 1 := ⟨n - 1, by omega⟩
      obtain ⟨toks, lX', htoks, hlog, hall⟩ := ih h.advance hps.2 (Nat.lt_of_succ_lt_succ hn)
      refine ⟨tok :: toks, lX', ITP.returns_tokens_succ htok hkind htoks, hlog, ?_⟩
      rw [Piece.solid, List.filter_cons_of_pos (by simpa using hspace)]
      exact .cons hreads hall

end LexM

end Cyntatic
