import Cyntatic.Theorems.Keywords
import Cyntatic.Theorems.LexerText
import Cyntatic.Theorems.Numbers

/-! Words separated by single spaces are lexed to their kinds, unless one of them is an operator that the `switch` of
    `Lexer_tokenize` takes for another. -/

namespace Cyntatic
open Library Prog

/-! ### Words -/

/-- The operators and the punctuation of `TOKEN_LIST`. -/
def operators : List (List Char × TokenKind) :=
  [(['='], .tokAssign), (['&'], .tokBitAnd), (['&', '='], .tokBitAndAssign), (['|'], .tokBitOr),
    (['|', '='], .tokBitOrAssign), (['^'], .tokBitXor), (['^', '='], .tokBitXorAssign), ([':'], .tokColon),
    ([':', ':'], .tokDColon), ([','], .tokComma), (['~'], .tokComplement), (['~', '='], .tokCompAssign), (['/'], .tokDiv),
    (['.'], .tokDot), (['.', '.'], .tokDotDot), (['.', '.', '.'], .tokElipsis), (['/', '='], .tokDivAssign),
    (['=', '='], .tokEqual), (['>'], .tokGt), (['>', '='], .tokGte), (['<'], .tokLt), (['<', '='], .tokLte),
    (['{'], .tokLBrace), (['}'], .tokRBrace), (['['], .tokLBracket), ([']'], .tokRBracket), (['('], .tokLParen),
    ([')'], .tokRParen), (['&', '&'], .tokLAnd), (['|', '|'], .tokLOr), (['-'], .tokMinus), (['-', '-'], .tokMinusMinus),
    (['-', '='], .tokMinisAssign), (['*'], .tokMult), (['*', '*'], .tokExponent), (['*', '='], .tokMultAssign),
    (['!'], .tokNot), (['!', '='], .tokNeq), (['+'], .tokPlus), (['+', '+'], .tokPlusPlus), (['+', '='], .tokPlusAssign),
    (['%'], .tokMod), (['%', '='], .tokModAssign), (['?'], .tokQuestion), ([';'], .tokSemicolon), (['<', '<'], .tokSal),
    (['<', '<', '='], .tokSalAssign), (['>', '>'], .tokSar), (['>', '>', '='], .tokSarAssign), (['<', '-'], .tokLArrow),
    (['-', '>'], .tokRArrow), (['@'], .tokAt), (['#'], .tokHash), (['`'], .tokBackquote), (['$'], .tokDollar),
    (['\\'], .tokBackSlash)]

/-- The kinds of the operators that are taken for others. -/
def misread : List TokenKind := [.tokBitXor, .tokGte, .tokLte, .tokNeq, .tokRArrow]

/-- A character that an identifier starts with. -/
def isNameStart (c : U8) : Bool := c = chr '_' || isLower c || isUpper c

/-- A token with its spelling. -/
inductive Word where
  | operator (x : List Char × TokenKind) (h : x ∈ operators)
  | keyword (x : List Char × TokenKind) (h : x ∈ keywords)
  | name (c : U8) (cs : List U8) (hc : isNameStart c) (hcs : ∀ d ∈ cs, LexM.isIdent d)
      (h : ∀ x ∈ keywords, ascii x.1 ≠ c :: cs)
  | integer (n : Nat) (h : n < 2 ^ 64)

namespace Word

def kind : Word → TokenKind
  | operator x _ => x.2
  | keyword x _ => x.2
  | name .. => .tokIdentifier
  | integer .. => .tokInteger

def text : Word → List U8
  | operator x _ => ascii x.1
  | keyword x _ => ascii x.1
  | name c cs .. => c :: cs
  | integer n _ => decimal n

/-- The words with single spaces between them. -/
def source (ws : List Word) : List U8 := [chr ' '].intercalate (ws.map text)

/-- What stands behind a word. -/
def tail : List Word → List U8
  | [] => []
  | w :: ws => chr ' ' :: source (w :: ws)

theorem source_cons (w : Word) (ws : List Word) : source (w :: ws) = w.text ++ tail ws := by
  cases ws with
  | nil => simp [source, tail, List.intercalate]
  | cons w' ws => simp [source, tail, List.intercalate]

theorem headD_tail (ws : List Word) : (tail ws).headD eofChar = chr ' ' ∨ (tail ws).headD eofChar = eofChar := by
  cases ws with
  | nil => exact .inr rfl
  | cons w ws => exact .inl rfl

end Word

namespace LexM
open Lexer

/-! ### The `switch` -/

/-- Behind a space or the end of the source no operator goes on. -/
theorem lexeme_of_space {c cc ccc : U8} {b : Bool} (h : cc = chr ' ' ∨ cc = eofChar) : lexeme c cc ccc b = lexeme c cc 0 b := by
  unfold lexeme
  rcases h with rfl | rfl
  · split <;> rfl
  · split <;> rfl

/-- The characters that the `switch` has a case for, other than in a range. -/
def switchChars : List Char :=
  ['%', '/', '*', '+', '-', '|', '&', '^', '~', '>', '<', '=', '.', ':', '!', '{', '}', '[', ']', '(', ')', '@', '#', '?',
    '`', ';', ',', '$', '\\', '\'', '"', 'f']

theorem lexeme_range {c cc ccc : U8} {b : Bool} (h : Char.ofNat c.toNat ∉ switchChars) : lexeme c cc ccc b =
    if isDigit c then .number else if c = chr '_' ∨ isLower c ∨ isUpper c then .ident
    else if c = eofChar then .eof else .error := by
  unfold lexeme
  split
  case h_33 => rfl
  all_goals
    rename_i heq
    exact absurd (by rw [heq]; decide) h

/-- The characters that start a number or a word are no cases of the `switch`, save for `f`. -/
theorem notMem_switchChars : ∀ c : U8, (isDigit c = true → Char.ofNat c.toNat ∉ switchChars) ∧
    (isNameStart c = true → c ≠ chr 'f' →
      Char.ofNat c.toNat ∉ switchChars ∧ isDigit c = false ∧ (c = chr '_' ∨ isLower c ∨ isUpper c)) := by decide +kernel

theorem lexeme_digit {c cc ccc : U8} {b : Bool} (h : isDigit c = true) : lexeme c cc ccc b = .number := by
  rw [lexeme_range ((notMem_switchChars c).1 h), if_pos h]

theorem lexeme_nameStart {c cc ccc : U8} {b : Bool} (h : isNameStart c = true) (hcc : cc ≠ chr '"') :
    lexeme c cc ccc b = .ident := by
  by_cases hf : c = chr 'f'
  · subst hf
    exact if_neg hcc
  · obtain ⟨hswitch, hdigit, hrange⟩ := (notMem_switchChars c).2 h hf
    rw [lexeme_range hswitch, if_neg (by simp [hdigit]), if_pos hrange]

theorem lexeme_eof {cc ccc : U8} {b : Bool} : lexeme eofChar cc ccc b = .eof := rfl

/-- The kind and the length of what is read. -/
def Lexeme.reads : Lexeme → Option (TokenKind × Nat)
  | .add kind n => some (kind, n)
  | .addThree kind => some (kind, 4)
  | _ => none

/-- What is read of an operator before a character. -/
def readsAt (sp : List U8) (c : U8) : Option (TokenKind × Nat) :=
  (lexeme ((sp ++ [c]).getD 0 0) ((sp ++ [c]).getD 1 0) ((sp ++ [c]).getD 2 0) false).reads

theorem readsAt_spec : ∀ x ∈ operators, ∀ c ∈ [chr ' ', eofChar],
    (x.2 ∉ misread →
      readsAt (ascii x.1) c = some (x.2, x.1.length) ∨ readsAt (ascii x.1) c = some (x.2, x.1.length + 1)) ∧
    (x.2 ∈ misread → ∃ r ∈ readsAt (ascii x.1) c, r.1 ≠ x.2 ∧ r.1 ≠ .tokCOUNT) := by decide +kernel

theorem reads_operator : ∀ x ∈ operators, ∀ c ∈ [chr ' ', eofChar], x.2 ∉ misread →
    readsAt (ascii x.1) c = some (x.2, x.1.length) ∨ readsAt (ascii x.1) c = some (x.2, x.1.length + 1) :=
  fun x hx c hc => (readsAt_spec x hx c hc).1

theorem reads_misread : ∀ x ∈ operators, ∀ c ∈ [chr ' ', eofChar], x.2 ∈ misread →
    ∃ r ∈ readsAt (ascii x.1) c, r.1 ≠ x.2 ∧ r.1 ≠ .tokCOUNT := fun x hx c hc => (readsAt_spec x hx c hc).2

theorem length_operator : ∀ x ∈ operators, x.1.length = 1 ∨ x.1.length = 2 ∨ x.1.length = 3 := by decide

/-! ### Operators and names -/

variable {lX : Lexer} {sp tail w : List U8} {out tok : Token} {fuel n : Nat} {kind : TokenKind} {strtod : Strtod}

theorem reads_at (h : Rest lX (sp ++ tail)) (hlen : sp.length = 1 ∨ sp.length = 2 ∨ sp.length = 3)
    (htail : tail.headD eofChar = chr ' ' ∨ tail.headD eofChar = eofChar) :
    (lexeme (lX.peek 0) (lX.peek 1) (lX.peek 2) lX.inStrExpr).reads = readsAt sp (tail.headD eofChar) := by
  rw [h.peek, h.peek, h.peek, h.inStrExpr, readsAt]
  have hhead : tail.getD 0 eofChar = tail.headD eofChar := by cases tail <;> rfl
  rcases hlen with hlen | hlen | hlen
  · obtain ⟨a, rfl⟩ := List.length_eq_one_iff.mp hlen
    have hcc : ([a] ++ tail).getD 1 eofChar = tail.headD eofChar := hhead
    rw [hcc, lexeme_of_space htail]
    rfl
  · obtain ⟨a, b, rfl⟩ := List.length_eq_two.mp hlen
    have hccc : ([a, b] ++ tail).getD 2 eofChar = tail.headD eofChar := hhead
    rw [hccc]
    rfl
  · obtain ⟨a, b, c, rfl⟩ := List.length_eq_three.mp hlen
    rfl

theorem tokenize_reads {text : List U8} (h : Rest lX text)
    (hreads : (lexeme (lX.peek 0) (lX.peek 1) (lX.peek 2) lX.inStrExpr).reads = some (kind, n)) :
    ∃ tok, Returns (tokenize strtod fuel out) lX (kind, tok) (lX.advance n) := by
  suffices hlex : ∃ tok, Returns (tokLexeme strtod fuel out lX (lexeme (lX.peek 0) (lX.peek 1) (lX.peek 2) lX.inStrExpr)) lX
      (kind, tok) (lX.advance n) by
    obtain ⟨tok, htok⟩ := hlex
    exact ⟨tok, returns_bind.mpr ⟨lX, lX, returns_get.mpr ⟨rfl, rfl⟩, htok⟩⟩
  cases hx : lexeme (lX.peek 0) (lX.peek 1) (lX.peek 2) lX.inStrExpr <;> rw [hx] at hreads
  case add k m =>
    cases hreads
    exact ⟨_, returns_bind.mpr ⟨_, _, returns_advance.mpr ⟨rfl, rfl⟩, returns_updateToken.mpr ⟨Nat.le_refl _, rfl, rfl⟩⟩⟩
  case addThree k =>
    cases hreads
    have hle : lX.idx ≤ (lX.advance 3).idx := Nat.le_min.mpr ⟨h.idx_le, Nat.le_add_right _ _⟩
    refine ⟨_, returns_bind.mpr ⟨_, _, returns_advance.mpr ⟨rfl, rfl⟩, returns_bind.mpr ⟨_, _, returns_advance.mpr ⟨rfl, rfl⟩,
      returns_updateToken.mpr ⟨hle, rfl, ?_⟩⟩⟩⟩
    exact (lX.advance_advance 3 1).symm
  all_goals cases hreads

/-- A word of the characters of an identifier. -/
theorem tokIdent_returns {kw : Option TokenKind} (hle : lX.idx ≤ lX.src.length) (hleft : lX.left = w ++ tail)
    (hw : ∀ c ∈ w, isIdent c) (htail : isIdent (tail.headD eofChar) = false) (hkw : sKeyWordList.get w = some kw)
    (hfuel : w.length < fuel) :
    ∃ tok, Returns (tokIdent out fuel) lX (kw.getD .tokIdentifier, tok) (lX.advance w.length) := by
  have hlen : lX.src.length = lX.idx + (w ++ tail).length := by
    rw [← hleft, left, List.length_drop]
    omega
  have hidx : (lX.advance w.length).idx = lX.idx + w.length := by
    simp only [Lexer.advance, hlen, List.length_append]
    omega
  have hview : ((lX.advance w.length).rangeFrom lX.idx lX.pos).view = w := by
    change (lX.src.drop lX.idx).take ((lX.advance w.length).idx - lX.idx) = w
    rw [← left, hleft, hidx, Nat.add_sub_cancel_left, List.take_left]
  have hle' : lX.idx ≤ (lX.advance w.length).idx := hidx ▸ Nat.le_add_right _ _
  suffices hset : ∃ tok, Returns (setWord out lX.idx (lX.advance w.length).idx lX.pos kw) (lX.advance w.length)
      (kw.getD .tokIdentifier, tok) (lX.advance w.length) by
    obtain ⟨tok, htok⟩ := hset
    refine ⟨tok, returns_bind.mpr ⟨lX, lX, returns_get.mpr ⟨rfl, rfl⟩, returns_bind.mpr ⟨(), _, advanceWhile_returns hle hleft hw htail hfuel,
      returns_bind.mpr ⟨_, _, returns_get.mpr ⟨rfl, rfl⟩, returns_bind.mpr ⟨kw, _, ?_, htok⟩⟩⟩⟩⟩
    rw [hview, hkw]
    exact returns_ofOption.mpr ⟨rfl, rfl⟩
  cases kw with
  | none => exact ⟨_, returns_updateToken.mpr ⟨hle', rfl, rfl⟩⟩
  | some kw => exact ⟨_, returns_updateToken.mpr ⟨hle', rfl, rfl⟩⟩

/-! ### Integers -/

theorem setNumber_returns {start : Nat} {pos : LineColumn} {text : List U8} {r : Strto} {fmt : String} (he : lX.erange = false)
    (hr : r.erange = false) (hstop : text.getD r.stop 0 = 0) (hle : start ≤ lX.idx) :
    ∃ tok, Returns (setNumber out kind start pos text r fmt) lX (kind, tok) lX := by
  have hsame : { lX with erange := lX.erange || r.erange } = lX := by rw [hr, Bool.or_false]
  have hset : ∃ tok, Returns (updateToken { out with value := .int r.value } kind start lX.idx pos) lX (kind, tok) lX :=
    ⟨_, returns_updateToken.mpr ⟨hle, rfl, rfl⟩⟩
  obtain ⟨tok, htok⟩ := hset
  refine ⟨tok, returns_bind.mpr ⟨(), lX, returns_modify.mpr hsame.symm, returns_bind.mpr ⟨lX, lX, returns_get.mpr ⟨rfl, rfl⟩, ?_⟩⟩⟩
  rw [if_neg]
  · exact htok
  · rw [he, hstop]
    simp

/-- The digits that have been read are a number below `2 ^ 64`. -/
theorem parseInteger_returns {base : Nat} {value : U64} (h : Rest lX (w ++ tail)) (hbase : base ≠ 16 ∧ base ≠ 2)
    (hlen : w.length ≤ 39) (hvalue : strtoull w base = ⟨value, false, w.length⟩) :
    ∃ tok, Returns (parseInteger out lX.idx lX.pos base) (lX.advance w.length) (.tokInteger, tok) (lX.advance w.length) := by
  have hidx : (lX.advance w.length).idx = lX.idx + w.length :=
    h.idx_advance (by rw [List.length_append]; exact Nat.le_add_right _ _)
  have hstart : (if base = 16 ∨ base = 2 then lX.idx + 2 else lX.idx) = lX.idx := if_neg (not_or.mpr hbase)
  have hlength : (lX.advance w.length).idx - lX.idx = w.length := by rw [hidx, Nat.add_sub_cancel_left]
  have htext : ((lX.advance w.length).src.drop lX.idx).take w.length = w := by
    change (lX.src.drop lX.idx).take w.length = w
    rw [h.drop, List.take_left]
  have hset : ∃ tok, Returns (setNumber out .tokInteger lX.idx lX.pos w (strtoull w base) "parsing integer failed: %s")
      (lX.advance w.length) (.tokInteger, tok) (lX.advance w.length) := by
    refine setNumber_returns h.advance_length.erange ?_ ?_ (hidx ▸ Nat.le_add_right _ _)
    · rw [hvalue]
    · rw [hvalue]
      simp
  obtain ⟨tok, htok⟩ := hset
  refine ⟨tok, returns_bind.mpr ⟨_, _, returns_get.mpr ⟨rfl, rfl⟩, ?_⟩⟩
  simp only [hstart, hlength, htext]
  refine returns_bind.mpr ⟨(), _, returns_stopIf.mpr ⟨?_, rfl⟩, htok⟩
  rw [hstart, hlength]
  exact Nat.not_lt.mpr hlen

theorem tokOctalNumber_zero (h : Rest lX (decimal 0 ++ tail)) (hdigit : isDigit (tail.headD eofChar) = false)
    (hfuel : 1 < fuel) : ∃ tok, Returns (tokOctalNumber strtod out fuel) lX (.tokInteger, tok) (lX.advance 1) := by
  have hoct : isOct (tail.headD eofChar) = false := by
    have himp : ∀ c : U8, isDigit c = false → isOct c = false := by decide +kernel
    exact himp _ hdigit
  have hpeek : (lX.advance 1).peek 0 = tail.headD eofChar := (h.advance_length : Rest (lX.advance 1) tail).peek_zero
  have hzero : strtoull (decimal 0) 8 = ⟨0, false, 1⟩ := by decide +kernel
  have hone : (decimal 0).length = 1 := rfl
  have hparse : ∃ tok, Returns (parseInteger out lX.idx lX.pos 8) (lX.advance (decimal 0).length) (.tokInteger, tok)
      (lX.advance (decimal 0).length) := parseInteger_returns h (by decide) (by decide) hzero
  rw [hone] at hparse
  obtain ⟨tok, htok⟩ := hparse
  refine ⟨tok, returns_bind.mpr ⟨_, _, returns_get.mpr ⟨rfl, rfl⟩, returns_bind.mpr ⟨(), _,
    advanceWhile_returns h.idx_le h.left (by decide) hoct hfuel, returns_bind.mpr ⟨_, _, returns_peek.mpr ⟨rfl, rfl⟩, ?_⟩⟩⟩⟩
  change Returns (if isDigit ((lX.advance 1).peek 0) then _ else _) _ _ _
  rw [if_neg]
  · exact htok
  · rw [hpeek, hdigit]
    exact Bool.false_ne_true

theorem tokDecimalNumber_returns (hn : n < 2 ^ 64) (h : Rest lX (decimal n ++ tail))
    (htail : tail.headD eofChar = chr ' ' ∨ tail.headD eofChar = eofChar) (hfuel : (decimal n).length < fuel) :
    ∃ tok, Returns (tokDecimalNumber strtod out fuel) lX (.tokInteger, tok) (lX.advance (decimal n).length) := by
  have hpeek : (lX.advance (decimal n).length).peek 0 = tail.headD eofChar := h.advance_length.peek_zero
  have hend : isDigit (tail.headD eofChar) = false ∧ toUpper (tail.headD eofChar) ≠ chr 'E' ∧ tail.headD eofChar ≠ chr '.' := by
    rcases htail with heq | heq <;> rw [heq] <;> decide
  have hlen := length_decimal hn
  have hparse : ∃ tok, Returns (parseInteger out lX.idx lX.pos 10) (lX.advance (decimal n).length) (.tokInteger, tok)
      (lX.advance (decimal n).length) := parseInteger_returns h (by decide) (by omega) (strtoull_decimal hn)
  obtain ⟨tok, htok⟩ := hparse
  refine ⟨tok, returns_bind.mpr ⟨_, _, returns_get.mpr ⟨rfl, rfl⟩, returns_bind.mpr ⟨(), _,
    advanceWhile_returns h.idx_le h.left (fun c hc => isDigit_of_mem_decimal hc) hend.1 hfuel,
    returns_bind.mpr ⟨_, _, returns_peek.mpr ⟨rfl, rfl⟩, ?_⟩⟩⟩⟩
  rw [hpeek, if_neg (not_or.mpr hend.2)]
  exact htok

theorem tokNumber_returns (hn : n < 2 ^ 64) (h : Rest lX (decimal n ++ tail))
    (htail : tail.headD eofChar = chr ' ' ∨ tail.headD eofChar = eofChar) (hfuel : (decimal n).length < fuel) :
    ∃ tok, Returns (tokNumber strtod out fuel) lX (.tokInteger, tok) (lX.advance (decimal n).length) := by
  by_cases hzero : n = 0
  · subst hzero
    have hend : isDigit (tail.headD eofChar) = false ∧ toUpper (tail.headD eofChar) ≠ chr 'X' ∧
        toUpper (tail.headD eofChar) ≠ chr 'B' ∧ toUpper (tail.headD eofChar) ≠ chr '.' ∧
        toUpper (tail.headD eofChar) ≠ chr 'E' := by
      rcases htail with heq | heq <;> rw [heq] <;> decide
    have hc : lX.peek 0 = chr '0' := h.peek_zero
    have hcc : lX.peek 1 = tail.headD eofChar := by
      rw [h.peek]
      cases tail <;> rfl
    obtain ⟨tok, htok⟩ := tokOctalNumber_zero h hend.1 hfuel
    refine ⟨tok, returns_bind.mpr ⟨lX, lX, returns_get.mpr ⟨rfl, rfl⟩, ?_⟩⟩
    dsimp only
    rw [hcc, if_pos hc, if_neg fun hand => hend.2.1 hand.1, if_neg fun hand => hend.2.2.1 hand.1, if_neg (not_or.mpr hend.2.2.2)]
    exact htok
  · have hc : lX.peek 0 ≠ chr '0' := by
      obtain ⟨c, t, hct⟩ := List.exists_cons_of_ne_nil (decimal_ne_nil n)
      have hhead := head_decimal hzero
      rw [h.peek_zero, hct]
      rw [hct] at hhead
      exact hhead
    obtain ⟨tok, htok⟩ := tokDecimalNumber_returns hn h htail hfuel
    refine ⟨tok, returns_bind.mpr ⟨lX, lX, returns_get.mpr ⟨rfl, rfl⟩, ?_⟩⟩
    dsimp only
    rw [if_neg hc]
    exact htok

/-! ### Words -/

/-- The words that the lexer has not read. -/
def Ahead (lX : Lexer) (ws : List Word) : Prop :=
  ∃ lead, (lead = [] ∨ lead = [chr ' ']) ∧ Rest lX (lead ++ Word.source ws)

theorem ahead_tail {ws : List Word} (h : Rest lX (Word.tail ws)) : Ahead lX ws := by
  cases ws with
  | nil => exact ⟨[], .inl rfl, h⟩
  | cons w ws => exact ⟨[chr ' '], .inr rfl, h⟩

theorem drop_one_tail (ws : List Word) : (Word.tail ws).drop 1 = Word.source ws := by
  cases ws with
  | nil => rfl
  | cons w ws => rfl

theorem isSpace_operator : ∀ x ∈ operators, ascii x.1 ≠ [] ∧ isSpace ((ascii x.1).headD eofChar) = false := by decide

theorem ne_count_operator : ∀ x ∈ operators, x.2 ≠ .tokCOUNT := by decide

theorem isNameStart_keyword : ∀ x ∈ keywords, ascii x.1 ≠ [] ∧ isNameStart ((ascii x.1).headD eofChar) = true := by decide

theorem isIdent_keyword : ∀ x ∈ keywords, ∀ c ∈ ascii x.1, isIdent c = true := by
  have hall : ∀ x ∈ keywords, (ascii x.1).all isIdent = true := by decide
  intro x hx
  exact List.all_eq_true.mp (hall x hx)

theorem ne_count_keyword : ∀ x ∈ keywords, x.2 ≠ .tokCOUNT ∧ x.2 ∉ misread := by decide

/-- The classes of characters, as far as words and numbers need them. -/
theorem isIdent_spec : ∀ c : U8, (isIdent c = true → c ≠ 0 ∧ c ≠ chr '"') ∧
    (isNameStart c = true → isSpace c = false ∧ isIdent c = true) ∧ (isDigit c = true → isSpace c = false) := by decide +kernel

theorem ne_of_isIdent : ∀ c : U8, isIdent c = true → c ≠ 0 ∧ c ≠ chr '"' := fun c => (isIdent_spec c).1

theorem isSpace_nameStart : ∀ c : U8, isNameStart c = true → isSpace c = false ∧ isIdent c = true :=
  fun c => (isIdent_spec c).2.1

theorem isSpace_digit : ∀ c : U8, isDigit c = true → isSpace c = false := fun c => (isIdent_spec c).2.2

/-- No word starts with a space. -/
theorem isSpace_text (v : Word) : v.text ≠ [] ∧ isSpace (v.text.headD eofChar) = false := by
  cases v with
  | operator x hx => exact isSpace_operator x hx
  | keyword x hx =>
    obtain ⟨hne, hstart⟩ := isNameStart_keyword x hx
    exact ⟨hne, (isSpace_nameStart _ hstart).1⟩
  | name c cs hc => exact ⟨List.cons_ne_nil c cs, (isSpace_nameStart c hc).1⟩
  | integer n =>
    obtain ⟨c, t, hct⟩ := List.exists_cons_of_ne_nil (decimal_ne_nil n)
    refine ⟨decimal_ne_nil n, ?_⟩
    rw [Word.text, hct]
    exact isSpace_digit c (isDigit_of_mem_decimal (hct ▸ List.mem_cons_self))

theorem isSpace_source (v : Word) (text : List U8) : isSpace ((v.text ++ text).headD eofChar) = false := by
  obtain ⟨hne, hspace⟩ := isSpace_text v
  obtain ⟨c, t, hct⟩ := List.exists_cons_of_ne_nil hne
  rw [hct] at hspace ⊢
  exact hspace

theorem tokenize_ident {kw : Option TokenKind} (h : Rest lX (w ++ tail)) (hstart : isNameStart (w.headD eofChar) = true)
    (hw : ∀ c ∈ w, isIdent c) (htail : tail.headD eofChar = chr ' ' ∨ tail.headD eofChar = eofChar)
    (hkw : sKeyWordList.get w = some kw) (hfuel : w.length < fuel) :
    ∃ tok, Returns (tokenize strtod fuel out) lX (kw.getD .tokIdentifier, tok) (lX.advance w.length) := by
  have hend : isIdent (tail.headD eofChar) = false ∧ tail.headD eofChar ≠ chr '"' := by
    rcases htail with heq | heq <;> rw [heq] <;> decide
  have hc : lX.peek 0 = w.headD eofChar ∧ lX.peek 1 ≠ chr '"' := by
    rw [h.peek, h.peek]
    cases w with
    | nil => cases hstart
    | cons c t =>
      refine ⟨rfl, ?_⟩
      cases t with
      | nil =>
        have hhead : ([c] ++ tail).getD 1 eofChar = tail.headD eofChar := by cases tail <;> rfl
        rw [hhead]
        exact hend.2
      | cons d t => exact (ne_of_isIdent d (hw d (List.mem_cons_of_mem c List.mem_cons_self))).2
  have hlex : lexeme (lX.peek 0) (lX.peek 1) (lX.peek 2) lX.inStrExpr = .ident := by
    rw [hc.1]
    exact lexeme_nameStart hstart hc.2
  have hident : ∃ tok, Returns (tokIdent out fuel) lX (kw.getD .tokIdentifier, tok) (lX.advance w.length) :=
    tokIdent_returns h.idx_le h.left hw hend.1 hkw hfuel
  obtain ⟨tok, htok⟩ := hident
  refine ⟨tok, returns_bind.mpr ⟨lX, lX, returns_get.mpr ⟨rfl, rfl⟩, ?_⟩⟩
  rw [hlex]
  exact htok

theorem tokenize_number (hn : n < 2 ^ 64) (h : Rest lX (decimal n ++ tail))
    (htail : tail.headD eofChar = chr ' ' ∨ tail.headD eofChar = eofChar) (hfuel : (decimal n).length < fuel) :
    ∃ tok, Returns (tokenize strtod fuel out) lX (.tokInteger, tok) (lX.advance (decimal n).length) := by
  have hlex : lexeme (lX.peek 0) (lX.peek 1) (lX.peek 2) lX.inStrExpr = .number := by
    refine lexeme_digit ?_
    obtain ⟨c, t, hct⟩ := List.exists_cons_of_ne_nil (decimal_ne_nil n)
    rw [h.peek_zero, hct]
    exact isDigit_of_mem_decimal (hct ▸ List.mem_cons_self)
  have hnumber : ∃ tok, Returns (tokNumber strtod out fuel) lX (.tokInteger, tok) (lX.advance (decimal n).length) :=
    tokNumber_returns hn h htail hfuel
  obtain ⟨tok, htok⟩ := hnumber
  refine ⟨tok, returns_bind.mpr ⟨lX, lX, returns_get.mpr ⟨rfl, rfl⟩, ?_⟩⟩
  rw [hlex]
  exact htok

/-- An operator that is not taken for another is read to its end, or with the space behind it. -/
theorem next_operator {lead : List U8} {ws : List Word} {x : List Char × TokenKind} (hx : x ∈ operators)
    (h : Rest lX (lead ++ (ascii x.1 ++ Word.tail ws))) (hlead : lead = [] ∨ lead = [chr ' ']) (hfuel : 1 < fuel) :
    ∃ k tok lX', Returns (next strtod fuel) lX (k, tok) lX' ∧
      if x.2 ∈ misread then k ≠ x.2 else k = x.2 ∧ Ahead lX' ws := by
  have hsp : isSpace ((ascii x.1 ++ Word.tail ws).headD eofChar) = false := isSpace_source (.operator x hx) _
  have hrest : Rest (lX.advance lead.length) (ascii x.1 ++ Word.tail ws) := h.advance_length
  have hlen : (ascii x.1).length = x.1.length := List.length_map _
  have hreads := reads_at hrest (hlen ▸ length_operator x hx) (Word.headD_tail ws)
  have hmem : (Word.tail ws).headD eofChar ∈ [chr ' ', eofChar] := by
    rcases Word.headD_tail ws with heq | heq <;> rw [heq] <;> decide
  have htoken : ∀ k n, k ≠ .tokCOUNT → readsAt (ascii x.1) ((Word.tail ws).headD eofChar) = some (k, n) →
      ∃ tok, Returns (next strtod fuel) lX (k, tok) ((lX.advance lead.length).advance n) := fun k n hk hr =>
    next_returns h hlead hsp hfuel hk fun out => tokenize_reads hrest (hreads.trans hr)
  by_cases hmis : x.2 ∈ misread
  · obtain ⟨⟨k, n⟩, hr, hne, hcount⟩ := reads_misread x hx _ hmem hmis
    obtain ⟨tok, htok⟩ := htoken k n hcount hr
    exact ⟨k, tok, _, htok, by rwa [if_pos hmis]⟩
  · rcases reads_operator x hx _ hmem hmis with hr | hr
    · obtain ⟨tok, htok⟩ := htoken _ _ (ne_count_operator x hx) hr
      refine ⟨_, tok, _, htok, ?_⟩
      rw [if_neg hmis, ← hlen]
      exact ⟨rfl, ahead_tail hrest.advance_length⟩
    · obtain ⟨tok, htok⟩ := htoken _ _ (ne_count_operator x hx) hr
      refine ⟨_, tok, _, htok, ?_⟩
      have hdrop := hrest.advance (x.1.length + 1)
      rw [← hlen, ← List.drop_drop, List.drop_left, drop_one_tail] at hdrop
      rw [if_neg hmis, ← hlen]
      exact ⟨rfl, [], .inl rfl, hdrop⟩

theorem next_word {ws : List Word} {v : Word} (h : Ahead lX (v :: ws)) (hfuel : v.text.length < fuel) (hfuel' : 1 < fuel)
    (hlen : v.text.length < 2 ^ 31) :
    ∃ k tok lX', Returns (next strtod fuel) lX (k, tok) lX' ∧
      if v.kind ∈ misread then k ≠ v.kind else k = v.kind ∧ Ahead lX' ws := by
  obtain ⟨lead, hlead, h⟩ := h
  rw [Word.source_cons] at h
  have hrest : Rest (lX.advance lead.length) (v.text ++ Word.tail ws) := h.advance_length
  have hahead : Ahead ((lX.advance lead.length).advance v.text.length) ws := ahead_tail hrest.advance_length
  have htail := Word.headD_tail ws
  have hsp := isSpace_source v (Word.tail ws)
  cases v with
  | operator x hx => exact next_operator hx h hlead hfuel'
  | keyword x hx =>
    have hstart := (isNameStart_keyword x hx).2
    have hcount := ne_count_keyword x hx
    have htoken : ∃ tok, Returns (next strtod fuel) lX (x.2, tok) ((lX.advance lead.length).advance (ascii x.1).length) :=
      next_returns h hlead hsp hfuel' hcount.1 fun out =>
        tokenize_ident hrest hstart (isIdent_keyword x hx) htail (get_keyword x hx) hfuel
    obtain ⟨tok, htok⟩ := htoken
    refine ⟨x.2, tok, _, htok, ?_⟩
    rw [Word.kind, if_neg hcount.2]
    exact ⟨rfl, hahead⟩
  | name c cs hc hcs hkw =>
    have hident : ∀ d ∈ c :: cs, isIdent d = true := List.forall_mem_cons.mpr ⟨(isSpace_nameStart c hc).2, hcs⟩
    have hget : sKeyWordList.get (c :: cs) = some none :=
      get_name (fun hnul => (ne_of_isIdent 0 (hident 0 hnul)).1 rfl) hlen hkw
    have htoken : ∃ tok, Returns (next strtod fuel) lX (.tokIdentifier, tok)
        ((lX.advance lead.length).advance (c :: cs).length) :=
      next_returns h hlead hsp hfuel' (by decide) fun out =>
        tokenize_ident hrest hc hident htail hget hfuel
    obtain ⟨tok, htok⟩ := htoken
    refine ⟨_, tok, _, htok, ?_⟩
    rw [Word.kind, if_neg (by decide)]
    exact ⟨rfl, hahead⟩
  | integer n hn =>
    have htoken : ∃ tok, Returns (next strtod fuel) lX (.tokInteger, tok)
        ((lX.advance lead.length).advance (decimal n).length) :=
      next_returns h hlead hsp hfuel' (by decide) fun out => tokenize_number hn hrest htail hfuel
    obtain ⟨tok, htok⟩ := htoken
    refine ⟨_, tok, _, htok, ?_⟩
    rw [Word.kind, if_neg (by decide)]
    exact ⟨rfl, hahead⟩

theorem next_eof (h : Ahead lX []) (hfuel : 1 < fuel) :
    ∃ tok lX', Returns (next strtod fuel) lX (.tokEoF, tok) lX' := by
  obtain ⟨lead, hlead, h⟩ := h
  have hrest : Rest (lX.advance lead.length) [] := h.advance_length
  have hpeek : (lX.advance lead.length).peek 0 = eofChar := hrest.peek_zero
  have htoken : ∃ tok, Returns (next strtod fuel) lX (.tokEoF, tok) (lX.advance lead.length) := by
    refine next_returns h hlead (by decide) hfuel (by decide) fun out => ⟨out, ?_⟩
    refine returns_bind.mpr ⟨_, _, returns_get.mpr ⟨rfl, rfl⟩, ?_⟩
    rw [hpeek, lexeme_eof]
    exact returns_pure.mpr ⟨rfl, rfl⟩
  obtain ⟨tok, htok⟩ := htoken
  exact ⟨tok, _, htok⟩

theorem calls_source {ws : List Word} (h : Ahead lX ws) (hfuel : (Word.source ws).length + 2 ≤ fuel)
    (hlen : (Word.source ws).length < 2 ^ 31) :
    (∃ lX', Calls strtod fuel lX (ws.map Word.kind ++ [.tokEoF]) lX') ↔ ∀ v ∈ ws, v.kind ∉ misread := by
  induction ws generalizing lX with
  | nil =>
    have heof : ∃ tok lX', Returns (next strtod fuel) lX (.tokEoF, tok) lX' := next_eof h (by omega)
    obtain ⟨tok, lX', htok⟩ := heof
    rw [List.map_nil, List.nil_append]
    exact iff_of_true ⟨lX', .cons htok .nil⟩ fun v hv => absurd hv List.not_mem_nil
  | cons v ws ih =>
    have hlength : (Word.source (v :: ws)).length = v.text.length + (Word.tail ws).length := by
      rw [Word.source_cons, List.length_append]
    have hdrop : (Word.source ws).length = (Word.tail ws).length - 1 := by
      rw [← drop_one_tail, List.length_drop]
    have hword : ∃ k tok lX', Returns (next strtod fuel) lX (k, tok) lX' ∧
        if v.kind ∈ misread then k ≠ v.kind else k = v.kind ∧ Ahead lX' ws :=
      next_word h (by omega) (by omega) (by omega)
    obtain ⟨k, tok, lX', htok, hk⟩ := hword
    rw [List.forall_mem_cons, List.map_cons, List.cons_append]
    split at hk
    · rename_i hmis
      refine iff_of_false ?_ fun hall => hall.1 hmis
      rintro ⟨lX'', hcalls⟩
      cases hcalls with
      | cons hfirst => exact hk (congrArg Prod.fst (hfirst.unique htok).1)
    · rename_i hmis
      obtain ⟨rfl, hahead⟩ := hk
      rw [← ih hahead (by omega) (by omega)]
      constructor
      · rintro ⟨lX'', hcalls⟩
        refine ⟨hmis, lX'', ?_⟩
        cases hcalls with
        | cons hfirst hrest =>
          obtain ⟨-, rfl⟩ := htok.unique hfirst
          exact hrest
      · rintro ⟨-, lX'', hcalls⟩
        exact ⟨lX'', .cons htok hcalls⟩

end LexM

namespace Lexer

/-- Words with single spaces between them lex to their kinds just if none of them is `^`, `>=`, `<=`, `!=` or `->`. -/
theorem calls_words (strtod : LexM.Strtod) (log : Log) (ws : List Word) (fuel : Nat)
    (hlen : (Word.source ws).length < 2 ^ 31) (hfuel : (Word.source ws).length + 2 ≤ fuel) :
    (∃ lX, Calls strtod fuel (init log false (Word.source ws)) (ws.map Word.kind ++ [.tokEoF]) lX) ↔
      ∀ v ∈ ws, v.kind ∉ misread :=
  LexM.calls_source ⟨[], .inl rfl, rest_init log _⟩ hfuel hlen

/-- `a += 10` -/
theorem calls_words_three : ∃ lX, Calls (fun _ => ⟨0, false, 0⟩) 9 (init {} false (ascii ['a', ' ', '+', '=', ' ', '1', '0']))
    [.tokIdentifier, .tokPlusAssign, .tokInteger, .tokEoF] lX :=
  (calls_words (fun _ => ⟨0, false, 0⟩) {}
    [.name (chr 'a') [] (by decide) (by decide) (by decide), .operator (['+', '='], .tokPlusAssign) (by decide),
      .integer 10 (by decide)] 9 (by decide) (by decide)).mpr (by decide)

/-- The word `^` lexes to the kind of `|`, and not to its own. -/
theorem caret_misread :
    (∃ lX, Calls (fun _ => ⟨0, false, 0⟩) 3 (init {} false (ascii ['^'])) [.tokBitOr, .tokEoF] lX) ∧
      ¬∃ lX, Calls (fun _ => ⟨0, false, 0⟩) 3 (init {} false (ascii ['^'])) [.tokBitXor, .tokEoF] lX := by
  have hcaret : (['^'], TokenKind.tokBitXor) ∈ operators := by decide
  have hsource : ascii ['^'] = Word.source [.operator _ hcaret] := rfl
  constructor
  · obtain ⟨r, lX, hxor, hlX⟩ := Prog.exists_of_passes (m := LexM.next (fun _ => ⟨0, false, 0⟩) 3)
      (s := init {} false (ascii ['^']))
      (p := fun r lX => r.1 = .tokBitOr ∧ lX = (init {} false (ascii ['^'])).advance 1) (by decide +kernel)
    obtain ⟨hkind, rfl⟩ := of_decide_eq_true hlX
    obtain ⟨r', lX', heof, hkind'⟩ := Prog.exists_of_passes (m := LexM.next (fun _ => ⟨0, false, 0⟩) 3)
      (s := (init {} false (ascii ['^'])).advance 1) (p := fun r _ => r.1 = .tokEoF) (by decide +kernel)
    obtain ⟨k, tok⟩ := r
    obtain ⟨k', tok'⟩ := r'
    obtain rfl : k = .tokBitOr := hkind
    obtain rfl : k' = .tokEoF := of_decide_eq_true hkind'
    exact ⟨lX', .cons hxor (.cons heof .nil)⟩
  · intro h
    have hahead : LexM.Ahead (init {} false (ascii ['^'])) [.operator _ hcaret] := ⟨[], .inl rfl, hsource ▸ rest_init {} _⟩
    have hlen : (Word.source [.operator _ hcaret]).length = 1 := rfl
    have hgood := (LexM.calls_source hahead (by rw [hlen]) (by rw [hlen]; decide)).mp h
    have hmis : TokenKind.tokBitXor ∈ misread := by decide
    exact hgood _ List.mem_cons_self hmis

end Lexer

end Cyntatic
