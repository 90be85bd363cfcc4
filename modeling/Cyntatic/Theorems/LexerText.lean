import Cyntatic.Theorems.LexerMoves

/-! What the lexer does, in terms of the text that is left of the source. -/

namespace Cyntatic
open Library Prog

namespace Lexer
variable {lX : Lexer} {text tail w : List U8} {n m : Nat}

/-! ### What is left of the source -/

def left (lX : Lexer) : List U8 := lX.src.drop lX.idx

theorem peek_eq (lX : Lexer) (n : Nat) : lX.peek n = lX.left.getD n eofChar := by
  rw [Lexer.peek, List.getD_eq_getElem?_getD, List.getD_eq_getElem?_getD, left, List.getElem?_drop]

theorem peek_zero (lX : Lexer) : lX.peek 0 = lX.left.headD eofChar := by
  rw [peek_eq]
  cases lX.left <;> rfl

theorem left_advance (lX : Lexer) (n : Nat) : (lX.advance n).left = lX.left.drop n := by
  change lX.src.drop (min lX.src.length (lX.idx + n)) = (lX.src.drop lX.idx).drop n
  rw [List.drop_drop]
  rcases Nat.le_total lX.src.length (lX.idx + n) with hle | hle
  · rw [Nat.min_eq_left hle, List.drop_length, List.drop_of_length_le hle]
  · rw [Nat.min_eq_right hle]

theorem advance_zero (h : lX.idx ≤ lX.src.length) : lX.advance 0 = lX := by
  unfold Lexer.advance
  rw [Nat.add_zero, List.take_zero, Nat.min_eq_right h]
  rfl

theorem advance_advance (lX : Lexer) (m n : Nat) : (lX.advance m).advance n = lX.advance (m + n) := by
  have hdrop : lX.src.drop (min lX.src.length (lX.idx + m)) = (lX.src.drop lX.idx).drop m := lX.left_advance m
  have hidx : min lX.src.length (min lX.src.length (lX.idx + m) + n) = min lX.src.length (lX.idx + (m + n)) := by omega
  unfold Lexer.advance
  simp only [hdrop, hidx, List.take_add, List.foldl_append]

/-- A lexer before a text, outside a string expression and before any number is out of range. -/
structure Rest (lX : Lexer) (text : List U8) : Prop where
  idx_le : lX.idx ≤ lX.src.length
  drop : lX.src.drop lX.idx = text
  inStrExpr : lX.inStrExpr = false
  next : lX.next.kind = .tokCOUNT
  erange : lX.erange = false

theorem rest_init (log : Log) (src : List U8) : Rest (init log false src) src := ⟨Nat.zero_le _, rfl, rfl, rfl, rfl⟩

theorem Rest.left (h : Rest lX text) : lX.left = text := h.drop

theorem Rest.peek (h : Rest lX text) (n : Nat) : lX.peek n = text.getD n eofChar := by rw [peek_eq, h.left]

theorem Rest.peek_zero (h : Rest lX text) : lX.peek 0 = text.headD eofChar := by rw [Lexer.peek_zero, h.left]

theorem Rest.length (h : Rest lX text) : lX.src.length = lX.idx + text.length := by
  have := h.idx_le
  rw [← h.drop, List.length_drop]
  omega

theorem Rest.idx_advance (h : Rest lX text) (hn : n ≤ text.length) : (lX.advance n).idx = lX.idx + n := by
  have := h.length
  simp only [Lexer.advance]
  omega

theorem Rest.advance (h : Rest lX text) (n : Nat) : Rest (lX.advance n) (text.drop n) where
  idx_le := Nat.min_le_left _ _
  drop := h.left ▸ lX.left_advance n
  inStrExpr := h.inStrExpr
  next := h.next
  erange := h.erange

theorem Rest.advance_length (h : Rest lX (w ++ tail)) : Rest (lX.advance w.length) tail := by
  have hadv := h.advance w.length
  rwa [List.drop_left] at hadv

theorem Rest.advance_zero (h : Rest lX text) : lX.advance 0 = lX := Lexer.advance_zero h.idx_le

end Lexer

namespace LexM
open Lexer
variable {lX lX' : Lexer} {text tail w : List U8} {fuel : Nat} {p : U8 → Bool} {tok : Token}

theorem returns_peek {n : Nat} {c : U8} : Returns (peek n) lX c lX' ↔ c = lX.peek n ∧ lX' = lX := by
  unfold peek
  simp only [returns_bind, returns_get, returns_pure]
  constructor
  · rintro ⟨s, t, ⟨rfl, rfl⟩, h⟩
    exact h
  · rintro ⟨rfl, rfl⟩
    exact ⟨_, _, ⟨rfl, rfl⟩, rfl, rfl⟩

theorem returns_advance {n i : Nat} : Returns (advance n) lX i lX' ↔ i = lX.idx ∧ lX' = lX.advance n := by
  unfold advance
  simp only [returns_bind, returns_get, returns_modify, returns_pure]
  constructor
  · rintro ⟨s, t, ⟨rfl, rfl⟩, u, v, rfl, h⟩
    exact h
  · rintro ⟨rfl, rfl⟩
    exact ⟨lX, lX, ⟨rfl, rfl⟩, (), _, rfl, rfl, rfl⟩

/-- A loop over the characters of a class. -/
theorem advanceWhile_advances (h : lX.idx ≤ lX.src.length) (hp : p ((lX.left.dropWhile p).headD eofChar) = false)
    (hfuel : (lX.left.takeWhile p).length < fuel) :
    Returns (advanceWhile p fuel) lX () (lX.advance (lX.left.takeWhile p).length) := by
  induction fuel generalizing lX with
  | zero => omega
  | succ fuel ih =>
    cases hc : p (lX.left.headD eofChar) with
    | false =>
      have hnil : lX.left.takeWhile p = [] := by
        rcases hleft : lX.left with _ | ⟨c, text⟩
        · rfl
        · rw [hleft, List.headD_cons] at hc
          rw [List.takeWhile_cons, hc, if_neg Bool.false_ne_true]
      rw [hnil, List.length_nil, lX.advance_zero h]
      refine returns_bind.mpr ⟨.done (), lX, returns_bind.mpr ⟨_, lX, returns_peek.mpr ⟨rfl, rfl⟩, ?_⟩, returns_pure.mpr ⟨rfl, rfl⟩⟩
      rw [lX.peek_zero, hc]
      exact returns_pure.mpr ⟨rfl, rfl⟩
    | true =>
      have hcons : lX.left = lX.left.headD eofChar :: (lX.advance 1).left := by
        rw [left_advance]
        rcases hleft : lX.left with _ | ⟨c, text⟩
        · rw [hleft] at hc hp
          exact absurd (hc.symm.trans hp) (by decide)
        · rfl
      rw [hcons, List.dropWhile_cons_of_pos hc] at hp
      rw [hcons, List.takeWhile_cons_of_pos hc, List.length_cons] at hfuel ⊢
      have hrest := @ih (lX.advance 1) (Nat.min_le_left _ _) hp (by omega)
      rw [advance_advance, Nat.add_comm] at hrest
      refine returns_bind.mpr ⟨.again (), lX.advance 1, returns_bind.mpr ⟨_, lX, returns_peek.mpr ⟨rfl, rfl⟩, ?_⟩, hrest⟩
      rw [lX.peek_zero, hc]
      exact returns_bind.mpr ⟨_, _, returns_advance.mpr ⟨rfl, rfl⟩, returns_pure.mpr ⟨rfl, rfl⟩⟩

theorem advanceWhile_returns (hidx : lX.idx ≤ lX.src.length) (hleft : lX.left = w ++ tail) (hw : ∀ c ∈ w, p c)
    (htail : p (tail.headD eofChar) = false) (hfuel : w.length < fuel) :
    Returns (advanceWhile p fuel) lX () (lX.advance w.length) := by
  have hspan : tail.takeWhile p = [] ∧ tail.dropWhile p = tail := by
    rcases tail with _ | ⟨c, tail⟩
    · exact ⟨rfl, rfl⟩
    · have hc : ¬p c = true := by rw [show p c = false from htail]; decide
      exact ⟨List.takeWhile_cons_of_neg hc, List.dropWhile_cons_of_neg hc⟩
  have htake : lX.left.takeWhile p = w := by rw [hleft, List.takeWhile_append_of_pos hw, hspan.1, List.append_nil]
  have hdrop : lX.left.dropWhile p = tail := by rw [hleft, List.dropWhile_append_of_pos hw, hspan.2]
  have hadv := advanceWhile_advances hidx (by rw [hdrop, htail]) (by rw [htake]; exact hfuel)
  rwa [htake] at hadv

/-- The space before a token. -/
theorem skipSpace_returns (h : Rest lX text) (htext : isSpace (text.headD eofChar) = false) (hfuel : 0 < fuel) :
    Returns (skipSpace tok fuel) lX tok lX := by
  obtain ⟨fuel, rfl⟩ : ∃ k, fuel = k + 1 := ⟨fuel - 1, by omega⟩
  refine returns_bind.mpr ⟨.done tok, lX, returns_bind.mpr ⟨lX, lX, returns_get.mpr ⟨rfl, rfl⟩, ?_⟩, returns_pure.mpr ⟨rfl, rfl⟩⟩
  have hc : ¬(lX.idx < lX.src.length ∧ isSpace (lX.peek 0) = true) := by
    rw [h.peek_zero, htext]
    rintro ⟨-, hfalse⟩
    cases hfalse
  rw [if_neg hc]
  exact returns_pure.mpr ⟨rfl, rfl⟩

theorem skipSpace_one_returns (h : Rest lX (chr ' ' :: text)) (htext : isSpace (text.headD eofChar) = false)
    (hfuel : 1 < fuel) : Returns (skipSpace tok fuel) lX tok (lX.advance 1) := by
  obtain ⟨fuel, rfl⟩ : ∃ k, fuel = k + 1 := ⟨fuel - 1, by omega⟩
  have hlt : lX.idx < lX.src.length := by
    rw [h.length, List.length_cons]
    omega
  have hpeek : lX.peek 0 = chr ' ' := h.peek_zero
  refine returns_bind.mpr ⟨.again tok, lX.advance 1, returns_bind.mpr ⟨lX, lX, returns_get.mpr ⟨rfl, rfl⟩, ?_⟩,
    skipSpace_returns (h.advance 1) htext (by omega)⟩
  rw [if_pos ⟨hlt, by rw [hpeek]; decide⟩]
  refine returns_bind.mpr ⟨(tok.kind, tok), lX, ?_, returns_bind.mpr ⟨(), _, returns_modify.mpr rfl, ?_⟩⟩
  · unfold newline
    rw [if_neg (by rw [hpeek]; exact fun hand => absurd hand.2 (by decide))]
    exact returns_pure.mpr ⟨rfl, rfl⟩
  · exact returns_pure.mpr ⟨rfl, advance_one hlt⟩

/-- A call that finds a token, after a space or none. -/
theorem next_returns {strtod : Strtod} {kind : TokenKind} {lead : List U8} (h : Rest lX (lead ++ text))
    (hlead : lead = [] ∨ lead = [chr ' ']) (htext : isSpace (text.headD eofChar) = false) (hfuel : 1 < fuel)
    (hkind : kind ≠ .tokCOUNT)
    (htok : ∀ out, ∃ tok, Returns (tokenize strtod fuel out) (lX.advance lead.length) (kind, tok) lX') :
    ∃ tok, Returns (next strtod fuel) lX (kind, tok) lX' := by
  have hskip : ∀ tok, Returns (skipSpace tok fuel) lX tok (lX.advance lead.length) := by
    intro tok
    rcases hlead with rfl | rfl
    · rw [List.length_nil, h.advance_zero]
      exact skipSpace_returns h htext (Nat.zero_lt_of_lt hfuel)
    · exact skipSpace_one_returns h htext hfuel
  obtain ⟨k, rfl⟩ : ∃ k, fuel = k + 1 := ⟨fuel - 1, by omega⟩
  obtain ⟨tok, htok⟩ := htok { kind := .tokCOUNT, range := { start := lX.idx, stop := lX.idx, coord := lX.pos, source := lX.src } }
  refine ⟨tok, returns_bind.mpr ⟨.done (kind, tok), lX', ?_, returns_pure.mpr ⟨rfl, rfl⟩⟩⟩
  refine returns_bind.mpr ⟨lX, lX, returns_get.mpr ⟨rfl, rfl⟩, ?_⟩
  refine returns_bind.mpr ⟨_, lX, returns_updateToken.mpr ⟨Nat.le_refl _, rfl, rfl⟩, ?_⟩
  rw [if_neg (not_not.mpr h.next)]
  refine returns_bind.mpr ⟨_, _, hskip _, ?_⟩
  rw [if_neg (not_not.mpr rfl)]
  refine returns_bind.mpr ⟨_, _, htok, ?_⟩
  rw [if_neg hkind]
  exact returns_pure.mpr ⟨rfl, rfl⟩

end LexM

/-- Calls of `Lexer_next` that return tokens of these kinds. -/
inductive Lexer.Calls (strtod : LexM.Strtod) (fuel : Nat) : Lexer → List TokenKind → Lexer → Prop
  | nil {lX : Lexer} : Calls strtod fuel lX [] lX
  | cons {lX lX' lX'' : Lexer} {kind : TokenKind} {tok : Token} {kinds : List TokenKind}
      (h : Returns (LexM.next strtod fuel) lX (kind, tok) lX') (h' : Calls strtod fuel lX' kinds lX'') :
      Calls strtod fuel lX (kind :: kinds) lX''

end Cyntatic
