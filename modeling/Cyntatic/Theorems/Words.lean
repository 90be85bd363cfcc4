import Cyntatic.Theorems.LexerSpelling

/-! A word of the source is the keyword that it spells, letter for letter, and a name if it spells none. -/

namespace Cyntatic
open Library Prog

theorem kind_keyword : ∀ x ∈ keywords, x.2 ≠ .tokIdentifier ∧ ∀ y ∈ keywords, x.2 = y.2 → x = y := by decide

theorem ascii_keyword : ∀ x ∈ keywords, ∀ y ∈ keywords, ascii x.1 = ascii y.1 → x = y := by decide +kernel

theorem isIdent_ne_nul : ∀ c : U8, LexM.isIdent c = true → c ≠ 0 := by decide +kernel

/-- The characters of a name are not `NUL`. -/
theorem nulFree_word {w : List U8} (hw : ∀ c ∈ w, LexM.isIdent c) : NulFree w := by
  intro hnul
  exact isIdent_ne_nul 0 (hw 0 hnul) rfl

namespace LexM
open Lexer
variable {lX : Lexer} {w tail : List U8} {out : Token} {fuel : Nat}

/-- What the map of the keywords has for a word. -/
theorem get_word (hlen : w.length < 2 ^ 31) (hw : ∀ c ∈ w, isIdent c) :
    (∃ x ∈ keywords, w = ascii x.1 ∧ sKeyWordList.get w = some (some x.2)) ∨
      (∀ x ∈ keywords, w ≠ ascii x.1) ∧ sKeyWordList.get w = some none := by
  by_cases hkw : ∃ x ∈ keywords, w = ascii x.1
  · obtain ⟨x, hx, heq⟩ := hkw
    refine .inl ⟨x, hx, heq, ?_⟩
    rw [heq]
    exact get_keyword x hx
  · have hname : ∀ x ∈ keywords, w ≠ ascii x.1 := fun x hx heq => hkw ⟨x, hx, heq⟩
    exact .inr ⟨hname, get_name (nulFree_word hw) hlen fun x hx heq => hname x hx heq.symm⟩

/-- The kind of a word is that of a keyword just when the word is the spelling of the keyword. -/
theorem tokIdent_kind_iff (hidx : lX.idx ≤ lX.src.length) (hsrc : lX.src.length < 2 ^ 31) (hleft : lX.left = w ++ tail)
    (hw : ∀ c ∈ w, isIdent c) (htail : isIdent (tail.headD eofChar) = false) (hfuel : w.length < fuel) :
    ∃ kind tok, Returns (tokIdent out fuel) lX (kind, tok) (lX.advance w.length) ∧
      (∀ x ∈ keywords, kind = x.2 ↔ w = ascii x.1) ∧ (kind = .tokIdentifier ↔ ∀ x ∈ keywords, w ≠ ascii x.1) := by
  have hlen : w.length < 2 ^ 31 := by
    have hsum := congrArg List.length hleft
    rw [left, List.length_drop, List.length_append] at hsum
    omega
  rcases get_word hlen hw with ⟨x, hx, heq, hget⟩ | ⟨hname, hget⟩
  · obtain ⟨tok, htok⟩ := @tokIdent_returns lX tail w out fuel _ hidx hleft hw htail hget hfuel
    refine ⟨x.2, tok, htok, fun y hy => ?_, iff_of_false (kind_keyword x hx).1 fun hall => hall x hx heq⟩
    constructor
    · intro hkind
      rw [heq, (kind_keyword x hx).2 y hy hkind]
    · intro hword
      rw [ascii_keyword x hx y hy (heq ▸ hword)]
  · obtain ⟨tok, htok⟩ := @tokIdent_returns lX tail w out fuel _ hidx hleft hw htail hget hfuel
    refine ⟨.tokIdentifier, tok, htok, fun y hy => ?_, iff_of_true rfl hname⟩
    exact iff_of_false (fun hkind => (kind_keyword y hy).1 hkind.symm) (hname y hy)

/-- An identifier that starts with a keyword, and is the last word of its source. -/
theorem tokIdent_kind_iff_format : ∃ kind tok, Returns (tokIdent (init {} false []).next 8) (init {} false (ascii "format".toList))
    (kind, tok) ((init {} false (ascii "format".toList)).advance 6) ∧
      (∀ x ∈ keywords, kind = x.2 ↔ ascii "format".toList = ascii x.1) ∧
      (kind = .tokIdentifier ↔ ∀ x ∈ keywords, ascii "format".toList ≠ ascii x.1) :=
  have hleft : (init {} false (ascii "format".toList)).left = ascii "format".toList ++ [] := rfl
  tokIdent_kind_iff (Nat.zero_le _) (by decide) hleft (by decide) (by decide) (by decide)

end LexM

end Cyntatic
