import Cyntatic.Compiler.Lexer
import Cyntatic.Theorems.Maps

/-! The map of the keywords has the keywords and no other string: no keyword has the hash of one of its prefixes. -/

namespace Cyntatic

/-- What a look at every keyword and every node shows. -/
theorem sKeyWordList_spec : initKeywordsMap = some sKeyWordList ∧
    (∀ node ∈ sKeyWordList.nodes, (∃ x ∈ keywords, node.key = ascii x.1 ∧ hashString (ascii x.1) = some node.hash) ∧
      node.value ∉ [.tokEoF, .tokCOUNT]) ∧
    ∀ x ∈ keywords, (∀ n < x.1.length, hashString (ascii (x.1.take n)) ≠ hashString (ascii x.1)) ∧
      sKeyWordList.get (ascii x.1) = some (some x.2) := by decide +kernel

theorem initKeywordsMap_eq : initKeywordsMap = some sKeyWordList := sKeyWordList_spec.1

theorem mem_nodes_keyword : ∀ node ∈ sKeyWordList.nodes, ∃ x ∈ keywords, node.key = ascii x.1 ∧
    hashString (ascii x.1) = some node.hash := fun node hnode => (sKeyWordList_spec.2.1 node hnode).1

theorem hash_prefix_keyword : ∀ x ∈ keywords, ∀ n < x.1.length, hashString (ascii (x.1.take n)) ≠ hashString (ascii x.1) :=
  fun x hx => (sKeyWordList_spec.2.2 x hx).1

theorem get_keyword : ∀ x ∈ keywords, sKeyWordList.get (ascii x.1) = some (some x.2) :=
  fun x hx => (sKeyWordList_spec.2.2 x hx).2

theorem value_keyword : ∀ node ∈ sKeyWordList.nodes, node.value ∉ [.tokEoF, .tokCOUNT] :=
  fun node hnode => (sKeyWordList_spec.2.1 node hnode).2

/-- The end of the input is not a keyword, nor is the kind that is none. -/
theorem get_notMem {w : List U8} {kw : TokenKind} (h : sKeyWordList.get w = some (some kw)) : kw ∉ [.tokEoF, .tokCOUNT] := by
  obtain ⟨node, hnode, rfl⟩ := MapBase.mem_of_get h
  exact value_keyword node hnode

theorem get_ne_eof {w : List U8} : sKeyWordList.get w ≠ some (some .tokEoF) := fun h => get_notMem h List.mem_cons_self

/-- A name that is no keyword. -/
theorem get_name {name : List U8} (hnul : NulFree name) (hlen : name.length < 2 ^ 31)
    (hname : ∀ x ∈ keywords, ascii x.1 ≠ name) : sKeyWordList.get name = some none := by
  refine MapBase.get_eq_none hnul hlen fun node hnode hhash hprefix => ?_
  obtain ⟨x, hx, hkey, hash⟩ := mem_nodes_keyword node hnode
  rw [hkey] at hprefix
  have htake : name = ascii (x.1.take name.length) := by
    rw [ascii, List.map_take]
    exact List.prefix_iff_eq_take.mp hprefix
  rcases Nat.lt_or_ge name.length x.1.length with hlt | hge
  · refine hash_prefix_keyword x hx _ hlt ?_
    rw [← htake, hhash, hash]
  · refine hname x hx ?_
    rw [htake, List.take_of_length_le hge]

end Cyntatic
