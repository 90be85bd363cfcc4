import Mathlib
import Cyntatic.Theorems.TreeRuns

/-! # The red-black tree as an ordered collection

With a comparison function that is a total preorder, in every state that a run reaches: the order of the nodes, what a
search finds, where an insertion puts a new node, the parents, and the iteration. -/

namespace Cyntatic
open Library

variable {α : Type}

namespace RbTreeBase
variable {rbt : RbTreeBase α} {compare : α → BitVec 32 → α → Int} {ok : RbTreeBase α → α → BitVec 32 → Prop}
  {nodes : List Ptr}

/-- A comparison function that is a total preorder, of the keys of given values and of stored ones. -/
structure Compares {κ : Type} [Preorder κ] (compare : α → BitVec 32 → α → Int) (given : α → BitVec 32 → κ)
    (stored : α → κ) : Prop where
  total : ∀ a b : κ, a ≤ b ∨ b ≤ a
  neg : ∀ value len d, compare value len d < 0 ↔ given value len < stored d
  pos : ∀ value len d, 0 < compare value len d ↔ stored d < given value len

namespace Compares
variable {κ : Type} [Preorder κ] {given : α → BitVec 32 → κ} {stored : α → κ}

theorem le_of_not_lt (hc : Compares compare given stored) {a b : κ} (h : ¬a < b) : b ≤ a := by
  rcases hc.total a b with hab | hba
  · exact not_not.mp fun hba => h (lt_of_le_not_ge hab hba)
  · exact hba

theorem eq_zero (hc : Compares compare given stored) {value d : α} {len : BitVec 32} (h : compare value len d = 0) :
    given value len ≤ stored d ∧ stored d ≤ given value len := by
  refine ⟨hc.le_of_not_lt ?_, hc.le_of_not_lt ?_⟩
  · rw [← hc.pos]
    omega
  · rw [← hc.neg]
    omega

end Compares

section
variable {κ : Type} [Preorder κ] {given : α → BitVec 32 → κ} {stored : α → κ}

/-- The nodes have their values in order. -/
def Sorted (rbt : RbTreeBase α) (stored : α → κ) (ps : List Ptr) : Prop :=
  ps.Pairwise fun p q => stored (rbt.data p) ≤ stored (rbt.data q)

/-- The child of a node has the node as its parent. -/
def Linked (rbt : RbTreeBase α) (ps : List Ptr) : Prop :=
  ∀ p ∈ ps, ∀ s, rbt.child p s ≠ 0 → rbt.child p s ∈ ps ∧ rbt.parentOf (rbt.child p s) = p

/-- The nodes in their order. -/
def InOrder (rbt : RbTreeBase α) (ps : List Ptr) : Prop := ∃ t, rbt.Tree t ∧ t.toList = ps

/-- A node for `value` has come after the last one that is not greater, and nothing else has changed. -/
def Inserted (rbt rbt' : RbTreeBase α) (ps : List Ptr) (value : α) (len : BitVec 32) (node : Ptr) : Prop :=
  rbt'.data = rbt.data ∧ rbt'.compare = rbt.compare ∧ ∃ xs ys, ps = xs ++ ys ∧ rbt'.InOrder (xs ++ node :: ys) ∧
    (∀ p ∈ xs, ¬rbt.compare value len (rbt.data p) < 0) ∧ ∀ p ∈ ys, rbt.compare value len (rbt.data p) < 0

/-- `RbTree_find_` succeeds for the values that are present. -/
def Finds (rbt : RbTreeBase α) (ps : List Ptr) : Prop :=
  ∀ value len, ∃ p, Yields (rbt.find value len) p ∧
    ((p ∈ ps ∧ rbt.compare value len (rbt.data p) = 0) ∨ (p = 0 ∧ ∀ q ∈ ps, rbt.compare value len (rbt.data q) ≠ 0))

/-- `RbTree_add_` inserts. -/
def Adds (rbt : RbTreeBase α) (ps : List Ptr) : Prop :=
  ∀ value len node, Nodes (node :: ps) →
    ∃ rbt', Yields (rbt.add node value len) (rbt', node) ∧ rbt.Inserted rbt' ps value len node

/-- `RbTree_find_or_add_` inserts where no equal value is present. -/
def FindsOrAdds (rbt : RbTreeBase α) (ps : List Ptr) : Prop :=
  ∀ value len node, Nodes (node :: ps) →
    (∃ p ∈ ps, rbt.compare value len (rbt.data p) = 0 ∧ Yields (rbt.findOrAdd node value len) (rbt, false, p)) ∨
    ((∀ p ∈ ps, rbt.compare value len (rbt.data p) ≠ 0) ∧
      ∃ rbt', Yields (rbt.findOrAdd node value len) (rbt', true, node) ∧ rbt.Inserted rbt' ps value len node)

/-! ### Each part -/

theorem Shape.linked {t : ColorTree Ptr} {parent : Ptr} (h : rbt.Shape parent t) (hnodes : Nodes t.toList) :
    rbt.Linked t.toList := by
  induction t generalizing parent with
  | nil => exact fun p hp => absurd hp List.not_mem_nil
  | node c l p r ihl ihr =>
    obtain ⟨-, hl, hr, htl, htr⟩ := h
    have heven : p &&& 1 = 0 := hnodes.right.even p List.mem_cons_self
    have htop {t : ColorTree Ptr} (ht : rbt.Shape p t) (hne : addr t ≠ 0) :
        addr t ∈ t.toList ∧ rbt.parentOf (addr t) = p := by
      cases t with
      | nil => exact absurd rfl hne
      | node d l' q r' =>
        refine ⟨addr_mem (by simp), ?_⟩
        rw [parentOf, addr, ht.1]
        exact parent_of_or d heven
    intro q hq s hne
    rw [ColorTree.toList, List.mem_append, List.mem_cons] at hq ⊢
    rcases hq with hq | rfl | hq
    · obtain ⟨hmem, hparent⟩ := ihl htl hnodes.left q hq s hne
      exact ⟨.inl hmem, hparent⟩
    · cases s
      · rw [show rbt.child q .left = addr l from hl] at hne ⊢
        obtain ⟨hmem, hparent⟩ := htop htl hne
        exact ⟨.inl hmem, hparent⟩
      · rw [show rbt.child q .right = addr r from hr] at hne ⊢
        obtain ⟨hmem, hparent⟩ := htop htr hne
        exact ⟨.inr (.inr hmem), hparent⟩
    · obtain ⟨hmem, hparent⟩ := ihr htr hnodes.right.tail q hq s hne
      exact ⟨.inr (.inr hmem), hparent⟩

theorem Sorted.cmp (hc : Compares rbt.compare given stored) {ps : List Ptr} (h : rbt.Sorted stored ps) (value : α)
    (len : BitVec 32) : ps.Pairwise fun p q =>
      (rbt.compare value len (rbt.data p) < 0 → rbt.compare value len (rbt.data q) < 0) ∧
        (0 < rbt.compare value len (rbt.data q) → 0 < rbt.compare value len (rbt.data p)) := by
  refine h.imp fun hle => ?_
  rw [hc.neg, hc.neg, hc.pos, hc.pos]
  exact ⟨fun hlt => hlt.trans_le hle, fun hlt => hle.trans_lt hlt⟩

/-- The way down for a value divides the nodes into those that are not greater and those that are. -/
theorem divides_of_sorted {t : ColorTree Ptr} (hc : Compares rbt.compare given stored)
    (h : rbt.Sorted stored t.toList) (value : α) (len : BitVec 32) :
    let fs := descend (rbt.goesLeft value len) t []
    (∀ p ∈ before fs, ¬rbt.compare value len (rbt.data p) < 0) ∧
      ∀ p ∈ after fs, rbt.compare value len (rbt.data p) < 0 := by
  have hsorted : (plug [] t).toList.Pairwise fun p q => rbt.goesLeft value len p → rbt.goesLeft value len q := by
    refine (h.cmp hc value len).imp fun hand => ?_
    simpa [goesLeft] using hand.1
  have hdivide := descend_divides hsorted (by simp [before]) (by simp [after])
  simpa [goesLeft] using hdivide

theorem inserted_of_sorted {rbt' : RbTreeBase α} {t : ColorTree Ptr} {value : α} {len : BitVec 32} {node : Ptr}
    (hc : Compares rbt.compare given stored) (h : rbt.Sorted stored t.toList) (hdata : rbt'.data = rbt.data)
    (hcompare : rbt'.compare = rbt.compare) (ht : rbt'.Tree (t.insert case2Color (rbt.goesLeft value len) node)) :
    rbt.Inserted rbt' t.toList value len node :=
  ⟨hdata, hcompare, _, _, toList_divided (rbt.goesLeft value len) t, ⟨_, ht, toList_insert ..⟩,
    divides_of_sorted hc h value len⟩

theorem finds_of_sorted {t : ColorTree Ptr} (hc : Compares rbt.compare given stored) (ht : rbt.Tree t)
    (h : rbt.Sorted stored t.toList) : rbt.Finds t.toList := by
  intro value len
  have hfind := @findFrom_yields _ _ value len _ _ ht.nodes ht.holds.2
  rw [← ht.holds.1] at hfind
  refine ⟨_, hfind, ?_⟩
  cases hs : t.search fun p => rbt.compare value len (rbt.data p) with
  | some p => exact .inl (mem_of_search hs)
  | none => exact .inr ⟨rfl, ne_zero_of_search (h.cmp hc value len) hs⟩

theorem adds_of_sorted {t : ColorTree Ptr} (hc : Compares rbt.compare given stored) (ht : rbt.Tree t)
    (h : rbt.Sorted stored t.toList) : rbt.Adds t.toList := by
  intro value len node hnode
  obtain ⟨rbt', hadd, hdata, hcompare, ht'⟩ := @add_yields _ _ value len _ _ ht hnode
  exact ⟨rbt', hadd, inserted_of_sorted hc h hdata hcompare ht'⟩

theorem findsOrAdds_of_sorted {t : ColorTree Ptr} (hc : Compares rbt.compare given stored) (ht : rbt.Tree t)
    (h : rbt.Sorted stored t.toList) : rbt.FindsOrAdds t.toList := by
  intro value len node hnode
  cases hs : t.search fun p => rbt.compare value len (rbt.data p) with
  | some p =>
    obtain ⟨hmem, hzero⟩ := mem_of_search hs
    exact .inl ⟨p, hmem, hzero, findOrAdd_found ht hs⟩
  | none =>
    obtain ⟨rbt', hadd, hdata, hcompare, ht'⟩ := findOrAdd_added ht hnode hs
    exact .inr ⟨ne_zero_of_search (h.cmp hc value len) hs, rbt', hadd, inserted_of_sorted hc h hdata hcompare ht'⟩

/-! ### Runs -/

/-- The store of a value that compares equal keeps the order. -/
theorem Sorted.store (hc : Compares compare given stored) {ps : List Ptr} (h : rbt.Sorted stored ps) {p : Ptr}
    {value d : α} {len : BitVec 32} (hp : compare value len (rbt.data p) = 0) (hd : compare value len d = 0) :
    (rbt.setData p d).Sorted stored ps := by
  obtain ⟨hp1, hp2⟩ := hc.eq_zero hp
  obtain ⟨hd1, hd2⟩ := hc.eq_zero hd
  refine h.imp fun {a b} hle => ?_
  change stored (Function.update rbt.data p d a) ≤ stored (Function.update rbt.data p d b)
  rw [Function.update_apply, Function.update_apply]
  split
  · rename_i ha
    split
    · exact le_refl _
    · exact (hd2.trans hp1).trans (ha ▸ hle)
  · split
    · rename_i hb
      exact (hb ▸ hle).trans (hp2.trans hd1)
    · exact hle

/-- A new node between what is not greater and what is not less. -/
theorem Sorted.insert {xs ys : List Ptr} {node : Ptr} {d : α} (h : rbt.Sorted stored (xs ++ ys))
    (hnode : node ∉ xs ++ ys) (hxs : ∀ p ∈ xs, stored (rbt.data p) ≤ stored d)
    (hys : ∀ p ∈ ys, stored d ≤ stored (rbt.data p)) : (rbt.setData node d).Sorted stored (xs ++ node :: ys) := by
  have hself : (rbt.setData node d).data node = d := Function.update_self ..
  have hother {p : Ptr} (hp : p ∈ xs ++ ys) : (rbt.setData node d).data p = rbt.data p :=
    Function.update_of_ne (show p ≠ node from fun heq => hnode (heq ▸ hp)) ..
  obtain ⟨hx, hy, hcross⟩ := List.pairwise_append.mp h
  refine List.pairwise_append.mpr ⟨hx.imp_of_mem fun hp hq hle => ?_, List.pairwise_cons.mpr ⟨fun q hq => ?_, ?_⟩, ?_⟩
  · rwa [hother (List.mem_append_left _ hp), hother (List.mem_append_left _ hq)]
  · rw [hself, hother (List.mem_append_right _ hq)]
    exact hys q hq
  · refine hy.imp_of_mem fun hp hq hle => ?_
    rwa [hother (List.mem_append_right _ hp), hother (List.mem_append_right _ hq)]
  · intro p hp q hq
    rw [hother (List.mem_append_left _ hp)]
    rcases List.mem_cons.mp hq with rfl | hq
    · rw [hself]
      exact hxs p hp
    · rw [hother (List.mem_append_right _ hq)]
      exact hcross p hp q hq

/-- The values are in order after each call. -/
theorem Reaches.sorted (hc : Compares compare given stored) (h : Reaches compare ok nodes rbt) :
    rbt.compare = compare ∧ ∃ t, rbt.Tree t ∧ t.toList.Perm nodes ∧ rbt.Sorted stored t.toList := by
  have hrun := @Reaches.tree _ _ _ _ _
    (fun data t => t.toList.Pairwise fun p q => stored (data p) ≤ stored (data q)) h (fun _ => .nil) ?_ ?_
  · exact hrun
  · intro rbt t node value d len ht hcompare hsorted _ hnode hd
    have hrel : rbt.Sorted stored t.toList := hsorted
    obtain ⟨hbefore, hafter⟩ := divides_of_sorted (hcompare ▸ hc) hrel value len
    obtain ⟨hd1, hd2⟩ := hc.eq_zero hd
    rw [toList_divided (rbt.goesLeft value len) t] at hrel hnode
    rw [toList_insert]
    refine hrel.insert hnode (fun p hp => ?_) fun p hp => ?_
    · have hle := hbefore p hp
      rw [hcompare, hc.neg] at hle
      exact (hc.le_of_not_lt hle).trans hd1
    · have hlt := hafter p hp
      rw [hcompare, hc.neg] at hlt
      exact hd2.trans hlt.le
  · intro rbt t p value d len _ hsorted _ hp hd
    exact Sorted.store hc hsorted hp hd

/-- The tree is an ordered collection in every state that a run reaches. -/
theorem run_ordered (hc : Compares compare given stored) (h : Reaches compare (fun _ _ _ => True) nodes rbt) :
    ∃ ps, rbt.InOrder ps ∧ ps.Perm nodes ∧ rbt.Sorted stored ps ∧ rbt.Linked ps ∧ Yields rbt.visit ps ∧ rbt.Finds ps ∧
      rbt.Adds ps ∧ rbt.FindsOrAdds ps := by
  obtain ⟨rfl, t, ht, hperm, hsorted⟩ := h.sorted hc
  exact ⟨t.toList, ⟨t, ht, rfl⟩, hperm, hsorted, ht.holds.2.linked ht.nodes, visit_yields ht.nodes ht.holds,
    finds_of_sorted hc ht hsorted, adds_of_sorted hc ht hsorted, findsOrAdds_of_sorted hc ht hsorted⟩

/-- A tree of integers after the insertion of 3. -/
theorem run_ordered_three : ∃ rbt : RbTreeBase Int, rbt.InOrder [16] ∧ rbt.data 16 = 3 ∧
    ∃ ps, rbt.InOrder ps ∧ ps.Perm [16] ∧ rbt.Sorted id ps ∧ rbt.Linked ps ∧ Yields rbt.visit ps ∧ rbt.Finds ps ∧
      rbt.Adds ps ∧ rbt.FindsOrAdds ps := by
  have hc : Compares (fun (value : Int) _ d => value - d) (fun value _ => value) id :=
    ⟨le_total, fun _ _ _ => sub_neg, fun _ _ _ => sub_pos⟩
  let rbt : RbTreeBase Int := ⟨0, fun value _ d => value - d, fun _ => 0, fun _ => 0, fun _ => 0, fun _ => 0⟩
  obtain ⟨rbt', hrun, ht, hdata, -⟩ := @Reaches.exists_add _ rbt _ (fun _ _ _ => True) [] 3 3 0 16 .nil
    (.init rfl rfl) (empty_tree rfl) (.refl _) trivial ⟨by simp, by simp, by simp⟩ rfl
  refine ⟨rbt', ⟨_, ht, rfl⟩, ?_, run_ordered hc hrun⟩
  rw [hdata, Function.update_self]

end

end RbTreeBase
end Cyntatic
