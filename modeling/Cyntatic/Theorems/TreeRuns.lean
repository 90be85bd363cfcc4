import Cyntatic.Theorems.TreeInsert
import Cyntatic.Theorems.TreeWalk

/-! # Runs of the red-black tree

Calls of `RbTree_add_` and `RbTree_find_or_add_`, each followed by the store of a value that compares equal to the one
the call was for. -/

namespace Cyntatic
open Library

variable {α : Type}

namespace RbTreeBase
variable {rbt : RbTreeBase α}

/-- The tree of the nodes that the root leads to. -/
structure Tree (rbt : RbTreeBase α) (t : ColorTree Ptr) : Prop where
  holds : rbt.Holds t
  nodes : Nodes t.toList
  black : t.color = .black

theorem Shape.unique {parent : Ptr} {t u : ColorTree Ptr} (h : rbt.Shape parent t) (h' : rbt.Shape parent u)
    (ht : Nodes t.toList) (hu : Nodes u.toList) (hparent : parent &&& 1 = 0) (heq : addr t = addr u) : t = u := by
  induction t generalizing parent u with
  | nil =>
    cases u with
    | nil => rfl
    | node c l p r => exact absurd heq.symm (hu.addr_ne_zero (t := .node c l p r) (by simp))
  | node c l p r ihl ihr =>
    cases u with
    | nil => exact absurd heq (ht.addr_ne_zero (t := .node c l p r) (by simp))
    | node d l' q r' =>
      obtain rfl : p = q := heq
      obtain ⟨hp, hl, hr, htl, htr⟩ := h
      obtain ⟨hq, hl', hr', htl', htr'⟩ := h'
      have hcolor : c = d := by
        rw [← rbtColor_inj, ← color_of_or c hparent, ← hp, hq, color_of_or d hparent]
      have heven : p &&& 1 = 0 := ht.right.even p List.mem_cons_self
      rw [hcolor, ihl htl htl' ht.left hu.left heven (hl.symm.trans hl'),
        ihr htr htr' ht.right.tail hu.right.tail heven (hr.symm.trans hr')]

theorem Tree.unique {t u : ColorTree Ptr} (h : rbt.Tree t) (h' : rbt.Tree u) : t = u :=
  h.holds.2.unique h'.holds.2 h.nodes h'.nodes rfl (h.holds.1.symm.trans h'.holds.1)

theorem empty_tree (h : rbt.root = 0) : rbt.Tree .nil :=
  ⟨⟨h, trivial⟩, ⟨.nil, fun _ hp => absurd hp List.not_mem_nil, fun _ hp => absurd hp List.not_mem_nil⟩, rfl⟩

theorem Tree.setData {t : ColorTree Ptr} {p : Ptr} {d : α} (h : rbt.Tree t) : (rbt.setData p d).Tree t :=
  ⟨⟨h.holds.1, h.holds.2.congr fun _ _ => ⟨rfl, rfl, rfl⟩⟩, h.nodes, h.black⟩

theorem Tree.setCompare {t : ColorTree Ptr} {compare : α → BitVec 32 → α → Int} (h : rbt.Tree t) :
    { rbt with compare }.Tree t :=
  ⟨⟨h.holds.1, h.holds.2.congr fun _ _ => ⟨rfl, rfl, rfl⟩⟩, h.nodes, h.black⟩

/-! ### Calls -/

section
variable {value : α} {len : BitVec 32} {node : Ptr} {t : ColorTree Ptr}

/-- The nodes beside the place of a new value are all the nodes of the tree. -/
theorem perm_descend (lt : Ptr → Bool) (t : ColorTree Ptr) : t.toList.Perm (elems (descend lt t [])) := by
  have hperm := perm_plug (descend lt t []) .nil
  rwa [plug_descend] at hperm

theorem toList_insert (lt : Ptr → Bool) (t : ColorTree Ptr) (node : Ptr) :
    (t.insert case2Color lt node).toList = before (descend lt t []) ++ node :: after (descend lt t []) := by
  rw [ColorTree.insert, toList_repair]
  simp [ColorTree.toList]

theorem perm_insert (lt : Ptr → Bool) (t : ColorTree Ptr) (node : Ptr) :
    (t.insert case2Color lt node).toList.Perm (node :: t.toList) := by
  rw [toList_insert]
  exact List.perm_middle.trans (((perm_elems _).symm.trans (perm_descend lt t).symm).cons _)

theorem insert_tree (h : rbt.Tree t) (hnode : Nodes (node :: t.toList)) :
    let fs := descend (rbt.goesLeft value len) t []
    ∃ rbt', Yields (rbt.insert (linkAt fs) node (addrAbove fs)) rbt' ∧ rbt'.data = rbt.data ∧
      rbt'.compare = rbt.compare ∧ rbt'.Tree (t.insert case2Color (rbt.goesLeft value len) node) := by
  intro fs
  have hroot : BlackRoot fs := blackRoot_descend h.black
  have hperm := perm_descend (rbt.goesLeft value len) t
  have habove : rbt.ShapeAbove fs 0 := by
    have hplug : plug fs .nil = t := plug_descend _ t []
    exact (holds_plug.mp (hplug ▸ h.holds)).1
  obtain ⟨rbt', hrun, hholds⟩ := insert_yields hroot (hnode.perm (hperm.cons _)) habove
  obtain ⟨n, hn⟩ := hrun.exists_some
  obtain ⟨hdata, hcompare⟩ := insert_keeps hn
  refine ⟨rbt', hrun, hdata, hcompare, hholds, ?_, color_repair _ hroot _⟩
  exact hnode.perm (perm_insert ..).symm

theorem add_yields (h : rbt.Tree t) (hnode : Nodes (node :: t.toList)) :
    ∃ rbt', Yields (rbt.add node value len) (rbt', node) ∧ rbt'.data = rbt.data ∧ rbt'.compare = rbt.compare ∧
      rbt'.Tree (t.insert case2Color (rbt.goesLeft value len) node) := by
  obtain ⟨rbt', hinsert, hrest⟩ := @insert_tree _ _ value len _ _ h hnode
  have hplace := @addPlace_yields _ _ value len _ [] h.nodes h.holds.1 h.holds.2
  refine ⟨rbt', ((hplace.bind (h := fun q => rbt.insert q.2 node q.1) hinsert).map fun r => (r, node)).congr fun n => ?_, hrest⟩
  rw [add, if_neg (hnode.nonzero _ List.mem_cons_self)]
  cases hp : rbt.addPlace value len 0 .root n with
  | none =>
    rw [addrAbove, linkAt, hp]
    rfl
  | some q =>
    rw [addrAbove, linkAt, hp]
    change (rbt.insert q.2 node q.1 n).bind _ = Option.map _ (rbt.insert q.2 node q.1 n)
    cases rbt.insert q.2 node q.1 n <;> rfl

theorem findOrAdd_found {p : Ptr} (h : rbt.Tree t)
    (hp : t.search (fun p => rbt.compare value len (rbt.data p)) = some p) :
    Yields (rbt.findOrAdd node value len) (rbt, false, p) := by
  have hplace := @findOrAddPlace_yields _ _ value len _ [] h.nodes h.holds.1 h.holds.2
  rw [hp] at hplace
  obtain ⟨k, hk⟩ := hplace
  refine ⟨k, fun n => ?_⟩
  change (rbt.findOrAddPlace value len 0 .root n).bind _ = _
  rw [show rbt.findOrAddPlace value len 0 .root n = _ from hk n]
  split <;> rfl

theorem findOrAdd_added (h : rbt.Tree t) (hnode : Nodes (node :: t.toList))
    (hp : t.search (fun p => rbt.compare value len (rbt.data p)) = none) :
    ∃ rbt', Yields (rbt.findOrAdd node value len) (rbt', true, node) ∧ rbt'.data = rbt.data ∧
      rbt'.compare = rbt.compare ∧ rbt'.Tree (t.insert case2Color (rbt.goesLeft value len) node) := by
  obtain ⟨rbt', hinsert, hrest⟩ := @insert_tree _ _ value len _ _ h hnode
  have hplace := @findOrAddPlace_yields _ _ value len _ [] h.nodes h.holds.1 h.holds.2
  rw [hp] at hplace
  have hright := hplace.bind (h := fun q _ => q.getRight?) (yields_of_eq fun _ => rfl)
  refine ⟨rbt', ((hright.bind (h := fun q => rbt.insert q.2 node q.1) hinsert).map fun r => (r, true, node)).congr
    fun n => ?_, hrest⟩
  have hnode0 : node ≠ 0 := hnode.nonzero _ List.mem_cons_self
  cases hq : rbt.findOrAddPlace value len 0 .root n with
  | none =>
    rw [addrAbove, linkAt, findOrAdd, hq]
    rfl
  | some q =>
    obtain rfl := hplace.eq_of_some hq
    rw [addrAbove, linkAt, hq]
    simp only [findOrAdd, hq, Option.bind_eq_bind, Option.bind_some, Sum.getRight?_inr, if_neg hnode0]
    cases rbt.insert _ node _ n <;> rfl

end

/-! ### Runs -/

/-- The trees after calls, with the nodes that the allocator has given. `ok` limits what is added to a tree. -/
inductive Reaches (compare : α → BitVec 32 → α → Int) (ok : RbTreeBase α → α → BitVec 32 → Prop) :
    List Ptr → RbTreeBase α → Prop
  | init {rbt : RbTreeBase α} (hroot : rbt.root = 0) (hcompare : rbt.compare = compare) : Reaches compare ok [] rbt
  | add {nodes : List Ptr} {rbt rbt' : RbTreeBase α} {node p : Ptr} {value d : α} {len : BitVec 32}
      (h : Reaches compare ok nodes rbt) (hok : ok rbt value len) (hnode : Nodes (node :: nodes))
      (hcall : Yields (rbt.add node value len) (rbt', p)) (hstore : compare value len d = 0) :
      Reaches compare ok (node :: nodes) (rbt'.setData p d)
  | findOrAdd {nodes : List Ptr} {rbt rbt' : RbTreeBase α} {node p : Ptr} {added : Bool} {value d : α}
      {len : BitVec 32} (h : Reaches compare ok nodes rbt) (hok : added = true → ok rbt value len)
      (hnode : Nodes (node :: nodes)) (hcall : Yields (rbt.findOrAdd node value len) (rbt', added, p))
      (hstore : compare value len d = 0) :
      Reaches compare ok (if added then node :: nodes else nodes) (rbt'.setData p d)

variable {compare : α → BitVec 32 → α → Int} {ok : RbTreeBase α → α → BitVec 32 → Prop} {nodes : List Ptr}

/-- What holds of the empty tree, of a tree with a new node when it holds of the tree before, and after another store,
    holds of the tree of every state that a run reaches. -/
theorem Reaches.tree {inv : (Ptr → α) → ColorTree Ptr → Prop} (h : Reaches compare ok nodes rbt)
    (hinit : ∀ data, inv data .nil)
    (hinsert : ∀ {rbt : RbTreeBase α} {t node value d len}, rbt.Tree t → rbt.compare = compare → inv rbt.data t →
      ok rbt value len → node ∉ t.toList → compare value len d = 0 →
      inv (Function.update rbt.data node d) (t.insert case2Color (rbt.goesLeft value len) node))
    (hfound : ∀ {rbt : RbTreeBase α} {t p value d len}, rbt.Tree t → inv rbt.data t → p ∈ t.toList →
      compare value len (rbt.data p) = 0 → compare value len d = 0 → inv (Function.update rbt.data p d) t) :
    rbt.compare = compare ∧ ∃ t, rbt.Tree t ∧ t.toList.Perm nodes ∧ inv rbt.data t := by
  induction h with
  | @init rbt hroot hcompare =>
    exact ⟨hcompare, .nil, empty_tree hroot, .refl _, hinit _⟩
  | @add nodes rbt rbt' node p value d len h hok hnode hcall hstore ih =>
    obtain ⟨hcompare, t, htree, hnodes, hinv⟩ := ih
    have hnode' : Nodes (node :: t.toList) := hnode.perm (hnodes.symm.cons _)
    obtain ⟨rbt₁, hadd, hdata, hcompare', htree'⟩ := @add_yields _ _ value len _ _ htree hnode'
    obtain ⟨rfl, rfl⟩ := Prod.mk.inj (hadd.unique hcall)
    refine ⟨hcompare'.trans hcompare, _, htree'.setData, (perm_insert ..).trans (hnodes.cons _), ?_⟩
    rw [RbTreeBase.setData, hdata]
    exact hinsert htree hcompare hinv hok (List.nodup_cons.mp hnode'.nodup).1 hstore
  | @findOrAdd nodes rbt rbt' node p added value d len h hok hnode hcall hstore ih =>
    obtain ⟨hcompare, t, htree, hnodes, hinv⟩ := ih
    have hnode' : Nodes (node :: t.toList) := hnode.perm (hnodes.symm.cons _)
    cases hs : t.search fun p => rbt.compare value len (rbt.data p) with
    | some q =>
      obtain ⟨rfl, hpair⟩ := Prod.mk.inj ((findOrAdd_found htree hs).unique hcall)
      obtain ⟨rfl, rfl⟩ := Prod.mk.inj hpair
      obtain ⟨hmem, hzero⟩ := mem_of_search hs
      exact ⟨hcompare, t, htree.setData, hnodes, hfound htree hinv hmem (hcompare ▸ hzero) hstore⟩
    | none =>
      obtain ⟨rbt₁, hadd, hdata, hcompare', htree'⟩ := findOrAdd_added htree hnode' hs
      obtain ⟨rfl, hpair⟩ := Prod.mk.inj (hadd.unique hcall)
      obtain ⟨rfl, rfl⟩ := Prod.mk.inj hpair
      refine ⟨hcompare'.trans hcompare, _, htree'.setData, (perm_insert ..).trans (hnodes.cons _), ?_⟩
      rw [RbTreeBase.setData, hdata]
      exact hinsert htree hcompare hinv (hok rfl) (List.nodup_cons.mp hnode'.nodup).1 hstore

/-- Every insertion is a step of a run. -/
theorem Reaches.exists_add {value d : α} {len : BitVec 32} {node : Ptr} {t : ColorTree Ptr}
    (h : Reaches compare ok nodes rbt) (ht : rbt.Tree t) (hperm : t.toList.Perm nodes) (hok : ok rbt value len)
    (hnode : Nodes (node :: nodes)) (hstore : compare value len d = 0) :
    ∃ rbt', Reaches compare ok (node :: nodes) rbt' ∧
      rbt'.Tree (t.insert case2Color (rbt.goesLeft value len) node) ∧ rbt'.data = Function.update rbt.data node d ∧
      rbt'.compare = rbt.compare := by
  obtain ⟨rbt', hadd, hdata, hcompare, ht'⟩ := @add_yields _ _ value len _ _ ht (hnode.perm (hperm.symm.cons _))
  exact ⟨_, h.add hok hnode hadd hstore, ht'.setData, by rw [RbTreeBase.setData, hdata], hcompare⟩

end RbTreeBase
end Cyntatic
