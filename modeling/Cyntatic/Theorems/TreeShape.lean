import Cyntatic.Util.Tree

/-! # The shape of a red-black tree in memory

A tree of addresses, and the links, parents and colours that the nodes of memory have for it. The parts of a way down
are kept apart, so that a write to one node keeps every part that the node is not in. -/

namespace Cyntatic
open Library

variable {α : Type}

/-! ### Addresses and colours -/

theorem and_not_one {p : Ptr} (hp : p &&& 1 = 0) : p &&& ~~~1 = p := by
  have h : p &&& (1 ||| ~~~1) = p := by rw [BitVec.or_not_self, BitVec.and_allOnes]
  rw [BitVec.and_or_distrib_left, hp] at h
  simpa using h

theorem parent_of_or {p : Ptr} (c : Color) (hp : p &&& 1 = 0) : (p ||| rbtColor c) &&& ~~~1 = p := by
  rw [BitVec.and_or_distrib_right, and_not_one hp]
  cases c <;> simp [rbtColor]

theorem color_of_or {p : Ptr} (c : Color) (hp : p &&& 1 = 0) : (p ||| rbtColor c) &&& 1 = rbtColor c := by
  rw [BitVec.and_or_distrib_right, hp]
  cases c <;> rfl

theorem rbtColor_inj {c d : Color} : rbtColor c = rbtColor d ↔ c = d := by
  cases c <;> cases d <;> simp [rbtColor]

/-- The address of the root of a tree. -/
def addr : ColorTree Ptr → Ptr
  | .nil => 0
  | .node _ _ p _ => p

/-- The node above the end of a way down, `NULL` above the root. -/
def addrAbove : List (Frame Ptr) → Ptr
  | [] => 0
  | f :: _ => f.elem

@[simp] theorem addr_join (s : Side) (c : Color) (x y : ColorTree Ptr) (p : Ptr) : addr (.join s c x p y) = p := by
  cases s <;> rfl

@[simp] theorem addr_paint (c : Color) (t : ColorTree Ptr) : addr (t.paint c) = addr t := by cases t <;> rfl

/-- Addresses that an allocator gives to different nodes. -/
structure Nodes (ps : List Ptr) : Prop where
  nodup : ps.Nodup
  nonzero : ∀ p ∈ ps, p ≠ 0
  even : ∀ p ∈ ps, p &&& 1 = 0

theorem Nodes.perm {ps qs : List Ptr} (h : Nodes ps) (hperm : ps.Perm qs) : Nodes qs :=
  ⟨hperm.nodup_iff.mp h.nodup, fun p hp => h.nonzero p (hperm.mem_iff.mpr hp), fun p hp => h.even p (hperm.mem_iff.mpr hp)⟩

theorem Nodes.sublist {ps qs : List Ptr} (h : Nodes qs) (hsub : ps.Sublist qs) : Nodes ps :=
  ⟨h.nodup.sublist hsub, fun p hp => h.nonzero p (hsub.subset hp), fun p hp => h.even p (hsub.subset hp)⟩

theorem Nodes.left {ps qs : List Ptr} (h : Nodes (ps ++ qs)) : Nodes ps := h.sublist (List.sublist_append_left ..)

theorem Nodes.right {ps qs : List Ptr} (h : Nodes (ps ++ qs)) : Nodes qs := h.sublist (List.sublist_append_right ..)

theorem Nodes.tail {p : Ptr} {ps : List Ptr} (h : Nodes (p :: ps)) : Nodes ps := h.sublist (List.sublist_cons_self ..)

theorem addr_mem {t : ColorTree Ptr} (h : t ≠ .nil) : addr t ∈ t.toList := by
  cases t with
  | nil => exact absurd rfl h
  | node c l p r => exact List.mem_append_right _ List.mem_cons_self

theorem Nodes.addr_ne_zero {t : ColorTree Ptr} (h : Nodes t.toList) (ht : t ≠ .nil) : addr t ≠ 0 :=
  h.nonzero _ (addr_mem ht)

theorem Nodes.addr_notMem {ps : List Ptr} {t : ColorTree Ptr} (h : Nodes (t.toList ++ ps)) : addr t ∉ ps := by
  intro hmem
  by_cases ht : t = .nil
  · subst ht
    exact h.right.nonzero _ hmem rfl
  · exact (List.nodup_append.mp h.nodup).2.2 _ (addr_mem ht) _ hmem rfl

theorem Nodes.addr_ne {ps : List Ptr} {t u : ColorTree Ptr} (h : Nodes (t.toList ++ ps)) (ht : t ≠ .nil)
    (hu : ∀ p ∈ u.toList, p ∈ ps) : addr t ≠ addr u := by
  intro heq
  by_cases hnil : u = .nil
  · subst hnil
    exact h.left.addr_ne_zero ht heq
  · exact h.addr_notMem (heq ▸ hu _ (addr_mem hnil))

theorem Nodes.addrAbove_even {fs : List (Frame Ptr)} (h : Nodes (elems fs)) : addrAbove fs &&& 1 = 0 := by
  cases fs with
  | nil => rfl
  | cons f fs => exact h.even _ List.mem_cons_self

namespace RbTreeBase
variable {rbt rbt' : RbTreeBase α}

/-! ### Trees and ways down -/

/-- The nodes of a tree below a parent. -/
def Shape (rbt : RbTreeBase α) : Ptr → ColorTree Ptr → Prop
  | _, .nil => True
  | parent, .node c l p r =>
    rbt.parent p = parent ||| rbtColor c ∧ rbt.left p = addr l ∧ rbt.right p = addr r ∧ rbt.Shape p l ∧ rbt.Shape p r

/-- The nodes on a way down and beside it; the link at its end goes to a given node. -/
def ShapeAbove (rbt : RbTreeBase α) : List (Frame Ptr) → Ptr → Prop
  | [], p => rbt.root = p
  | f :: fs, p =>
    rbt.parent f.elem = addrAbove fs ||| rbtColor f.color ∧ rbt.child f.elem f.side = p ∧
      rbt.child f.elem f.side.other = addr f.sibling ∧ rbt.Shape f.elem f.sibling ∧ rbt.ShapeAbove fs f.elem

/-- The nodes that the root leads to are those of a tree. -/
def Holds (rbt : RbTreeBase α) (t : ColorTree Ptr) : Prop := rbt.root = addr t ∧ rbt.Shape 0 t

theorem shape_join {s : Side} {c : Color} {x y : ColorTree Ptr} {p parent : Ptr} :
    rbt.Shape parent (.join s c x p y) ↔ rbt.parent p = parent ||| rbtColor c ∧ rbt.child p s = addr x ∧
      rbt.child p s.other = addr y ∧ rbt.Shape p x ∧ rbt.Shape p y := by
  cases s
  · exact Iff.rfl
  · change _ ∧ rbt.left p = addr y ∧ rbt.right p = addr x ∧ rbt.Shape p y ∧ rbt.Shape p x ↔
      _ ∧ rbt.right p = addr x ∧ rbt.left p = addr y ∧ rbt.Shape p x ∧ rbt.Shape p y
    tauto

theorem holds_plug {fs : List (Frame Ptr)} {t : ColorTree Ptr} :
    rbt.Holds (plug fs t) ↔ rbt.ShapeAbove fs (addr t) ∧ rbt.Shape (addrAbove fs) t := by
  induction fs generalizing t with
  | nil => exact Iff.rfl
  | cons f fs ih =>
    rw [plug, ih, Frame.fill, addr_join, shape_join, ShapeAbove, addrAbove]
    tauto

/-! ### What a write keeps -/

theorem Shape.congr {parent : Ptr} {t : ColorTree Ptr} (h : rbt.Shape parent t)
    (hs : ∀ p ∈ t.toList, rbt'.parent p = rbt.parent p ∧ rbt'.left p = rbt.left p ∧ rbt'.right p = rbt.right p) :
    rbt'.Shape parent t := by
  induction t generalizing parent with
  | nil => trivial
  | node c l p r ihl ihr =>
    obtain ⟨hp, hleft, hright, hl, hr⟩ := h
    have hmem (q : Ptr) (hq : q ∈ l.toList ∨ q = p ∨ q ∈ r.toList) : q ∈ (ColorTree.node c l p r).toList := by
      simpa [ColorTree.toList] using hq
    obtain ⟨h1, h2, h3⟩ := hs p (hmem p (.inr (.inl rfl)))
    exact ⟨h1.trans hp, h2.trans hleft, h3.trans hright, ihl hl fun q hq => hs q (hmem q (.inl hq)),
      ihr hr fun q hq => hs q (hmem q (.inr (.inr hq)))⟩

theorem child_congr {p : Ptr} (hleft : rbt'.left p = rbt.left p) (hright : rbt'.right p = rbt.right p) (s : Side) :
    rbt'.child p s = rbt.child p s := by
  cases s
  · exact hleft
  · exact hright

theorem ShapeAbove.congr {fs : List (Frame Ptr)} {p : Ptr} (h : rbt.ShapeAbove fs p) (hroot : rbt'.root = rbt.root)
    (hs : ∀ p ∈ elems fs, rbt'.parent p = rbt.parent p ∧ rbt'.left p = rbt.left p ∧ rbt'.right p = rbt.right p) :
    rbt'.ShapeAbove fs p := by
  induction fs generalizing p with
  | nil => exact hroot.trans h
  | cons f fs ih =>
    obtain ⟨hp, hside, hother, hsib, hfs⟩ := h
    obtain ⟨h1, h2, h3⟩ := hs f.elem List.mem_cons_self
    refine ⟨h1.trans hp, (child_congr h2 h3 _).trans hside, (child_congr h2 h3 _).trans hother,
      hsib.congr fun q hq => ?_, ih hfs fun q hq => ?_⟩
    · exact hs q (List.mem_cons_of_mem _ (List.mem_append_left _ hq))
    · exact hs q (List.mem_cons_of_mem _ (List.mem_append_right _ hq))

section
variable {p q v parent : Ptr} {s d : Side} {c : Color} {t : ColorTree Ptr} {fs : List (Frame Ptr)}

@[simp] theorem parent_setChild : (rbt.setChild p s v).parent = rbt.parent := by cases s <;> rfl

@[simp] theorem root_setChild : (rbt.setChild p s v).root = rbt.root := by cases s <;> rfl

@[simp] theorem data_setChild : (rbt.setChild p s v).data = rbt.data := by cases s <;> rfl

@[simp] theorem compare_setChild : (rbt.setChild p s v).compare = rbt.compare := by cases s <;> rfl

theorem child_setChild : (rbt.setChild p s v).child p s = v := by
  cases s <;> exact Function.update_self ..

theorem child_setChild_other : (rbt.setChild p s v).child p s.other = rbt.child p s.other := by cases s <;> rfl

theorem child_setChild_self_other : (rbt.setChild p s.other v).child p s = rbt.child p s := by cases s <;> rfl

theorem child_setChild_of_ne (h : q ≠ p) : (rbt.setChild p s v).child q d = rbt.child q d := by
  cases s <;> cases d <;> first | rfl | exact Function.update_of_ne h ..

theorem Shape.setChild (h : rbt.Shape parent t) (hp : p ∉ t.toList) : (rbt.setChild p s v).Shape parent t := by
  refine h.congr fun q hq => ?_
  have hne : q ≠ p := fun heq => hp (heq ▸ hq)
  exact ⟨by rw [parent_setChild], child_setChild_of_ne (d := .left) hne, child_setChild_of_ne (d := .right) hne⟩

theorem ShapeAbove.setChild (h : rbt.ShapeAbove fs q) (hp : p ∉ elems fs) : (rbt.setChild p s v).ShapeAbove fs q := by
  refine h.congr root_setChild fun q hq => ?_
  have hne : q ≠ p := fun heq => hp (heq ▸ hq)
  exact ⟨by rw [parent_setChild], child_setChild_of_ne (d := .left) hne, child_setChild_of_ne (d := .right) hne⟩

theorem Shape.updateParent (h : rbt.Shape parent t) (hp : p ∉ t.toList) :
    ({ rbt with parent := Function.update rbt.parent p v } : RbTreeBase α).Shape parent t :=
  h.congr fun q hq => ⟨Function.update_of_ne (show q ≠ p from fun heq => hp (heq ▸ hq)) .., rfl, rfl⟩

theorem ShapeAbove.updateParent (h : rbt.ShapeAbove fs q) (hp : p ∉ elems fs) :
    ({ rbt with parent := Function.update rbt.parent p v } : RbTreeBase α).ShapeAbove fs q :=
  h.congr rfl fun q hq => ⟨Function.update_of_ne (show q ≠ p from fun heq => hp (heq ▸ hq)) .., rfl, rfl⟩

/-- The root of a tree under another parent and with another colour. -/
theorem Shape.setParentColor (h : rbt.Shape parent t) (ht : t.toList.Nodup) :
    (rbt.setParentColor (addr t) q c).Shape q (t.paint c) := by
  cases t with
  | nil => trivial
  | node c' l p r =>
    obtain ⟨-, hleft, hright, hl, hr⟩ := h
    obtain ⟨-, hp, hne⟩ := List.nodup_append.mp ht
    exact ⟨Function.update_self .., hleft, hright, hl.updateParent fun hmem => hne p hmem p List.mem_cons_self rfl,
      hr.updateParent (List.nodup_cons.mp hp).1⟩

theorem Shape.blacken (h : rbt.Shape parent t) (ht : Nodes t.toList) :
    (rbt.blacken (addr t) q).Shape q (t.paint .black) := by
  cases t with
  | nil => trivial
  | node c l p r =>
    have hp : p ≠ 0 := ht.nonzero p (List.mem_append_right _ List.mem_cons_self)
    rw [RbTreeBase.blacken, addr, if_pos hp]
    exact h.setParentColor ht.nodup

theorem Shape.blacken_of_notMem (h : rbt.Shape parent t) (hp : p ∉ t.toList) : (rbt.blacken p q).Shape parent t := by
  rw [RbTreeBase.blacken]
  split
  · exact h.updateParent hp
  · exact h

theorem ShapeAbove.blacken (h : rbt.ShapeAbove fs v) (hp : p ∉ elems fs) : (rbt.blacken p q).ShapeAbove fs v := by
  rw [RbTreeBase.blacken]
  split
  · exact h.updateParent hp
  · exact h

@[simp] theorem child_blacken : (rbt.blacken p q).child v s = rbt.child v s := by
  rw [RbTreeBase.blacken]
  split
  · cases s <;> rfl
  · rfl

@[simp] theorem root_blacken : (rbt.blacken p q).root = rbt.root := by
  rw [RbTreeBase.blacken]
  split <;> rfl

@[simp] theorem child_setParentColor : (rbt.setParentColor p q c).child v s = rbt.child v s := by cases s <;> rfl

theorem parent_setParentColor (h : v ≠ p) : (rbt.setParentColor p q c).parent v = rbt.parent v :=
  Function.update_of_ne h ..

theorem parent_blacken (h : v ≠ p) : (rbt.blacken p q).parent v = rbt.parent v := by
  rw [RbTreeBase.blacken]
  split
  · exact Function.update_of_ne h ..
  · rfl

end

/-! ### Links -/

/-- The link at the end of a way down. -/
def linkAt : List (Frame Ptr) → Link
  | [] => .root
  | f :: _ => .child f.elem f.side

section
variable {p q v parent : Ptr} {t : ColorTree Ptr} {fs : List (Frame Ptr)}

theorem ShapeAbove.load (h : rbt.ShapeAbove fs p) : rbt.load (linkAt fs) = p := by
  cases fs with
  | nil => exact h
  | cons f fs => exact h.2.1

theorem ShapeAbove.store (h : rbt.ShapeAbove fs p) (hfs : (elems fs).Nodup) :
    (rbt.store (linkAt fs) v).ShapeAbove fs v := by
  cases fs with
  | nil => rfl
  | cons f fs =>
    obtain ⟨hp, -, hother, hsib, hfs'⟩ := h
    obtain ⟨hmem, -⟩ := List.nodup_cons.mp hfs
    exact ⟨(congrFun parent_setChild _).trans hp, child_setChild, child_setChild_other.trans hother,
      hsib.setChild fun h => hmem (List.mem_append_left _ h), hfs'.setChild fun h => hmem (List.mem_append_right _ h)⟩

theorem Shape.store (h : rbt.Shape parent t) (hfs : Nodes (t.toList ++ elems fs)) :
    (rbt.store (linkAt fs) v).Shape parent t := by
  cases fs with
  | nil => exact h.congr fun _ _ => ⟨rfl, rfl, rfl⟩
  | cons f fs =>
    refine h.setChild fun hmem => ?_
    exact (List.nodup_append.mp hfs.nodup).2.2 _ hmem f.elem List.mem_cons_self rfl

theorem parent_store (l : Link) : (rbt.store l v).parent = rbt.parent := by
  cases l
  · rfl
  · exact parent_setChild

theorem child_store_of_notMem {s : Side} (hp : p ∉ elems fs) : (rbt.store (linkAt fs) v).child p s = rbt.child p s := by
  cases fs with
  | nil => cases s <;> rfl
  | cons f fs => exact child_setChild_of_ne fun heq => hp (heq ▸ List.mem_cons_self)

/-- `RbTree_change_child` writes the link at the end of the way down. -/
theorem ShapeAbove.changeChild (h : rbt.ShapeAbove fs p) (hfs : Nodes (elems fs)) (hp : p ∉ elems fs) (hp0 : p ≠ 0) :
    rbt.changeChild p v (addrAbove fs) = rbt.store (linkAt fs) v := by
  cases fs with
  | nil => exact if_neg (by simp [addrAbove])
  | cons f fs =>
    obtain ⟨-, hside, hother, -⟩ := h
    have hne : addr f.sibling ≠ p := by
      rintro rfl
      have hsib : f.sibling ≠ .nil := by
        intro hnil
        rw [hnil] at hp0
        exact hp0 rfl
      exact hp (List.mem_cons_of_mem _ (List.mem_append_left _ (addr_mem hsib)))
    rw [RbTreeBase.changeChild, addrAbove, if_pos (hfs.nonzero _ List.mem_cons_self), linkAt, RbTreeBase.store]
    cases hs : f.side
    · rw [hs] at hside
      exact if_pos hside
    · rw [hs] at hother
      exact if_neg fun heq => hne (hother.symm.trans heq)

end

end RbTreeBase
end Cyntatic
