import Cyntatic.Theorems.TreeShape

/-! # Insertion into the red-black tree in memory

The loop of `RbTree_insert__` does to the nodes of memory what the repair does to the tree that they are. -/

namespace Cyntatic
open Library

variable {α : Type}

namespace RbTreeBase
variable {rbt : RbTreeBase α}

/-! ### The rotations -/

/-- `RbTree_rotate_set_parents`, once `gp` is the child of `p`. -/
theorem rotateSetParents_holds {side : Side} {p gp : Ptr} {c : Color} {x y z : ColorTree Ptr} {fs : List (Frame Ptr)}
    (hnodes : Nodes (x.toList ++ (y.toList ++ (z.toList ++ p :: gp :: elems fs))))
    (hgp : rbt.parent gp = addrAbove fs ||| rbtColor c) (hpx : rbt.child p side = addr x)
    (hpgp : rbt.child p side.other = gp) (hgy : rbt.child gp side = addr y) (hgz : rbt.child gp side.other = addr z)
    (hx : rbt.Shape p x) (hy : rbt.Shape gp y) (hz : rbt.Shape gp z) (hfs : rbt.ShapeAbove fs gp) :
    (rbt.rotateSetParents gp p .red).Holds (plug fs (.join side c x p (.join side .red y gp z))) := by
  have hnodup := hnodes.nodup
  have hpmem : p ∉ x.toList ∧ p ∉ y.toList ∧ p ∉ z.toList ∧ p ∉ elems fs ∧ p ≠ gp := by
    grind [List.nodup_append, List.nodup_cons]
  have hgmem : gp ∉ x.toList ∧ gp ∉ y.toList ∧ gp ∉ z.toList ∧ gp ∉ elems fs := by
    grind [List.nodup_append, List.nodup_cons]
  obtain ⟨hp1, hp2, hp3, hp4, hne⟩ := hpmem
  obtain ⟨hg1, hg2, hg3, hg4⟩ := hgmem
  have hzn : Nodes (z.toList ++ elems fs) :=
    hnodes.right.right.sublist (((List.sublist_cons_self ..).trans (List.sublist_cons_self ..)).append_left _)
  have hyn : Nodes (y.toList ++ elems fs) :=
    hnodes.right.sublist ((((List.sublist_cons_self ..).trans (List.sublist_cons_self ..)).trans
      (List.sublist_append_right ..)).append_left _)
  have hxn : Nodes (x.toList ++ elems fs) :=
    hnodes.sublist (((((List.sublist_cons_self ..).trans (List.sublist_cons_self ..)).trans
      (List.sublist_append_right ..)).trans (List.sublist_append_right ..)).append_left _)
  have hgp0 : gp ≠ 0 := hnodes.nonzero gp (by simp)
  have hparent : rbt.parentOf gp = addrAbove fs := by
    rw [parentOf, hgp, parent_of_or c hzn.right.addrAbove_even]
  -- The two writes of parents, and then the link above.
  have hfs' : (({ rbt with parent := Function.update rbt.parent p (rbt.parent gp) } : RbTreeBase α).setParentColor
      gp p .red).ShapeAbove fs gp := (hfs.updateParent hp4).updateParent hg4
  have hkeep {t : ColorTree Ptr} {parent : Ptr} (ht : rbt.Shape parent t) (hpt : p ∉ t.toList) (hgt : gp ∉ t.toList)
      (hn : Nodes (t.toList ++ elems fs)) := ((ht.updateParent (v := rbt.parent gp) hpt).updateParent
        (v := p ||| rbtColor .red) hgt).store (v := p) hn
  rw [rotateSetParents, hparent, hfs'.changeChild hzn.right hg4 hgp0, holds_plug, addr_join, shape_join, shape_join]
  refine ⟨hfs'.store hzn.right.nodup, ?_, ?_, ?_, hkeep hx hp1 hg1 hxn, ?_, ?_, ?_, hkeep hy hp2 hg2 hyn,
    hkeep hz hp3 hg3 hzn⟩
  · rw [parent_store]
    exact (Function.update_of_ne hne ..).trans ((Function.update_self ..).trans hgp)
  · rw [child_store_of_notMem hp4]
    exact (child_congr rfl rfl _).trans hpx
  · rw [child_store_of_notMem hp4, addr_join]
    exact (child_congr rfl rfl _).trans hpgp
  · rw [parent_store]
    exact Function.update_self ..
  · rw [child_store_of_notMem hg4]
    exact (child_congr rfl rfl _).trans hgy
  · rw [child_store_of_notMem hg4]
    exact (child_congr rfl rfl _).trans hgz

/-- Case 3: `p` gets the place of `gp`, and `gp` with the tree `y` goes below it. -/
theorem insertCase3_holds {side : Side} {p gp parent : Ptr} {c : Color} {x y z : ColorTree Ptr} {fs : List (Frame Ptr)}
    (hnodes : Nodes (x.toList ++ (y.toList ++ (z.toList ++ p :: gp :: elems fs))))
    (hgp : rbt.parent gp = addrAbove fs ||| rbtColor c) (hgz : rbt.child gp side.other = addr z)
    (hz : rbt.Shape gp z) (hpx : rbt.child p side = addr x) (hx : rbt.Shape p x) (hy : rbt.Shape parent y)
    (hfs : rbt.ShapeAbove fs gp) :
    (rbt.insertCase3 side p (addr y) gp).Holds (plug fs (.join side c x p (.join side .red (y.paint .black) gp z))) := by
  have hnodup := hnodes.nodup
  have hymem : addr y ≠ p ∧ addr y ≠ gp ∧ addr y ∉ x.toList ∧ addr y ∉ z.toList ∧ addr y ∉ elems fs := by
    have hperm : Nodes (y.toList ++ (x.toList ++ (z.toList ++ p :: gp :: elems fs))) :=
      hnodes.perm (List.perm_append_comm_assoc ..)
    have hmem := hperm.addr_notMem
    simp only [List.mem_append, List.mem_cons, not_or] at hmem
    exact ⟨hmem.2.2.1, hmem.2.2.2.1, hmem.1, hmem.2.1, hmem.2.2.2.2⟩
  have hpmem : p ∉ x.toList ∧ p ∉ y.toList ∧ p ∉ z.toList ∧ p ∉ elems fs ∧ p ≠ gp := by
    grind [List.nodup_append, List.nodup_cons]
  have hgmem : gp ∉ x.toList ∧ gp ∉ y.toList ∧ gp ∉ z.toList ∧ gp ∉ elems fs := by
    grind [List.nodup_append, List.nodup_cons]
  obtain ⟨hyp, hyg, hy1, hy3, hy4⟩ := hymem
  obtain ⟨hp1, hp2, hp3, hp4, hne⟩ := hpmem
  obtain ⟨hg1, hg2, hg3, hg4⟩ := hgmem
  refine rotateSetParents_holds (y := y.paint .black) ?_ ?_ ?_ ?_ ?_ ?_ ?_ ?_ ?_ ?_
  · rwa [ColorTree.toList_paint]
  · rw [parent_blacken hyg.symm, parent_setChild, parent_setChild]
    exact hgp
  · rw [child_blacken, child_setChild_self_other, child_setChild_of_ne hne]
    exact hpx
  · rw [child_blacken, child_setChild]
  · rw [child_blacken, child_setChild_of_ne hne.symm, child_setChild, addr_paint]
  · rw [child_blacken, child_setChild_of_ne hne.symm, child_setChild_other]
    exact hgz
  · exact ((hx.setChild hg1).setChild hp1).blacken_of_notMem hy1
  · exact ((hy.setChild hg2).setChild hp2).blacken hnodes.right.left
  · exact ((hz.setChild hg3).setChild hp3).blacken_of_notMem hy3
  · exact ((hfs.setChild hg4).setChild hp4).blacken hy4

/-- Case 2: `n` gets the place of its parent `p`. -/
theorem insertCase2_inner {side : Side} {n p : Ptr} {v w y : ColorTree Ptr} {ps : List Ptr}
    (hnodes : Nodes (v.toList ++ (w.toList ++ (y.toList ++ n :: p :: ps)))) (hpv : rbt.child p side = addr v)
    (hpn : rbt.child p side.other = n) (hnw : rbt.child n side = addr w) (hny : rbt.child n side.other = addr y)
    (hv : rbt.Shape p v) (hw : rbt.Shape n w) (hy : rbt.Shape n y) :
    ∃ rbt' : RbTreeBase α, rbt.insertCase2 side n p = (rbt', n, addr y) ∧ rbt'.root = rbt.root ∧
      (∀ q ∈ ps, rbt'.parent q = rbt.parent q ∧ rbt'.left q = rbt.left q ∧ rbt'.right q = rbt.right q) ∧
      rbt'.child n side = p ∧ rbt'.Shape n (.join side (case2Color side) v p (w.paint .black)) ∧ rbt'.Shape n y := by
  have hnodup := hnodes.nodup
  have hwmem : addr w ≠ p ∧ addr w ≠ n ∧ addr w ∉ v.toList ∧ addr w ∉ y.toList ∧ addr w ∉ ps := by
    have hperm : Nodes (w.toList ++ (v.toList ++ (y.toList ++ n :: p :: ps))) :=
      hnodes.perm (List.perm_append_comm_assoc ..)
    have hmem := hperm.addr_notMem
    simp only [List.mem_append, List.mem_cons, not_or] at hmem
    exact ⟨hmem.2.2.2.1, hmem.2.2.1, hmem.1, hmem.2.1, hmem.2.2.2.2⟩
  have hnmem : n ∉ v.toList ∧ n ∉ w.toList ∧ n ∉ y.toList ∧ n ∉ ps ∧ n ≠ p := by
    grind [List.nodup_append, List.nodup_cons]
  have hpmem : p ∉ v.toList ∧ p ∉ w.toList ∧ p ∉ y.toList ∧ p ∉ ps := by
    grind [List.nodup_append, List.nodup_cons]
  obtain ⟨hwp, hwn, hwv, hwy, hwps⟩ := hwmem
  obtain ⟨hn1, hn2, hn3, hn4, hne⟩ := hnmem
  obtain ⟨hp1, hp2, hp3, hp4⟩ := hpmem
  refine ⟨(((rbt.setChild p side.other (addr w)).setChild n side p).blacken (addr w) p).setParentColor p n
    (case2Color side), ?_, ?_, fun q hq => ?_, ?_, shape_join.mpr ⟨?_, ?_, ?_, ?_, ?_⟩, ?_⟩
  · rw [insertCase2, hpn, if_pos rfl, hnw]
    dsimp only
    rw [child_setParentColor, child_blacken, child_setChild_other, child_setChild_of_ne hne, hny]
  · exact root_blacken.trans (root_setChild.trans root_setChild)
  · have hqp : q ≠ p := fun heq => hp4 (heq ▸ hq)
    have hqn : q ≠ n := fun heq => hn4 (heq ▸ hq)
    have hqw : q ≠ addr w := fun heq => hwps (heq ▸ hq)
    have hchild (s : Side) : ((((rbt.setChild p side.other (addr w)).setChild n side p).blacken (addr w)
        p).setParentColor p n (case2Color side)).child q s = rbt.child q s := by
      rw [child_setParentColor, child_blacken, child_setChild_of_ne hqn, child_setChild_of_ne hqp]
    exact ⟨by rw [parent_setParentColor hqp, parent_blacken hqw, parent_setChild, parent_setChild], hchild .left,
      hchild .right⟩
  · rw [child_setParentColor, child_blacken, child_setChild]
  · exact Function.update_self ..
  · rw [child_setParentColor, child_blacken, child_setChild_of_ne hne.symm, child_setChild_self_other]
    exact hpv
  · rw [child_setParentColor, child_blacken, child_setChild_of_ne hne.symm, child_setChild, addr_paint]
  · exact (((hv.setChild hp1).setChild hn1).blacken_of_notMem hwv).updateParent hp1
  · refine (((hw.setChild hp2).setChild hn2).blacken hnodes.right.left).updateParent ?_
    rwa [ColorTree.toList_paint]
  · exact (((hy.setChild hp3).setChild hn3).blacken_of_notMem hwy).updateParent hp3

/-- Both rotations, for a tree `t` whose root is red under the red node of `f`. -/
theorem insertRotate_holds {f g : Frame Ptr} {fs : List (Frame Ptr)} {t : ColorTree Ptr}
    (hnodes : Nodes (t.toList ++ elems (f :: g :: fs))) (hne : t ≠ .nil) (h : rbt.ShapeAbove (f :: g :: fs) (addr t))
    (ht : rbt.Shape f.elem t) :
    (rbt.insertRotate g.side (addr t) f.elem g.elem).Holds (plug fs (rotate case2Color f g t)) := by
  obtain ⟨-, hft, hfv, hv, hgp, hgf, hgz, hz, hfs⟩ := h
  by_cases hside : f.side = g.side
  · have hsib : addr t ≠ addr f.sibling :=
      hnodes.addr_ne hne fun p hp => List.mem_cons_of_mem _ (List.mem_append_left _ hp)
    have hperm : (t.toList ++ elems (f :: g :: fs)).Perm
        (t.toList ++ (f.sibling.toList ++ (g.sibling.toList ++ f.elem :: g.elem :: elems fs))) := by
      rw [List.perm_iff_count]
      intro p
      simp only [elems, List.count_append, List.count_cons]
      omega
    rw [← hside] at hgz
    rw [insertRotate, insertCase2, ← hside, hfv, if_neg hsib, rotate.eq_def, if_pos hside, ← hside]
    exact insertCase3_holds (hnodes.perm hperm) hgp hgz hz hft ht hv hfs
  · have hother : f.side = g.side.other ∧ f.side.other = g.side := by
      revert hside
      cases f.side <;> cases g.side <;> simp [Side.other]
    rw [hother.1] at hft
    rw [hother.2] at hfv
    obtain ⟨c, w, n, y, rfl⟩ := ColorTree.exists_join hne g.side
    rw [addr_join] at hft
    obtain ⟨-, hnw, hny, hw, hy⟩ := shape_join.mp ht
    have hperm : ((ColorTree.join g.side c w n y).toList ++ elems (f :: g :: fs)).Perm (f.sibling.toList ++
        (w.toList ++ (y.toList ++ n :: f.elem :: (g.sibling.toList ++ g.elem :: elems fs)))) := by
      refine ((ColorTree.perm_join ..).append_right _).trans ?_
      rw [List.perm_iff_count]
      intro p
      simp only [elems, List.count_append, List.count_cons]
      omega
    obtain ⟨rbt', heq, hroot, hkeep, hchild, hx, hy'⟩ :=
      insertCase2_inner (hnodes.perm hperm) hfv hft hnw hny hv hw hy
    obtain ⟨hg1, hg2, hg3⟩ := hkeep g.elem (List.mem_append_right _ List.mem_cons_self)
    rw [insertRotate, addr_join, heq, rotate_inner hside]
    refine insertCase3_holds (hnodes.perm (hperm.trans ?_)) (hg1.trans hgp) ((child_congr hg2 hg3 _).trans hgz)
      (hz.congr fun q hq => hkeep q (List.mem_append_left _ hq)) (hchild.trans (addr_join ..).symm) hx hy'
      (hfs.congr hroot fun q hq => hkeep q (List.mem_append_right _ (List.mem_cons_of_mem _ hq)))
    have hinner := ColorTree.perm_join g.side (case2Color g.side) f.sibling (w.paint .black) f.elem
    refine List.Perm.trans ?_ (hinner.symm.append_right _)
    rw [List.perm_iff_count]
    intro p
    simp only [ColorTree.toList_paint, List.count_append, List.count_cons]
    omega

/-! ### The loop -/

theorem is_iff {p q : Ptr} {c d : Color} (h : rbt.parent p = q ||| rbtColor c) (hq : q &&& 1 = 0) :
    rbt.is p d ↔ c = d := by
  rw [is, h, color_of_or c hq, rbtColor_inj]

theorem is_sibling_red {f : Frame Ptr} {fs : List (Frame Ptr)} (hnodes : Nodes (elems (f :: fs))) (h : rbt.Shape f.elem f.sibling) :
    (addr f.sibling ≠ 0 ∧ rbt.is (addr f.sibling) .red) ↔ f.sibling.color = .red := by
  have heven : f.elem &&& 1 = 0 := hnodes.even _ List.mem_cons_self
  have hn : Nodes f.sibling.toList := hnodes.tail.left
  cases hs : f.sibling with
  | nil => simp [addr, ColorTree.color]
  | node c l p r =>
    rw [hs] at h hn
    exact (and_iff_right (hn.addr_ne_zero (by simp))).trans (is_iff h.1 heven)

theorem insertColor_black {f : Frame Ptr} {fs : List (Frame Ptr)} {p : Ptr} (hnodes : Nodes (elems (f :: fs)))
    (h : rbt.ShapeAbove (f :: fs) p) (hf : f.color = .black) : Yields (rbt.insertColor p f.elem) rbt := by
  refine yields_last rfl fun n => ?_
  rw [insertColor, if_neg (hnodes.nonzero _ List.mem_cons_self),
    if_pos ((is_iff h.1 (hnodes.tail.right.addrAbove_even)).mpr hf)]

/-- The colours that Case 1 gives to the parent, its sibling and the grandparent. -/
def flip (rbt : RbTreeBase α) (tmp parent gp : Ptr) : RbTreeBase α × Ptr :=
  let rbt := (rbt.setParentColor tmp gp .black).setParentColor parent gp .black
  (rbt.setParentColor gp (rbt.parentOf gp) .red, rbt.parentOf gp)

/-- A pass below a red parent. -/
theorem insertColor_red {f g : Frame Ptr} {fs : List (Frame Ptr)} {p : Ptr} (hnodes : Nodes (elems (f :: g :: fs)))
    (h : rbt.ShapeAbove (f :: g :: fs) p) (hf : f.color = .red) (n : Nat) :
    rbt.insertColor p f.elem (n + 1) =
      if g.sibling.color = .red then
        let (rbt, parent) := rbt.flip (addr g.sibling) f.elem g.elem
        rbt.insertColor g.elem parent n
      else some (rbt.insertRotate g.side p f.elem g.elem) := by
  obtain ⟨hp, -, -, -, hgp, hgf, hgz, hz, -⟩ := h
  have hg : Nodes (elems (g :: fs)) := hnodes.tail.right
  have hgp' : rbt.parentOf f.elem = g.elem := by
    rw [parentOf, hp]
    exact parent_of_or _ (hg.even _ List.mem_cons_self)
  have hf0 : f.elem ≠ 0 := hnodes.nonzero _ List.mem_cons_self
  have hsib : f.elem ≠ addr g.sibling := by
    intro heq
    have hsib : g.sibling ≠ .nil := by
      intro hnil
      rw [hnil] at heq
      exact hf0 heq
    refine (List.nodup_cons.mp hnodes.nodup).1 (List.mem_append_right _ (List.mem_cons_of_mem _ ?_))
    exact List.mem_append_left _ (heq ▸ addr_mem hsib)
  have hside : (if f.elem ≠ rbt.right g.elem then Side.left else .right) = g.side := by
    cases hs : g.side
    · rw [hs] at hgz
      exact if_pos fun heq => hsib (heq.trans hgz)
    · rw [hs] at hgf
      exact if_neg (not_not.mpr hgf.symm)
  have hbranch := is_sibling_red hg hz
  rw [insertColor, if_neg hf0, if_neg (mt (is_iff hp (hg.even _ List.mem_cons_self)).mp (by simp [hf])), hgp',
    if_neg (hg.nonzero _ List.mem_cons_self), hside]
  dsimp only
  rw [hgz]
  by_cases hred : g.sibling.color = .red
  · rw [if_pos (hbranch.mpr hred), if_pos hred]
    rfl
  · rw [if_neg (mt hbranch.mp hred), if_neg hred]

theorem flip_shape {f g : Frame Ptr} {fs : List (Frame Ptr)} {t : ColorTree Ptr}
    (hnodes : Nodes (t.toList ++ elems (f :: g :: fs))) (h : rbt.ShapeAbove (f :: g :: fs) (addr t))
    (ht : rbt.Shape f.elem t) (hsib : g.sibling ≠ .nil) :
    ∃ rbt', rbt.flip (addr g.sibling) f.elem g.elem = (rbt', addrAbove fs) ∧ rbt'.ShapeAbove fs g.elem ∧
      rbt'.Shape (addrAbove fs)
        (.join g.side .red (({ f with color := .black } : Frame Ptr).fill t) g.elem (g.sibling.paint .black)) := by
  obtain ⟨-, hft, hfv, hv, hgp, hgf, hgz, hz, hfs⟩ := h
  have hnodup := hnodes.nodup
  simp only [elems] at hnodup
  have hfmem : f.elem ∉ t.toList ∧ f.elem ∉ f.sibling.toList ∧ f.elem ∉ g.sibling.toList ∧ f.elem ∉ elems fs ∧
      f.elem ≠ g.elem := by
    grind [List.nodup_append, List.nodup_cons]
  have hgmem : g.elem ∉ t.toList ∧ g.elem ∉ f.sibling.toList ∧ g.elem ∉ g.sibling.toList ∧ g.elem ∉ elems fs := by
    grind [List.nodup_append, List.nodup_cons]
  have hzmem : addr g.sibling ∉ t.toList ∧ addr g.sibling ∉ f.sibling.toList ∧ addr g.sibling ∉ elems fs ∧
      addr g.sibling ≠ f.elem ∧ addr g.sibling ≠ g.elem := by
    have hz := addr_mem hsib
    grind [List.nodup_append, List.nodup_cons]
  obtain ⟨hf1, hf2, hf3, hf4, hne⟩ := hfmem
  obtain ⟨hg1, hg2, hg3, hg4⟩ := hgmem
  obtain ⟨hz1, hz2, hz4, hzf, hzg⟩ := hzmem
  have hparent : ((rbt.setParentColor (addr g.sibling) g.elem .black).setParentColor f.elem g.elem .black).parentOf
      g.elem = addrAbove fs := by
    rw [parentOf, parent_setParentColor hne.symm, parent_setParentColor hzg.symm, hgp]
    exact parent_of_or _ hnodes.right.tail.right.tail.right.addrAbove_even
  have hflip : rbt.flip (addr g.sibling) f.elem g.elem =
      (((rbt.setParentColor (addr g.sibling) g.elem .black).setParentColor f.elem g.elem .black).setParentColor g.elem
        (addrAbove fs) .red, addrAbove fs) := by
    rw [flip, hparent]
  refine ⟨_, hflip, ((hfs.updateParent hz4).updateParent hf4).updateParent hg4, ?_⟩
  rw [shape_join, Frame.fill, shape_join, addr_join, addr_paint]
  refine ⟨Function.update_self .., ?_, ?_, ⟨?_, ?_, ?_, ?_, ?_⟩, ?_⟩
  · rw [child_setParentColor, child_setParentColor, child_setParentColor]
    exact hgf
  · rw [child_setParentColor, child_setParentColor, child_setParentColor]
    exact hgz
  · exact (parent_setParentColor hne).trans (Function.update_self ..)
  · rw [child_setParentColor, child_setParentColor, child_setParentColor]
    exact hft
  · rw [child_setParentColor, child_setParentColor, child_setParentColor]
    exact hfv
  · exact ((ht.updateParent hz1).updateParent hf1).updateParent hg1
  · exact ((hv.updateParent hz2).updateParent hf2).updateParent hg2
  · refine ((hz.setParentColor hnodes.right.tail.right.tail.left.nodup).updateParent ?_).updateParent ?_
    · rwa [ColorTree.toList_paint]
    · rwa [ColorTree.toList_paint]

theorem insertColor_yields {fs : List (Frame Ptr)} {t : ColorTree Ptr} (hroot : BlackRoot fs)
    (hnodes : Nodes (t.toList ++ elems fs)) (hred : t.color = .red) (h : rbt.ShapeAbove fs (addr t))
    (ht : rbt.Shape (addrAbove fs) t) :
    ∃ rbt', Yields (rbt.insertColor (addr t) (addrAbove fs)) rbt' ∧ rbt'.Holds (repair case2Color fs t) := by
  have hne : t ≠ .nil := by
    rintro rfl
    cases hred
  induction fs, t using repair.induct generalizing rbt with
  | case1 t =>
    exact ⟨rbt.setParentColor (addr t) 0 .black, yields_last rfl fun n => if_pos rfl, h.trans (addr_paint ..).symm,
      ht.setParentColor hnodes.left.nodup⟩
  | case2 f t => exact ⟨rbt, insertColor_black hnodes.right h hroot, holds_plug.mpr ⟨h, ht⟩⟩
  | case3 f g fs t hf =>
    rw [repair, if_pos hf]
    exact ⟨rbt, insertColor_black hnodes.right h hf, holds_plug.mpr ⟨h, ht⟩⟩
  | case4 f g fs t hf hg ih =>
    rw [repair, if_neg hf, if_pos hg]
    obtain ⟨rbt₁, hflip, h₁, ht₁⟩ := flip_shape hnodes h ht (by rintro hnil; rw [hnil] at hg; cases hg)
    have hperm : (t.toList ++ elems (f :: g :: fs)).Perm ((ColorTree.join g.side .red
        (({ f with color := .black } : Frame Ptr).fill t) g.elem (g.sibling.paint .black)).toList ++ elems fs) := by
      have hfill := ColorTree.perm_join f.side .black t f.sibling f.elem
      refine List.Perm.trans ?_ ((ColorTree.perm_join ..).symm.append_right _)
      refine List.Perm.trans ?_ (((hfill.symm.append_right _).cons _).append_right _)
      rw [List.perm_iff_count]
      intro p
      simp only [ColorTree.toList_paint, elems, List.count_append, List.count_cons]
      omega
    obtain ⟨rbt', hrun, hholds⟩ :=
      ih hroot.tail.tail (hnodes.perm hperm) (ColorTree.color_join ..) (by rwa [addr_join]) ht₁
        (ColorTree.join_ne_nil _ _ _ _ _)
    refine ⟨rbt', hrun.pass rfl fun n => ?_, hholds⟩
    rw [addrAbove, insertColor_red hnodes.right h (Color.not_black.mp hf), if_pos hg, hflip, addr_join]
  | case5 f g fs t hf hg =>
    rw [repair, if_neg hf, if_neg hg]
    refine ⟨_, yields_last rfl fun n => ?_, insertRotate_holds hnodes hne h ht⟩
    rw [addrAbove, insertColor_red hnodes.right h (Color.not_black.mp hf), if_neg hg]

/-! ### What the insertion keeps -/

section
variable {p q v gp : Ptr} {s : Side} {c : Color} {l : Link}

@[simp] theorem data_setParentColor : (rbt.setParentColor p q c).data = rbt.data := rfl

@[simp] theorem compare_setParentColor : (rbt.setParentColor p q c).compare = rbt.compare := rfl

@[simp] theorem data_blacken : (rbt.blacken p q).data = rbt.data := by
  rw [blacken]
  split <;> rfl

@[simp] theorem compare_blacken : (rbt.blacken p q).compare = rbt.compare := by
  rw [blacken]
  split <;> rfl

@[simp] theorem data_changeChild : (rbt.changeChild p q v).data = rbt.data := by
  rw [changeChild]
  split
  · split <;> rfl
  · rfl

@[simp] theorem compare_changeChild : (rbt.changeChild p q v).compare = rbt.compare := by
  rw [changeChild]
  split
  · split <;> rfl
  · rfl

@[simp] theorem data_store : (rbt.store l v).data = rbt.data := by
  cases l
  · rfl
  · exact data_setChild

@[simp] theorem compare_store : (rbt.store l v).compare = rbt.compare := by
  cases l
  · rfl
  · exact compare_setChild

theorem keeps_insertCase2 :
    (rbt.insertCase2 s p q).1.data = rbt.data ∧ (rbt.insertCase2 s p q).1.compare = rbt.compare := by
  rw [insertCase2]
  split
  · simp
  · exact ⟨rfl, rfl⟩

theorem keeps_insertCase3 :
    (rbt.insertCase3 s p q gp).data = rbt.data ∧ (rbt.insertCase3 s p q gp).compare = rbt.compare := by
  simp [insertCase3, rotateSetParents]

theorem keeps_insertRotate :
    (rbt.insertRotate s p q gp).data = rbt.data ∧ (rbt.insertRotate s p q gp).compare = rbt.compare := by
  obtain ⟨hdata, hcompare⟩ := @keeps_insertCase2 α rbt p q s
  exact ⟨keeps_insertCase3.1.trans hdata, keeps_insertCase3.2.trans hcompare⟩

/-- The repair writes links and colours only. -/
theorem insertColor_keeps {rbt' : RbTreeBase α} {n : Nat} (h : rbt.insertColor p q n = some rbt') :
    rbt'.data = rbt.data ∧ rbt'.compare = rbt.compare := by
  induction n generalizing rbt p q with
  | zero => cases h
  | succ n ih =>
    rw [insertColor] at h
    split at h
    · obtain rfl := Option.some.inj h
      exact ⟨rfl, rfl⟩
    · split at h
      · obtain rfl := Option.some.inj h
        exact ⟨rfl, rfl⟩
      · dsimp only at h
        split at h
        · cases h
        · generalize (if q ≠ rbt.right (rbt.parentOf q) then Side.left else .right) = side at h
          split at h
          · have hkeep := ih h
            exact hkeep
          · obtain rfl := Option.some.inj h
            exact keeps_insertRotate

theorem insert_keeps {rbt' : RbTreeBase α} {n : Nat} (h : rbt.insert l p q n = some rbt') :
    rbt'.data = rbt.data ∧ rbt'.compare = rbt.compare := by
  obtain ⟨hdata, hcompare⟩ := insertColor_keeps h
  exact ⟨by simpa [linkNode, initNode, setParent] using hdata, by simpa [linkNode, initNode, setParent] using hcompare⟩

end

/-! ### A new node -/

/-- A new red node at the end of a way down, and the repair. -/
theorem insert_yields {fs : List (Frame Ptr)} {node : Ptr} (hroot : BlackRoot fs) (hnodes : Nodes (node :: elems fs))
    (h : rbt.ShapeAbove fs 0) :
    ∃ rbt', Yields (rbt.insert (linkAt fs) node (addrAbove fs)) rbt' ∧
      rbt'.Holds (repair case2Color fs (.node .red .nil node .nil)) := by
  have hmem : node ∉ elems fs := (List.nodup_cons.mp hnodes.nodup).1
  have hfs := hnodes.tail
  let rbt₁ := (rbt.initNode node).linkNode (linkAt fs) node (addrAbove fs)
  have hinit : (rbt.initNode node).ShapeAbove fs 0 :=
    ((((h.updateParent hmem).setChild hmem).setChild hmem).updateParent hmem)
  have habove : rbt₁.ShapeAbove fs node :=
    (((hinit.updateParent hmem).setChild hmem).setChild hmem).store hfs.nodup
  have hnode : rbt₁.Shape (addrAbove fs) (.node .red .nil node .nil) := by
    refine ⟨?_, ?_, ?_, trivial, trivial⟩
    · change (RbTreeBase.store _ _ _).parent node = _
      rw [parent_store, parent_setChild, parent_setChild]
      exact (Function.update_self ..).trans (BitVec.or_zero).symm
    · change (RbTreeBase.store _ _ _).child node .left = _
      rw [child_store_of_notMem hmem, child_setChild]
      rfl
    · change (RbTreeBase.store _ _ _).child node .right = _
      rw [child_store_of_notMem hmem]
      exact child_setChild_other.trans child_setChild
  have hparent : rbt₁.parentOf node = addrAbove fs := by
    rw [parentOf, hnode.1]
    exact parent_of_or .red hfs.addrAbove_even
  obtain ⟨rbt', hrun, hholds⟩ := insertColor_yields hroot (t := .node .red .nil node .nil) hnodes rfl habove hnode
  refine ⟨rbt', hrun.congr fun n => ?_, hholds⟩
  change rbt₁.insertColor node (rbt₁.parentOf node) n = _
  rw [hparent]
  rfl

end RbTreeBase
end Cyntatic
