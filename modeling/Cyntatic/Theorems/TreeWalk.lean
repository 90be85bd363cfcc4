import Cyntatic.Theorems.TreeShape

/-! # Walks over the red-black tree in memory

The searches that go down from the root, and the iteration that goes down to the left and back up by the parents. -/

namespace Cyntatic
open Library

variable {α : Type}

namespace RbTreeBase
variable {rbt : RbTreeBase α}

/-! ### The way down -/

/-- Whether a new value goes to the left of a node. -/
def goesLeft (rbt : RbTreeBase α) (value : α) (len : BitVec 32) (p : Ptr) : Bool :=
  decide (rbt.compare value len (rbt.data p) < 0)

theorem addPlace_yields {value : α} {len : BitVec 32} {t : ColorTree Ptr} {fs : List (Frame Ptr)}
    (hnodes : Nodes t.toList) (h : rbt.ShapeAbove fs (addr t)) (ht : rbt.Shape (addrAbove fs) t) :
    let fs' := descend (rbt.goesLeft value len) t fs
    Yields (rbt.addPlace value len (addrAbove fs) (linkAt fs)) (addrAbove fs', linkAt fs') := by
  induction t generalizing fs with
  | nil => exact yields_last rfl fun n => if_pos h.load
  | node c l p r ihl ihr =>
    obtain ⟨hp, hl, hr, htl, htr⟩ := ht
    have hp0 : p ≠ 0 := hnodes.addr_ne_zero (t := .node c l p r) (by simp)
    have hpass (n : Nat) : rbt.addPlace value len (addrAbove fs) (linkAt fs) (n + 1) =
        rbt.addPlace value len p
          (.child p (if rbt.compare value len (rbt.data p) < 0 then Side.left else .right)) n := by
      have hload : rbt.load (linkAt fs) = p := h.load
      rw [addPlace, hload, if_neg hp0]
    rw [descend, goesLeft]
    by_cases hlt : rbt.compare value len (rbt.data p) < 0
    · rw [if_pos (decide_eq_true hlt)]
      refine (@ihl (⟨.left, c, p, r⟩ :: fs) hnodes.left ⟨hp, hl, hr, htr, h⟩ htl).pass rfl fun n => ?_
      rw [hpass, if_pos hlt]
      rfl
    · rw [if_neg (by simpa using hlt)]
      refine (@ihr (⟨.right, c, p, l⟩ :: fs) hnodes.right.tail ⟨hp, hr, hl, htl, h⟩ htr).pass rfl fun n => ?_
      rw [hpass, if_neg hlt]
      rfl

theorem findOrAddPlace_yields {value : α} {len : BitVec 32} {t : ColorTree Ptr} {fs : List (Frame Ptr)}
    (hnodes : Nodes t.toList) (h : rbt.ShapeAbove fs (addr t)) (ht : rbt.Shape (addrAbove fs) t) :
    let fs' := descend (rbt.goesLeft value len) t fs
    Yields (rbt.findOrAddPlace value len (addrAbove fs) (linkAt fs))
      (match t.search fun p => rbt.compare value len (rbt.data p) with
        | some p => .inl p
        | none => .inr (addrAbove fs', linkAt fs')) := by
  induction t generalizing fs with
  | nil => exact yields_last rfl fun n => if_pos h.load
  | node c l p r ihl ihr =>
    obtain ⟨hp, hl, hr, htl, htr⟩ := ht
    have hp0 : p ≠ 0 := hnodes.addr_ne_zero (t := .node c l p r) (by simp)
    have hload : rbt.load (linkAt fs) = p := h.load
    rw [descend, goesLeft, ColorTree.search]
    by_cases hlt : rbt.compare value len (rbt.data p) < 0
    · rw [if_pos (decide_eq_true hlt), if_pos hlt]
      refine (@ihl (⟨.left, c, p, r⟩ :: fs) hnodes.left ⟨hp, hl, hr, htr, h⟩ htl).pass rfl fun n => ?_
      rw [findOrAddPlace, hload, if_neg hp0, if_pos hlt]
      rfl
    · rw [if_neg (by simpa using hlt), if_neg hlt]
      by_cases hgt : 0 < rbt.compare value len (rbt.data p)
      · rw [if_pos hgt]
        refine (@ihr (⟨.right, c, p, l⟩ :: fs) hnodes.right.tail ⟨hp, hr, hl, htl, h⟩ htr).pass rfl fun n => ?_
        rw [findOrAddPlace, hload, if_neg hp0, if_neg hlt, if_pos hgt]
        rfl
      · rw [if_neg hgt]
        refine yields_last rfl fun n => ?_
        rw [findOrAddPlace, hload, if_neg hp0, if_neg hlt, if_neg hgt]

theorem findFrom_yields {value : α} {len : BitVec 32} {t : ColorTree Ptr} {parent : Ptr} (hnodes : Nodes t.toList)
    (ht : rbt.Shape parent t) :
    Yields (rbt.findFrom value len (addr t))
      ((t.search fun p => rbt.compare value len (rbt.data p)).getD 0) := by
  induction t generalizing parent with
  | nil => exact yields_last rfl fun n => if_pos rfl
  | node c l p r ihl ihr =>
    obtain ⟨-, hl, hr, htl, htr⟩ := ht
    have hp0 : p ≠ 0 := hnodes.addr_ne_zero (t := .node c l p r) (by simp)
    rw [ColorTree.search, addr]
    split
    · rename_i hlt
      refine (ihl hnodes.left htl).pass rfl fun n => ?_
      rw [findFrom, if_neg hp0, if_pos hlt, hl]
    · rename_i hlt
      split
      · rename_i hgt
        refine (ihr hnodes.right.tail htr).pass rfl fun n => ?_
        rw [findFrom, if_neg hp0, if_neg hlt, if_pos hgt, hr]
      · rename_i hgt
        refine yields_last rfl fun n => ?_
        rw [findFrom, if_neg hp0, if_neg hlt, if_neg hgt]
        rfl

/-! ### Iteration -/

/-- The first of some nodes, `NULL` where there is none. -/
def headOr : List Ptr → Ptr
  | [] => 0
  | p :: _ => p

theorem leftmost_yields {t : ColorTree Ptr} {parent : Ptr} (hnodes : Nodes t.toList) (ht : rbt.Shape parent t)
    (hne : t ≠ .nil) : Yields (rbt.leftmost (addr t)) (headOr t.toList) := by
  induction t generalizing parent with
  | nil => exact absurd rfl hne
  | node c l p r ihl ihr =>
    obtain ⟨-, hl, -, htl, -⟩ := ht
    by_cases hnil : l = .nil
    · subst hnil
      exact yields_last rfl fun n => if_neg (not_not.mpr hl)
    · have hhead : headOr (ColorTree.node c l p r).toList = headOr l.toList := by
        cases hlist : l.toList with
        | nil => exact absurd (hlist ▸ addr_mem hnil) List.not_mem_nil
        | cons q ps => rw [ColorTree.toList, hlist]; rfl
      rw [hhead]
      refine (ihl hnodes.left htl hnil).pass rfl fun n => ?_
      rw [leftmost, addr, hl, if_pos (hnodes.left.addr_ne_zero hnil)]

/-- The way up from a node ends at the next node that was left to the left. -/
theorem climb_yields {c : Color} {p : Ptr} {fs : List (Frame Ptr)} (hnodes : Nodes (p :: elems fs))
    (h : rbt.ShapeAbove fs p) (hp : rbt.parent p = addrAbove fs ||| rbtColor c) :
    Yields (rbt.climb p) (headOr (after fs)) := by
  have hparent : rbt.parentOf p = addrAbove fs := by
    rw [parentOf, hp]
    exact parent_of_or c hnodes.tail.addrAbove_even
  induction fs generalizing p c with
  | nil =>
    refine yields_last rfl fun n => ?_
    rw [climb, hparent]
    exact if_neg fun hand => hand.1 rfl
  | cons f fs ih =>
    obtain ⟨hf, hside, hother, -, hfs⟩ := h
    have hf0 : f.elem ≠ 0 := hnodes.nonzero _ (List.mem_cons_of_mem _ List.mem_cons_self)
    have hfn : Nodes (f.elem :: elems fs) := hnodes.tail.sublist ((List.sublist_append_right ..).cons_cons _)
    cases hs : f.side
    · have hsib : p ≠ addr f.sibling := by
        intro heq
        have hne : f.sibling ≠ .nil := by
          intro hnil
          rw [hnil] at heq
          exact hnodes.nonzero _ List.mem_cons_self heq
        refine (List.nodup_cons.mp hnodes.nodup).1 (List.mem_cons_of_mem _ (List.mem_append_left _ ?_))
        exact heq ▸ addr_mem hne
      rw [hs] at hother
      have hafter : headOr (after (f :: fs)) = f.elem := by
        rw [after, hs]
        rfl
      rw [hafter]
      refine yields_last rfl fun n => ?_
      rw [climb, hparent]
      exact if_neg fun hand => hsib (hand.2.trans hother)
    · rw [hs] at hside
      have hafter : after (f :: fs) = after fs := by rw [after, hs]
      rw [hafter]
      refine (ih hfn hfs hf ?_).pass rfl fun n => ?_
      · rw [parentOf, hf]
        exact parent_of_or _ hfn.tail.addrAbove_even
      · rw [climb, hparent]
        exact if_pos ⟨hf0, hside.symm⟩

theorem next_yields {c : Color} {l r : ColorTree Ptr} {p : Ptr} {fs : List (Frame Ptr)}
    (hnodes : Nodes ((ColorTree.node c l p r).toList ++ elems fs)) (h : rbt.ShapeAbove fs p)
    (ht : rbt.Shape (addrAbove fs) (.node c l p r)) : Yields (rbt.next p) (headOr (r.toList ++ after fs)) := by
  obtain ⟨hp, -, hr, -, htr⟩ := ht
  have hpn : Nodes (p :: elems fs) := by
    have hsub : [p].Sublist (ColorTree.node c l p r).toList := List.singleton_sublist.mpr (addr_mem (by simp))
    exact hnodes.sublist (hsub.append_right _)
  -- The parent of a node is never the node itself.
  have hself : rbt.parent p ≠ p := by
    intro heq
    have habove : p = addrAbove fs := by
      rw [← parent_of_or c hpn.tail.addrAbove_even, ← hp, heq]
      exact (and_not_one (hpn.even p List.mem_cons_self)).symm
    cases fs with
    | nil => exact hpn.nonzero _ List.mem_cons_self habove
    | cons f fs => exact (List.nodup_cons.mp hpn.nodup).1 (habove ▸ List.mem_cons_self)
  have hstep (n : Nat) : rbt.next p n = if addr r ≠ 0 then rbt.leftmost (addr r) n else rbt.climb p n := by
    rw [next, if_neg hself, hr]
  by_cases hnil : r = .nil
  · subst hnil
    refine (climb_yields hpn h hp).congr fun n => ?_
    rw [hstep]
    exact if_neg fun hne => hne rfl
  · have hrn : Nodes r.toList := hnodes.left.right.tail
    have hhead : headOr (r.toList ++ after fs) = headOr r.toList := by
      cases hlist : r.toList with
      | nil => exact absurd (hlist ▸ addr_mem hnil) List.not_mem_nil
      | cons q ps => rfl
    rw [hhead]
    refine (leftmost_yields hrn htr hnil).congr fun n => ?_
    rw [hstep, if_pos (hrn.addr_ne_zero hnil)]

theorem visitFrom_yields {t : ColorTree Ptr} {xs ys : List Ptr} (hnodes : Nodes t.toList) (h : rbt.Holds t)
    (hlist : t.toList = xs ++ ys) : Yields (rbt.visitFrom (headOr ys)) ys := by
  induction ys generalizing xs with
  | nil => exact yields_last rfl fun n => if_pos rfl
  | cons p ys ih =>
    have hp0 : p ≠ 0 := hnodes.nonzero p (by simp [hlist])
    obtain ⟨fs, c, l, r, rfl, hxs, hys⟩ := exists_plug hlist
    obtain ⟨habove, hshape⟩ := holds_plug.mp h
    have hnext := next_yields (hnodes.perm (perm_plug ..)) habove hshape
    have hrest := @ih (xs ++ [p]) (by simpa using hlist)
    rw [← hys] at hnext
    refine ((hnext.bind hrest).map (p :: ·)).pass rfl fun n => ?_
    rw [headOr, visitFrom, if_neg hp0]
    cases rbt.next p n with
    | none => rfl
    | some q => cases hq : rbt.visitFrom q n <;> simp [hq]

/-- The iteration goes through the nodes in their order. -/
theorem visit_yields {t : ColorTree Ptr} (hnodes : Nodes t.toList) (h : rbt.Holds t) : Yields rbt.visit t.toList := by
  have hall : Yields (rbt.visitFrom (headOr t.toList)) t.toList := @visitFrom_yields _ _ t [] _ hnodes h rfl
  have hfirst : Yields rbt.first (headOr t.toList) := by
    obtain ⟨hroot, hshape⟩ := h
    by_cases hnil : t = .nil
    · subst hnil
      exact yields_of_eq fun n => if_pos hroot
    · refine (leftmost_yields hnodes hshape hnil).congr fun n => ?_
      rw [first, hroot, if_neg (hnodes.addr_ne_zero hnil)]
  exact (hfirst.bind hall).congr fun n => rfl

end RbTreeBase
end Cyntatic
