import Cyntatic.Theorems.TreeRuns

/-! # The balance of the red-black tree

The rotation at the parent makes the old parent black when it is a left child and red when it is a right one. Red-black
trees stay red-black exactly as long as no insertion makes the first of these rotations. -/

namespace Cyntatic
open Library

variable {α : Type}

namespace RbTreeBase
variable {rbt : RbTreeBase α} {compare : α → BitVec 32 → α → Int} {nodes : List Ptr}

/-- The nodes form a red-black tree. -/
def Balanced (rbt : RbTreeBase α) : Prop := ∃ t, rbt.Tree t ∧ t.RedBlack

/-- The insertion of a value rotates at a parent that is a left child. -/
def TurnsLeft (rbt : RbTreeBase α) (value : α) (len : BitVec 32) : Prop :=
  ∃ t, rbt.Tree t ∧ innerTurn (descend (rbt.goesLeft value len) t []) = some .left

theorem redBlack_iff {t : ColorTree Ptr} (ht : rbt.Tree t) (hred : t.RedBlack) (value : α) (len : BitVec 32)
    (node : Ptr) :
    (t.insert case2Color (rbt.goesLeft value len) node).RedBlack ↔ ¬rbt.TurnsLeft value len := by
  rw [redBlack_insert hred]
  constructor
  · rintro hall ⟨u, hu, hturn⟩
    obtain rfl := ht.unique hu
    exact absurd (hall .left hturn) (by decide)
  · intro hnot s hs
    cases s
    · exact absurd ⟨t, ht, hs⟩ hnot
    · rfl

theorem balanced_iff {t : ColorTree Ptr} (ht : rbt.Tree t) : rbt.Balanced ↔ t.RedBlack := by
  constructor
  · rintro ⟨u, hu, hred⟩
    rwa [ht.unique hu]
  · exact fun hred => ⟨t, ht, hred⟩

/-- A tree is red-black after a run without that rotation, and the next insertion keeps it so exactly when it does not
    make one. -/
theorem run_balanced (h : Reaches compare (fun rbt value len => ¬rbt.TurnsLeft value len) nodes rbt) :
    rbt.Balanced ∧ ∀ value len node rbt', Nodes (node :: nodes) →
      Yields (rbt.add node value len) (rbt', node) ∨ Yields (rbt.findOrAdd node value len) (rbt', true, node) →
      (rbt'.Balanced ↔ ¬rbt.TurnsLeft value len) := by
  have hrun := @Reaches.tree _ _ _ _ _ (fun _ t => t.RedBlack) h ?_ ?_ ?_
  · obtain ⟨-, t, ht, hperm, hred⟩ := hrun
    refine ⟨⟨t, ht, hred⟩, fun value len node rbt' hnode hcall => ?_⟩
    have hnode' : Nodes (node :: t.toList) := hnode.perm (hperm.symm.cons _)
    rw [← redBlack_iff ht hred value len node]
    rcases hcall with hcall | hcall
    · obtain ⟨rbt₁, hadd, -, -, ht'⟩ := @add_yields _ _ value len _ _ ht hnode'
      obtain ⟨rfl, -⟩ := Prod.mk.inj (hadd.unique hcall)
      exact balanced_iff ht'
    · cases hs : t.search fun p => rbt.compare value len (rbt.data p) with
      | some q =>
        obtain ⟨-, hpair⟩ := Prod.mk.inj ((findOrAdd_found ht hs).unique hcall)
        cases (Prod.mk.inj hpair).1
      | none =>
        obtain ⟨rbt₁, hadd, -, -, ht'⟩ := findOrAdd_added ht hnode' hs
        obtain ⟨rfl, -⟩ := Prod.mk.inj (hadd.unique hcall)
        exact balanced_iff ht'
  · exact fun _ => ⟨rfl, trivial, 0, rfl⟩
  · intro rbt t node value d len ht _ hred hok _ _
    exact (redBlack_iff ht hred value len node).mpr hok
  · intro rbt t p value d len _ hred _ _ _
    exact hred

/-- A tree of integers after the insertion of 3. -/
theorem run_balanced_three : ∃ rbt : RbTreeBase Int, rbt.root ≠ 0 ∧ rbt.data 16 = 3 ∧ rbt.Balanced := by
  let rbt : RbTreeBase Int := ⟨0, fun value _ d => value - d, fun _ => 0, fun _ => 0, fun _ => 0, fun _ => 0⟩
  have hturn : ¬rbt.TurnsLeft 3 0 := by
    rintro ⟨t, ht, hturn⟩
    rw [ht.unique (empty_tree rfl)] at hturn
    cases hturn
  obtain ⟨rbt', hrun, ht, hdata, -⟩ := @Reaches.exists_add _ rbt _
    (fun rbt value len => ¬rbt.TurnsLeft value len) [] 3 3 0 16 .nil (.init rfl rfl) (empty_tree rfl) (.refl _)
    hturn ⟨by simp, by simp, by simp⟩ (by rfl)
  refine ⟨rbt', ?_, ?_, (run_balanced hrun).1⟩
  · rw [ht.holds.1]
    exact ht.nodes.addr_ne_zero (ColorTree.join_ne_nil .left _ .nil .nil 16)
  · rw [hdata, Function.update_self]

/-- The insertions of 3, 1 and 2, each at a new node. -/
theorem unbalanced : ∃ rbt : RbTreeBase Int,
    Reaches (fun value _ d => value - d) (fun _ _ _ => True) [48, 32, 16] rbt ∧ rbt.data 16 = 3 ∧ rbt.data 32 = 1 ∧
      rbt.data 48 = 2 ∧ ¬rbt.Balanced := by
  let rbt : RbTreeBase Int := ⟨0, fun value _ d => value - d, fun _ => 0, fun _ => 0, fun _ => 0, fun _ => 0⟩
  have hinit : Reaches (fun value _ d => value - d) (fun _ _ _ => True) [] rbt := .init rfl rfl
  have hnodes : Nodes [48, 32, 16] := ⟨by simp, by simp, by simp⟩
  obtain ⟨rbt₁, h₁, ht₁, hdata₁, hcompare₁⟩ :=
    @Reaches.exists_add _ _ _ _ _ 3 3 0 16 _ hinit (empty_tree rfl) (.refl _) trivial hnodes.tail.tail rfl
  have hshape₁ : ColorTree.insert case2Color (rbt.goesLeft 3 0) .nil 16 = .node .black .nil 16 .nil := rfl
  rw [hshape₁] at ht₁
  obtain ⟨rbt₂, h₂, ht₂, hdata₂, hcompare₂⟩ :=
    @Reaches.exists_add _ _ _ _ _ 1 1 0 32 _ h₁ ht₁ (.refl _) trivial hnodes.tail rfl
  have hshape₂ : ColorTree.insert case2Color (rbt₁.goesLeft 1 0) (.node .black .nil 16 .nil) 32 =
      .node .black (.node .red .nil 32 .nil) 16 .nil := by
    have hlt : rbt₁.goesLeft 1 0 16 = true := by simp [goesLeft, hcompare₁, hdata₁, rbt]
    rw [ColorTree.insert, descend, hlt]
    rfl
  rw [hshape₂] at ht₂
  obtain ⟨rbt₃, h₃, ht₃, hdata₃, -⟩ :=
    @Reaches.exists_add _ _ _ _ _ 2 2 0 48 _ h₂ ht₂ (.refl _) trivial hnodes rfl
  have hshape₃ : ColorTree.insert case2Color (rbt₂.goesLeft 2 0) (.node .black (.node .red .nil 32 .nil) 16 .nil) 48 =
      .node .black (.node .black .nil 32 .nil) 48 (.node .red .nil 16 .nil) := by
    have hlt : rbt₂.goesLeft 2 0 16 = true := by simp [goesLeft, hcompare₂, hcompare₁, hdata₂, hdata₁, rbt]
    have hge : rbt₂.goesLeft 2 0 32 = false := by simp [goesLeft, hcompare₂, hcompare₁, hdata₂, hdata₁, rbt]
    rw [ColorTree.insert, descend, hlt, if_pos rfl, descend, hge]
    rfl
  rw [hshape₃] at ht₃
  refine ⟨rbt₃, h₃, ?_, ?_, ?_, ?_⟩
  · rw [hdata₃, hdata₂, hdata₁]
    rfl
  · rw [hdata₃, hdata₂]
    rfl
  · rw [hdata₃]
    rfl
  · rw [balanced_iff ht₃]
    rintro ⟨-, -, n, m, -, ⟨k, rfl, -⟩, ⟨j, hj, rfl, -⟩⟩
    cases hj

end RbTreeBase
end Cyntatic
