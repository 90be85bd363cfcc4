import Cyntatic.Theorems.TreeOrder

/-! # The equal elements of a red-black tree

`RbTree_find_first_` gives the first of the equal elements, and `RbTreeNode_next_match_` the other ones. Where there is
none, the result of the first is never stored. -/

namespace Cyntatic
open Library

variable {α : Type}

namespace RbTreeBase
variable {rbt : RbTreeBase α} {compare : α → BitVec 32 → α → Int} {ok : RbTreeBase α → α → BitVec 32 → Prop}
  {nodes : List Ptr} {value : α} {len : BitVec 32}

/-- The nodes with values that are equal to a key. -/
def equals (rbt : RbTreeBase α) (value : α) (len : BitVec 32) (ps : List Ptr) : List Ptr :=
  ps.filter fun p => rbt.compare value len (rbt.data p) = 0

/-- The nodes are in order for a key: those that are less, the equal ones, and those that are greater. -/
def Ordered (rbt : RbTreeBase α) (value : α) (len : BitVec 32) (ps : List Ptr) : Prop :=
  ps.Pairwise fun p q =>
    (rbt.compare value len (rbt.data p) < 0 → rbt.compare value len (rbt.data q) < 0) ∧
      (0 < rbt.compare value len (rbt.data q) → 0 < rbt.compare value len (rbt.data p))

theorem equals_eq_nil {ps : List Ptr} (h : ∀ p ∈ ps, rbt.compare value len (rbt.data p) ≠ 0) :
    rbt.equals value len ps = [] := by
  rw [equals, List.filter_eq_nil_iff]
  intro p hp heq
  exact h p hp (of_decide_eq_true heq)

theorem equals_append (ps qs : List Ptr) :
    rbt.equals value len (ps ++ qs) = rbt.equals value len ps ++ rbt.equals value len qs := List.filter_append ..

/-- Once a node is greater, the ones after it are. -/
theorem Ordered.greater {p : Ptr} {ps : List Ptr} (h : rbt.Ordered value len (p :: ps))
    (hp : rbt.compare value len (rbt.data p) < 0) : rbt.equals value len (p :: ps) = [] := by
  refine equals_eq_nil fun q hq => ?_
  rcases List.mem_cons.mp hq with rfl | hq
  · exact Int.ne_of_lt hp
  · exact Int.ne_of_lt (((List.pairwise_cons.mp h).1 q hq).1 hp)

/-! ### The first one -/

theorem findFirstFrom_yields {t : ColorTree Ptr} {parent : Ptr} {found : Option Ptr} (hnodes : Nodes t.toList)
    (ht : rbt.Shape parent t) (h : rbt.Ordered value len t.toList) :
    Yields (rbt.findFirstFrom value len (addr t) found) ((rbt.equals value len t.toList).head?.or found) := by
  induction t generalizing parent found with
  | nil => exact yields_last rfl fun n => if_pos rfl
  | node c l p r ihl ihr =>
    obtain ⟨-, hl, hr, htl, htr⟩ := ht
    have hp0 : p ≠ 0 := hnodes.addr_ne_zero (t := .node c l p r) (by simp)
    obtain ⟨hol, hor, hcross⟩ := List.pairwise_append.mp h
    rw [ColorTree.toList, equals_append, List.head?_append]
    rcases Int.lt_trichotomy (rbt.compare value len (rbt.data p)) 0 with hneg | hzero | hpos
    · have hnone : rbt.equals value len (p :: r.toList) = [] := Ordered.greater hor hneg
      rw [hnone, List.head?_nil, Option.or_none]
      refine (ihl hnodes.left htl hol).pass rfl fun n => ?_
      rw [addr, findFirstFrom, if_neg hp0, if_pos (Int.le_of_lt hneg), if_neg (Int.ne_of_lt hneg), hl]
    · have hfirst : rbt.equals value len (p :: r.toList) = p :: rbt.equals value len r.toList :=
        List.filter_cons_of_pos (decide_eq_true hzero)
      rw [hfirst, List.head?_cons, Option.or_assoc, Option.some_or]
      refine (ihl hnodes.left htl hol).pass rfl fun n => ?_
      rw [addr, findFirstFrom, if_neg hp0, if_pos (Int.le_of_eq hzero), if_pos hzero, hl]
    · have hnone : rbt.equals value len l.toList = [] := by
        refine equals_eq_nil fun q hq => ?_
        exact Int.ne_of_gt ((hcross q hq p List.mem_cons_self).2 hpos)
      have hself : rbt.equals value len (p :: r.toList) = rbt.equals value len r.toList :=
        List.filter_cons_of_neg fun heq => Int.ne_of_gt hpos (of_decide_eq_true heq)
      rw [hnone, hself, List.head?_nil, Option.none_or]
      refine (ihr hnodes.right.tail htr (List.pairwise_cons.mp hor).2).pass rfl fun n => ?_
      rw [addr, findFirstFrom, if_neg hp0, if_neg (Int.not_le.mpr hpos), hr]

/-! ### The other ones -/

/-- From an equal element on, the ones that follow it are gone through as long as they are equal. -/
theorem matchesFrom_yields {t : ColorTree Ptr} {xs ys : List Ptr} (hnodes : Nodes t.toList) (ht : rbt.Holds t)
    (h : rbt.Ordered value len t.toList) (hlist : t.toList = xs ++ ys)
    (hhead : ∀ p ∈ ys.head?, rbt.compare value len (rbt.data p) = 0) :
    Yields (rbt.matchesFrom value len (headOr ys)) (rbt.equals value len ys) := by
  induction ys generalizing xs with
  | nil => exact yields_last rfl fun n => if_pos rfl
  | cons p ys ih =>
    have hp0 : p ≠ 0 := hnodes.nonzero p (by simp [hlist])
    have hzero := hhead p rfl
    obtain ⟨fs, c, l, r, rfl, hxs, hys⟩ := exists_plug hlist
    obtain ⟨habove, hshape⟩ := holds_plug.mp ht
    have hnext := next_yields (hnodes.perm (perm_plug ..)) habove hshape
    rw [← hys] at hnext
    have hmatch : Yields (rbt.nextMatch p rbt.compare value len)
        (if headOr ys ≠ 0 ∧ rbt.compare value len (rbt.data (headOr ys)) = 0 then headOr ys else 0) := by
      refine (hnext.map fun q => if q ≠ 0 ∧ rbt.compare value len (rbt.data q) = 0 then q else 0).congr fun n => ?_
      rw [nextMatch]
      cases rbt.next p n <;> rfl
    have hself : rbt.equals value len (p :: ys) = p :: rbt.equals value len ys :=
      List.filter_cons_of_pos (decide_eq_true hzero)
    have hend : Yields (rbt.matchesFrom value len 0) [] := yields_last rfl fun n => if_pos rfl
    have hrest : Yields (rbt.matchesFrom value len
        (if headOr ys ≠ 0 ∧ rbt.compare value len (rbt.data (headOr ys)) = 0 then headOr ys else 0))
        (rbt.equals value len ys) := by
      cases ys with
      | nil =>
        rw [if_neg fun hand => hand.1 rfl]
        exact hend
      | cons q ys =>
        have hq0 : q ≠ 0 := hnodes.nonzero q (by simp [hlist])
        have htail : rbt.Ordered value len (p :: q :: ys) := (List.pairwise_append.mp (hlist ▸ h)).2.1
        by_cases hq : rbt.compare value len (rbt.data q) = 0
        · rw [if_pos ⟨hq0, hq⟩]
          refine @ih (xs ++ [p]) (by simpa using hlist) fun q' hq' => ?_
          obtain rfl : q' = q := Option.some.inj hq'.symm
          exact hq
        · have hneg : rbt.compare value len (rbt.data q) < 0 := by
            have hpos := ((List.pairwise_cons.mp htail).1 q List.mem_cons_self).2
            rw [hzero] at hpos
            exact lt_of_le_of_ne (Int.not_lt.mp fun hlt => Int.lt_irrefl 0 (hpos hlt)) hq
          rw [if_neg fun hand => hq hand.2, Ordered.greater (List.pairwise_cons.mp htail).2 hneg]
          exact hend
    rw [hself]
    refine ((hmatch.bind hrest).map (p :: ·)).pass rfl fun n => ?_
    rw [headOr, matchesFrom, if_neg hp0]
    cases rbt.nextMatch p rbt.compare value len n with
    | none => rfl
    | some q => cases hq : rbt.matchesFrom value len q n <;> simp [hq]

/-- Where there are equal elements, they are gone through from the first one on. -/
theorem matches_yields {t : ColorTree Ptr} (ht : rbt.Tree t) (h : rbt.Ordered value len t.toList) :
    Yields (rbt.findFirst value len) (rbt.equals value len t.toList).head? ∧
      Yields (rbt.matchesFrom value len (headOr (rbt.equals value len t.toList))) (rbt.equals value len t.toList) := by
  constructor
  · have hfind := @findFirstFrom_yields _ _ value len t 0 none ht.nodes ht.holds.2 h
    rw [Option.or_none, ← ht.holds.1] at hfind
    exact hfind
  · cases hfound : t.toList.find? (fun p => rbt.compare value len (rbt.data p) = 0) with
    | none =>
      have hnone : rbt.equals value len t.toList = [] := by
        refine equals_eq_nil fun p hp heq => ?_
        exact List.find?_eq_none.mp hfound p hp (decide_eq_true heq)
      rw [hnone]
      exact yields_last rfl fun n => if_pos rfl
    | some p =>
      obtain ⟨hp, xs, ys, hlist, hxs⟩ := List.find?_eq_some_iff_append.mp hfound
      have hequals : rbt.equals value len t.toList = rbt.equals value len (p :: ys) := by
        rw [hlist, equals_append, equals_eq_nil, List.nil_append]
        intro q hq heq
        exact absurd (decide_eq_true heq) (by simpa using hxs q hq)
      have hself : rbt.equals value len (p :: ys) = p :: rbt.equals value len ys := List.filter_cons_of_pos hp
      have hall := matchesFrom_yields ht.nodes ht.holds h hlist fun q hq => ?_
      · rw [hequals, hself]
        rwa [hself] at hall
      · obtain rfl : q = p := Option.some.inj hq.symm
        exact of_decide_eq_true hp

/-! ### Runs -/

section
variable {κ : Type} [Preorder κ] {given : α → BitVec 32 → κ} {stored : α → κ}

/-- The elements equal to a key are enumerated: the first one, or `NULL`, and from it on exactly the others in order. -/
def Enumerates (rbt : RbTreeBase α) (value : α) (len : BitVec 32) (ps : List Ptr) : Prop :=
  Yields (rbt.findFirst value len) (some (headOr (rbt.equals value len ps))) ∧
    Yields (rbt.matchesFrom value len (headOr (rbt.equals value len ps))) (rbt.equals value len ps)

/-- In every state that a run reaches, the elements equal to a key are enumerated if and only if there is one. -/
theorem run_enumerates_iff (hc : Compares compare given stored) (h : Reaches compare ok nodes rbt) :
    ∃ ps, rbt.InOrder ps ∧ ps.Perm nodes ∧ rbt.Sorted stored ps ∧
      ∀ value len, rbt.Enumerates value len ps ↔ ∃ p ∈ ps, rbt.compare value len (rbt.data p) = 0 := by
  obtain ⟨rfl, t, ht, hperm, hsorted⟩ := h.sorted hc
  refine ⟨t.toList, ⟨t, ht, rfl⟩, hperm, hsorted, fun value len => ?_⟩
  obtain ⟨hfirst, hall⟩ := matches_yields ht (hsorted.cmp hc value len)
  cases hlist : rbt.equals value len t.toList with
  | nil =>
    rw [hlist] at hfirst
    refine iff_of_false (fun hand => ?_) ?_
    · have hfalse := hfirst.unique hand.1
      cases hfalse
    · rintro ⟨p, hp, heq⟩
      exact List.filter_eq_nil_iff.mp hlist p hp (decide_eq_true heq)
  | cons p ps =>
    have hp : p ∈ rbt.equals value len t.toList := hlist ▸ List.mem_cons_self
    obtain ⟨hmem, heq⟩ := List.mem_filter.mp hp
    refine iff_of_true ⟨?_, hall⟩ ⟨p, hmem, of_decide_eq_true heq⟩
    rwa [hlist] at hfirst ⊢

/-- A tree of integers after the insertion of 3. -/
theorem exists_tree_three : ∃ rbt : RbTreeBase Int,
    Reaches (fun value _ d => value - d) (fun _ _ _ => True) [16] rbt ∧ rbt.data 16 = 3 ∧
      rbt.compare = fun value _ d => value - d := by
  let rbt : RbTreeBase Int := ⟨0, fun value _ d => value - d, fun _ => 0, fun _ => 0, fun _ => 0, fun _ => 0⟩
  obtain ⟨rbt', hrun, -, hdata, hcompare⟩ := @Reaches.exists_add _ rbt _ (fun _ _ _ => True) [] 3 3 0 16 .nil
    (.init rfl rfl) (empty_tree rfl) (.refl _) trivial ⟨by simp, by simp, by simp⟩ rfl
  refine ⟨rbt', hrun, ?_, hcompare⟩
  rw [hdata, Function.update_self]

theorem compares_sub : Compares (fun (value : Int) _ d => value - d) (fun value _ => value) id :=
  ⟨le_total, fun _ _ _ => sub_neg, fun _ _ _ => sub_pos⟩

/-- The element is found by its own key. -/
theorem run_enumerates_iff_three : ∃ (rbt : RbTreeBase Int) (ps : List Ptr), rbt.InOrder ps ∧ ps.Perm [16] ∧
    rbt.Enumerates 3 0 ps := by
  obtain ⟨rbt, hrun, hdata, hcompare⟩ := exists_tree_three
  obtain ⟨ps, hin, hperm, -, hall⟩ := run_enumerates_iff compares_sub hrun
  refine ⟨rbt, ps, hin, hperm, (hall 3 0).mpr ⟨16, hperm.mem_iff.mpr List.mem_cons_self, ?_⟩⟩
  rw [hcompare, hdata]
  rfl

/-- With a key that no element has, the result is not `NULL` but what `match` happens to hold. -/
theorem not_enumerates : ∃ (rbt : RbTreeBase Int) (ps : List Ptr),
    Reaches (fun value _ d => value - d) (fun _ _ _ => True) [16] rbt ∧ rbt.InOrder ps ∧ rbt.data 16 = 3 ∧
      (∀ p ∈ ps, rbt.compare 4 0 (rbt.data p) ≠ 0) ∧ ¬Yields (rbt.findFirst 4 0) (some 0) := by
  obtain ⟨rbt, hrun, hdata, hcompare⟩ := exists_tree_three
  obtain ⟨hcmp, t, ht, hperm, hsorted⟩ := hrun.sorted compares_sub
  have hnone : ∀ p ∈ t.toList, rbt.compare 4 0 (rbt.data p) ≠ 0 := by
    intro p hp
    obtain rfl := List.mem_singleton.mp (hperm.mem_iff.mp hp)
    rw [hcompare, hdata]
    decide
  refine ⟨rbt, t.toList, hrun, ⟨t, ht, rfl⟩, hdata, hnone, fun hnull => ?_⟩
  obtain ⟨hfirst, -⟩ := matches_yields ht (hsorted.cmp (hcmp ▸ compares_sub) 4 0)
  rw [equals_eq_nil hnone] at hfirst
  have hfalse := hfirst.unique hnull
  cases hfalse

end

end RbTreeBase

end Cyntatic
