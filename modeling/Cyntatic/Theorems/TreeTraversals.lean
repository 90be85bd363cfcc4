import Mathlib.Data.List.ReduceOption
import Cyntatic.Theorems.TreeRuns

/-! # Other traversals of the red-black tree

The way back by `RbTreeNode_prev`, the dump by levels, and the release of the nodes. -/

namespace Cyntatic
open Library

variable {α : Type}

namespace RbTreeBase
variable {rbt : RbTreeBase α}

/-! ### The way back -/

/-- The memory with left and right exchanged. -/
def mirror (rbt : RbTreeBase α) : RbTreeBase α := { rbt with left := rbt.right, right := rbt.left }

theorem rightmost_eq (p : Ptr) (n : Nat) : rbt.rightmost p n = rbt.mirror.leftmost p n := by
  induction n generalizing p with
  | zero => rfl
  | succ n ih =>
    rw [rightmost, leftmost, ih]
    rfl

theorem climbBack_eq (p : Ptr) (n : Nat) : rbt.climbBack p n = rbt.mirror.climb p n := by
  induction n generalizing p with
  | zero => rfl
  | succ n ih =>
    rw [climbBack, climb, ih]
    rfl

theorem prev_eq (p : Ptr) (n : Nat) : rbt.prev p n = rbt.mirror.next p n := by
  rw [prev, next, rightmost_eq, climbBack_eq]
  rfl

theorem addr_mirror (t : ColorTree Ptr) : addr t.mirror = addr t := by cases t <;> rfl

theorem Shape.mirror {t : ColorTree Ptr} {parent : Ptr} (h : rbt.Shape parent t) :
    rbt.mirror.Shape parent t.mirror := by
  induction t generalizing parent with
  | nil => trivial
  | node c l p r ihl ihr =>
    obtain ⟨hp, hl, hr, htl, htr⟩ := h
    exact ⟨hp, hr.trans (addr_mirror r).symm, hl.trans (addr_mirror l).symm, ihr htr, ihl htl⟩

/-- The next node of a node is the one after it in the order. -/
theorem Tree.next {t : ColorTree Ptr} {xs ys : List Ptr} {p : Ptr} (h : rbt.Tree t) (hlist : t.toList = xs ++ p :: ys) :
    Yields (rbt.next p) (headOr ys) := by
  obtain ⟨fs, c, l, r, rfl, -, rfl⟩ := exists_plug hlist
  obtain ⟨habove, hshape⟩ := holds_plug.mp h.holds
  exact next_yields (h.nodes.perm (perm_plug ..)) habove hshape

theorem Tree.mirror {t : ColorTree Ptr} (h : rbt.Tree t) : rbt.mirror.Tree t.mirror := by
  refine ⟨⟨h.holds.1.trans (addr_mirror t).symm, h.holds.2.mirror⟩, ?_, ?_⟩
  · rw [ColorTree.toList_mirror]
    exact h.nodes.perm (List.reverse_perm _).symm
  · rw [← h.black]
    cases t <;> rfl

/-- The previous node of a node is the one before it. -/
theorem Tree.prev {t : ColorTree Ptr} {xs ys : List Ptr} {p : Ptr} (h : rbt.Tree t) (hlist : t.toList = xs ++ p :: ys) :
    Yields (rbt.prev p) (headOr xs.reverse) := by
  have hmirror : t.mirror.toList = ys.reverse ++ p :: xs.reverse := by simp [ColorTree.toList_mirror, hlist]
  exact (h.mirror.next hmirror).congr fun n => prev_eq p n

theorem headOr_eq {ps : List Ptr} {p : Ptr} (h : headOr ps = p) (hp : p ≠ 0) : ∃ qs, ps = p :: qs := by
  cases ps with
  | nil => exact absurd h.symm hp
  | cons q qs => exact ⟨qs, by rw [← h, headOr]⟩

theorem headOr_eq_zero {ps : List Ptr} (hps : ∀ p ∈ ps, p ≠ 0) : headOr ps = 0 ↔ ps = [] := by
  cases ps with
  | nil => exact iff_of_true rfl rfl
  | cons p ps => exact iff_of_false (hps p List.mem_cons_self) (by simp)

theorem Tree.next_iff_prev {t : ColorTree Ptr} {p q : Ptr} (h : rbt.Tree t) (hp : p ∈ t.toList) (hq : q ∈ t.toList) :
    Yields (rbt.next p) q ↔ Yields (rbt.prev q) p := by
  constructor
  · intro hnext
    obtain ⟨xs, ys, hlist⟩ := List.append_of_mem hp
    obtain ⟨zs, rfl⟩ := headOr_eq ((h.next hlist).unique hnext) (h.nodes.nonzero q hq)
    have hback := @Tree.prev _ _ _ (xs ++ [p]) zs q h (by simpa using hlist)
    rwa [List.reverse_append] at hback
  · intro hprev
    obtain ⟨xs, ys, hlist⟩ := List.append_of_mem hq
    obtain ⟨zs, hzs⟩ := headOr_eq ((h.prev hlist).unique hprev) (h.nodes.nonzero p hp)
    obtain rfl : xs = zs.reverse ++ [p] := by rw [← List.reverse_cons, ← hzs, List.reverse_reverse]
    exact @Tree.next _ _ _ zs.reverse (q :: ys) p h (by simpa using hlist)

theorem Tree.first {t : ColorTree Ptr} (h : rbt.Tree t) : Yields rbt.first (headOr t.toList) := by
  obtain ⟨hroot, hshape⟩ := h.holds
  by_cases hnil : t = .nil
  · subst hnil
    exact yields_of_eq fun n => if_pos hroot
  · refine (leftmost_yields h.nodes hshape hnil).congr fun n => ?_
    rw [RbTreeBase.first, hroot, if_neg (h.nodes.addr_ne_zero hnil)]

section
variable {compare : α → BitVec 32 → α → Int} {ok : RbTreeBase α → α → BitVec 32 → Prop} {nodes : List Ptr}

theorem Reaches.exists_tree (h : Reaches compare ok nodes rbt) : ∃ t, rbt.Tree t ∧ t.toList.Perm nodes := by
  obtain ⟨-, t, ht, hperm, -⟩ := @Reaches.tree _ _ _ _ _ (fun _ _ => True) h (fun _ => trivial)
    (fun _ _ _ _ _ _ => trivial) fun _ _ _ _ _ => trivial
  exact ⟨t, ht, hperm⟩

/-- A tree of integers after the insertion of 3 and 5. -/
theorem exists_tree_three_five : ∃ rbt : RbTreeBase Int,
    Reaches (fun value _ d => value - d) (fun _ _ _ => True) [32, 16] rbt := by
  let rbt : RbTreeBase Int := ⟨0, fun value _ d => value - d, fun _ => 0, fun _ => 0, fun _ => 0, fun _ => 0⟩
  have hinit : Reaches (fun (value : Int) _ d => value - d) (fun _ _ _ => True) [] rbt := .init rfl rfl
  obtain ⟨rbt', hrun, ht, -, -⟩ := @Reaches.exists_add _ rbt _ (fun _ _ _ => True) [] 3 3 0 16 .nil hinit
    (empty_tree rfl) (.refl _) trivial ⟨by simp, by simp, by simp⟩ rfl
  obtain ⟨rbt'', hrun', -⟩ := @Reaches.exists_add _ rbt' _ (fun _ _ _ => True) [16] 5 5 0 32 _ hrun ht
    (perm_insert ..) trivial ⟨by simp, by simp, by simp⟩ rfl
  exact ⟨rbt'', hrun'⟩

/-- In every state that a run reaches, the iterations forwards and backwards undo each other, the one backwards ends at
    the first node and the one forwards at the last. -/
theorem run_walks_back (h : Reaches compare ok nodes rbt) :
    ∃ ps, ps.Perm nodes ∧ Yields rbt.visit ps ∧
      (∀ p ∈ nodes, ∀ q ∈ nodes, Yields (rbt.next p) q ↔ Yields (rbt.prev q) p) ∧
      (∀ p ∈ nodes, Yields (rbt.prev p) 0 ↔ Yields rbt.first p) ∧
      ∀ p ∈ nodes, Yields (rbt.next p) 0 ↔ ps.getLast? = some p := by
  obtain ⟨t, ht, hperm⟩ := h.exists_tree
  refine ⟨t.toList, hperm, visit_yields ht.nodes ht.holds, ?_, ?_, ?_⟩
  · intro p hp q hq
    exact ht.next_iff_prev (hperm.mem_iff.mpr hp) (hperm.mem_iff.mpr hq)
  · intro p hp
    obtain ⟨xs, ys, hlist⟩ := List.append_of_mem (hperm.mem_iff.mpr hp)
    have hnodes : Nodes (xs ++ p :: ys) := hlist ▸ ht.nodes
    have hprev : Yields (rbt.prev p) 0 ↔ xs = [] := by
      rw [← List.reverse_eq_nil_iff, ← headOr_eq_zero fun q hq => hnodes.left.nonzero q (List.mem_reverse.mp hq)]
      exact ⟨fun hnull => (ht.prev hlist).unique hnull, fun heq => heq ▸ ht.prev hlist⟩
    have hfirst : Yields rbt.first p ↔ headOr (xs ++ p :: ys) = p := by
      rw [← hlist]
      exact ⟨fun hp => ht.first.unique hp, fun heq => heq ▸ ht.first⟩
    rw [hprev, hfirst]
    cases xs with
    | nil => exact iff_of_true rfl rfl
    | cons x xs =>
      refine iff_of_false (by simp) fun heq => ?_
      obtain rfl : x = p := heq
      exact (List.nodup_cons.mp hnodes.nodup).1 (by simp)
  · intro p hp
    obtain ⟨xs, ys, hlist⟩ := List.append_of_mem (hperm.mem_iff.mpr hp)
    have hnodes : Nodes (xs ++ p :: ys) := hlist ▸ ht.nodes
    have hnext : Yields (rbt.next p) 0 ↔ ys = [] := by
      rw [← headOr_eq_zero hnodes.right.tail.nonzero]
      exact ⟨fun hnull => (ht.next hlist).unique hnull, fun heq => heq ▸ ht.next hlist⟩
    rw [hnext, hlist, List.getLast?_append_of_ne_nil _ (by simp)]
    cases hys : ys.reverse with
    | nil =>
      obtain rfl := List.reverse_eq_nil_iff.mp hys
      exact iff_of_true rfl rfl
    | cons y zs =>
      obtain rfl : ys = zs.reverse ++ [y] := by rw [← List.reverse_cons, ← hys, List.reverse_reverse]
      refine iff_of_false (by simp) fun heq => ?_
      rw [← List.cons_append, List.getLast?_concat] at heq
      obtain rfl := Option.some.inj heq
      exact (List.nodup_cons.mp hnodes.right.nodup).1 (by simp)

/-- The two nodes are the next and the previous one of each other, in one order. -/
theorem run_walks_back_two : ∃ (rbt : RbTreeBase Int) (ps : List Ptr), ps.Perm [32, 16] ∧ Yields rbt.visit ps ∧
    (Yields (rbt.next 16) 32 ↔ Yields (rbt.prev 32) 16) := by
  obtain ⟨rbt, hrun⟩ := exists_tree_three_five
  obtain ⟨ps, hperm, hvisit, hinverse, -⟩ := run_walks_back hrun
  exact ⟨rbt, ps, hperm, hvisit, hinverse 16 (by simp) 32 (by simp)⟩

/-! ### Dumps -/

/-- The character for a colour. -/
def charOf : Color → Char
  | .red => 'R'
  | .black => 'B'

/-- What `DumpValue` is called with for a node. -/
def shown (rbt : RbTreeBase α) (x : Ptr × Color) : α × Char := (rbt.data x.1, charOf x.2)

theorem colorChar_eq {c : Color} {p parent : Ptr} (hp : rbt.parent p = parent ||| rbtColor c) (heven : parent &&& 1 = 0) :
    rbt.colorChar p = charOf c := by
  have hcolor : rbt.is p .red ↔ c = .red := by rw [is, hp, color_of_or c heven, rbtColor_inj]
  cases c
  · exact if_pos (hcolor.mpr rfl)
  · exact if_neg fun h => Color.noConfusion (hcolor.mp h)

theorem dumpLevel_yields {t : ColorTree Ptr} {parent : Ptr} (hnodes : Nodes t.toList) (ht : rbt.Shape parent t)
    (heven : parent &&& 1 = 0) (k : Nat) :
    Yields (rbt.dumpLevel (addr t) (k + 1)) ((t.level k).map rbt.shown, !(t.level k).isEmpty) := by
  induction t generalizing parent k with
  | nil => exact yields_last rfl fun n => if_pos rfl
  | node c l p r ihl ihr =>
    obtain ⟨hp, hl, hr, htl, htr⟩ := ht
    have hp0 : p ≠ 0 := hnodes.addr_ne_zero (t := .node c l p r) (by simp)
    have hpe : p &&& 1 = 0 := hnodes.even p (by simp [ColorTree.toList])
    cases k with
    | zero =>
      refine yields_last rfl fun n => ?_
      rw [addr, dumpLevel, if_neg hp0, if_pos (by simp), colorChar_eq hp heven]
      rfl
    | succ k =>
      have hleft := ihl hnodes.left htl hpe k
      have hright := ihr hnodes.right.tail htr hpe k
      have hboth := hleft.bind (h := fun a n => (rbt.dumpLevel (addr r) (k + 1) n).map fun b => (a.1 ++ b.1, a.2 || b.2))
        (hright.map _)
      have hany : (!((ColorTree.node c l p r).level (k + 1)).isEmpty) = (!(l.level k).isEmpty || !(r.level k).isEmpty) := by
        rw [ColorTree.level]
        cases l.level k <;> rfl
      rw [hany, ColorTree.level, List.map_append]
      refine hboth.pass rfl fun n => ?_
      have hk : ((k + 1 : Nat) : Int) + 1 - 1 = k + 1 := by omega
      rw [addr, dumpLevel, if_neg hp0, if_neg (by omega), hl, hr, hk]
      cases rbt.dumpLevel (addr l) (k + 1) n with
      | none => rfl
      | some a => cases rbt.dumpLevel (addr r) (k + 1) n <;> simp

/-- A dump shows each node with the colour that it has in memory. -/
theorem shown_of_mem {t : ColorTree Ptr} {parent : Ptr} {x : Ptr × Color} {k : Nat} (hnodes : Nodes t.toList)
    (ht : rbt.Shape parent t) (heven : parent &&& 1 = 0) (hx : x ∈ t.level k) :
    rbt.shown x = (rbt.data x.1, rbt.colorChar x.1) := by
  induction t generalizing parent k with
  | nil => exact absurd hx List.not_mem_nil
  | node c l p r ihl ihr =>
    obtain ⟨hp, -, -, htl, htr⟩ := ht
    have hpe : p &&& 1 = 0 := hnodes.even p (by simp [ColorTree.toList])
    cases k with
    | zero =>
      obtain rfl := List.mem_singleton.mp hx
      rw [colorChar_eq hp heven]
      rfl
    | succ k =>
      rcases List.mem_append.mp hx with hx | hx
      · exact ihl hnodes.left htl hpe hx
      · exact ihr hnodes.right.tail htr hpe hx

/-- What a dump shows: the levels, with a mark after each. -/
def shownLevels (rbt : RbTreeBase α) (t : ColorTree Ptr) (ks : List Nat) : List (Option (α × Char)) :=
  ks.flatMap fun k => ((t.level k).map rbt.shown).map some ++ [none]

theorem reduceOption_shownLevels (t : ColorTree Ptr) (ks : List Nat) :
    (rbt.shownLevels t ks).reduceOption = (ks.flatMap t.level).map rbt.shown := by
  induction ks with
  | nil => rfl
  | cons k ks ih =>
    have hline : (((t.level k).map rbt.shown).map some ++ [none]).reduceOption = (t.level k).map rbt.shown := by
      simp [List.reduceOption]
    rw [shownLevels, List.flatMap_cons, List.reduceOption_append, hline, List.flatMap_cons, List.map_append, ← ih,
      shownLevels]

theorem Tree.dumpFrom {t : ColorTree Ptr} (h : rbt.Tree t) {k m : Nat} (hkm : k + m = t.depth) :
    Yields (rbt.dumpFrom (k + 1)) (rbt.shownLevels t (List.range' k m)) := by
  obtain ⟨hroot, hshape⟩ := h.holds
  have hlevel := dumpLevel_yields h.nodes hshape (by rfl) k
  induction m generalizing k with
  | zero =>
    have hnil : t.level k = [] := ColorTree.level_eq_nil.mpr (by omega)
    rw [hnil] at hlevel
    refine (hlevel.map fun a => a.1.map some).pass rfl fun n => ?_
    rw [RbTreeBase.dumpFrom, hroot]
    cases hn : rbt.dumpLevel (addr t) (k + 1) n with
    | none => rfl
    | some a =>
      obtain rfl := hlevel.eq_of_some hn
      rfl
  | succ m ih =>
    have hne : t.level k ≠ [] := fun hnil => by
      have hdepth := ColorTree.level_eq_nil.mp hnil
      omega
    have hrest := @ih (k + 1) (by omega) (dumpLevel_yields h.nodes hshape (by rfl) (k + 1))
    have hboth := hlevel.bind (h := fun a n => (rbt.dumpFrom (k + 1 + 1) n).map fun b => a.1.map some ++ none :: b)
      (hrest.map _)
    have hlist : rbt.shownLevels t (List.range' k (m + 1)) =
        ((t.level k).map rbt.shown).map some ++ none :: rbt.shownLevels t (List.range' (k + 1) m) := by
      simp [shownLevels, List.range'_succ]
    rw [hlist]
    refine hboth.pass rfl fun n => ?_
    rw [RbTreeBase.dumpFrom, hroot]
    cases hn : rbt.dumpLevel (addr t) (k + 1) n with
    | none => rfl
    | some a =>
      obtain rfl := hlevel.eq_of_some hn
      have hmore : (!(t.level k).isEmpty) = true := by simp [hne]
      simp only [Option.bind_eq_bind, Option.bind_some, hmore, if_true]
      cases rbt.dumpFrom (k + 1 + 1) n <;> rfl

end

end RbTreeBase

/-! ### Release -/

namespace LiveNodes
open RbTreeBase

/-- The state after some nodes were released, in this order. -/
structure Released (elementDctor : Option (α → α)) (s s' : LiveNodes α) (ps : List Ptr) : Prop where
  left : s'.rbt.left = s.rbt.left
  right : s'.rbt.right = s.rbt.right
  kept : ∀ p, p ∉ ps → s'.rbt.parent p = s.rbt.parent p ∧ s'.rbt.data p = s.rbt.data p
  live : s'.live = s.live.diff ps
  destroyed : s'.destroyed = s.destroyed ++ if elementDctor.isSome then ps.map s.rbt.data else []

variable {elementDctor : Option (α → α)} {s s' s'' : LiveNodes α}

theorem Released.trans {ps qs : List Ptr} (h : Released elementDctor s s' ps) (h' : Released elementDctor s' s'' qs)
    (hnodup : (ps ++ qs).Nodup) : Released elementDctor s s'' (ps ++ qs) := by
  refine ⟨h'.left.trans h.left, h'.right.trans h.right, fun p hp => ?_, ?_, ?_⟩
  · obtain ⟨hps, hqs⟩ := not_or.mp (mt List.mem_append.mpr hp)
    exact ⟨(h'.kept p hqs).1.trans (h.kept p hps).1, (h'.kept p hqs).2.trans (h.kept p hps).2⟩
  · rw [h'.live, h.live, List.diff_append]
  · have hsame : qs.map s'.rbt.data = qs.map s.rbt.data := by
      refine List.map_congr_left fun q hq => (h.kept q fun hp => ?_).2
      exact (List.nodup_append.mp hnodup).2.2 q hp q hq rfl
    rw [h'.destroyed, h.destroyed, hsame]
    cases elementDctor <;> simp

theorem release_eq {p : Ptr} (hp : p ∈ s.live) :
    ∃ s', s.release elementDctor p = some s' ∧ Released elementDctor s s' [p] := by
  cases elementDctor with
  | none =>
    have hrun : s.release none p = some { s with
        rbt := { s.rbt with parent := Function.update s.rbt.parent p p }, live := s.live.erase p } := by
      simp [release, nodeClear, dealloc, hp]
    refine ⟨_, hrun, rfl, rfl, fun q hq => ⟨Function.update_of_ne (by simpa using hq) .., rfl⟩, ?_, ?_⟩
    · rw [List.diff_cons, List.diff_nil]
    · simp
  | some dctor =>
    have hrun : s.release (some dctor) p = some { s with
        rbt := { s.rbt.setData p (dctor (s.rbt.data p)) with parent := Function.update s.rbt.parent p p }
        live := s.live.erase p
        destroyed := s.destroyed ++ [s.rbt.data p] } := by
      simp [release, destroy, read, nodeClear, dealloc, hp, setData]
    refine ⟨_, hrun, rfl, rfl, fun q hq => ?_, ?_, rfl⟩
    · have hne : q ≠ p := by simpa using hq
      exact ⟨Function.update_of_ne hne .., Function.update_of_ne hne ..⟩
    · rw [List.diff_cons, List.diff_nil]

theorem Released.shape {ps : List Ptr} {t : ColorTree Ptr} {parent : Ptr} (h : Released elementDctor s s' ps)
    (ht : s.rbt.Shape parent t) (hps : ∀ p ∈ t.toList, p ∉ ps) : s'.rbt.Shape parent t :=
  ht.congr fun p hp => ⟨(h.kept p (hps p hp)).1, congrFun h.left p, congrFun h.right p⟩

/-- The release of a part of a tree releases its nodes, those below a node before it. -/
theorem deinitNode_yields {t : ColorTree Ptr} {parent : Ptr} (ht : s.rbt.Shape parent t) (hnodes : Nodes t.toList)
    (hlive : ∀ p ∈ t.toList, p ∈ s.live) (hnodup : s.live.Nodup) :
    ∃ s', Yields (deinitNode elementDctor s (addr t)) s' ∧ Released elementDctor s s' t.postorder := by
  induction t generalizing parent s with
  | nil => exact ⟨s, yields_last rfl fun n => if_pos rfl, rfl, rfl, fun _ _ => ⟨rfl, rfl⟩, rfl, by simp [ColorTree.postorder]⟩
  | node c l p r ihl ihr =>
    obtain ⟨-, hl, hr, htl, htr⟩ := ht
    have hp0 : p ≠ 0 := hnodes.addr_ne_zero (t := .node c l p r) (by simp)
    have hparts : (l.postorder ++ r.postorder ++ [p]).Nodup :=
      (ColorTree.perm_postorder (.node c l p r)).nodup_iff.mpr hnodes.nodup
    have hleft : ∀ q ∈ l.toList, q ∈ s.live := fun q hq => hlive q (List.mem_append_left _ hq)
    obtain ⟨s₁, hrun₁, h₁⟩ := ihl htl hnodes.left hleft hnodup
    -- What is left of the tree is still allocated after the left part, and after both parts.
    have hlive₁ : s₁.live.Nodup := h₁.live ▸ hnodup.diff
    have hmem₁ {q : Ptr} (hq : q ∈ s.live) (hnot : q ∉ l.postorder) : q ∈ s₁.live := by
      rw [h₁.live]
      exact List.mem_diff_of_mem hq hnot
    have hr_notMem : ∀ q ∈ r.toList, q ∉ l.postorder := by
      intro q hq hpost
      refine (List.nodup_append.mp (List.nodup_append.mp hparts).1).2.2 q hpost q ?_ rfl
      exact (ColorTree.perm_postorder r).mem_iff.mpr hq
    have hright : ∀ q ∈ r.toList, q ∈ s₁.live := fun q hq =>
      hmem₁ (hlive q (List.mem_append_right _ (List.mem_cons_of_mem _ hq))) (hr_notMem q hq)
    obtain ⟨s₂, hrun₂, h₂⟩ := ihr (h₁.shape htr hr_notMem) hnodes.right.tail hright hlive₁
    have h₁₂ := h₁.trans h₂ (List.nodup_append.mp hparts).1
    have hp_notMem : p ∉ l.postorder ++ r.postorder := fun hp =>
      (List.nodup_append.mp hparts).2.2 p hp p List.mem_cons_self rfl
    have hp : p ∈ s.live := hlive p (by simp [ColorTree.toList])
    have hp₁ : p ∈ s₁.live := hmem₁ hp fun h => hp_notMem (List.mem_append_left _ h)
    have hp₂ : p ∈ s₂.live := by
      rw [h₁₂.live]
      exact List.mem_diff_of_mem hp hp_notMem
    obtain ⟨s₃, hrun₃, h₃⟩ := @release_eq _ elementDctor s₂ p hp₂
    refine ⟨s₃, ?_, h₁₂.trans h₃ hparts⟩
    have hlast := hrun₂.bind (h := fun a _ => a.release elementDctor p) (yields_of_eq fun _ => hrun₃)
    refine (hrun₁.bind (h := fun a n => (deinitNode elementDctor a (addr r) n).bind fun b => b.release elementDctor p)
      hlast).pass rfl fun n => ?_
    rw [addr, deinitNode, if_neg hp0, read, if_pos hp, hl]
    cases hn : deinitNode elementDctor s (addr l) n with
    | none => simp only [Option.bind_eq_bind, Option.bind_some, Option.bind_none, hn]
    | some a =>
      obtain rfl := hrun₁.eq_of_some hn
      have hread : a.read p RbTreeBase.right = some (addr r) := by rw [read, if_pos hp₁, congrFun h₁.right p, hr]
      simp only [Option.bind_eq_bind, Option.bind_some, hn, hread]

/-- Below the node `parent`, a node comes before its parent in the order of the release. -/
theorem sublist_postorder {rbt : RbTreeBase α} {t : ColorTree Ptr} {parent p : Ptr} (hnodes : Nodes t.toList)
    (ht : rbt.Shape parent t) (heven : parent &&& 1 = 0) (hp : p ∈ t.toList) :
    rbt.parentOf p = parent ∨ [p, rbt.parentOf p].Sublist t.postorder := by
  induction t generalizing parent with
  | nil => exact absurd hp List.not_mem_nil
  | node c l a r ihl ihr =>
    obtain ⟨ha, -, -, htl, htr⟩ := ht
    have hae : a &&& 1 = 0 := hnodes.even a (by simp [ColorTree.toList])
    -- A node of one part has its parent in the part, or it is the root of the part.
    have hbelow {u : ColorTree Ptr} (hu : u.postorder.Sublist (l.postorder ++ r.postorder)) (hmem : p ∈ u.toList)
        (h : rbt.parentOf p = a ∨ [p, rbt.parentOf p].Sublist u.postorder) :
        [p, rbt.parentOf p].Sublist (l.postorder ++ r.postorder ++ [a]) := by
      rcases h with heq | hsub
      · have hsingle : [p].Sublist u.postorder :=
          List.singleton_sublist.mpr ((ColorTree.perm_postorder u).mem_iff.mpr hmem)
        rw [heq]
        exact (hsingle.trans hu).append (.refl [a])
      · exact (hsub.trans hu).trans (List.sublist_append_left ..)
    rcases List.mem_append.mp hp with hmem | hmem
    · exact .inr (hbelow (List.sublist_append_left ..) hmem (ihl hnodes.left htl hae hmem))
    · rcases List.mem_cons.mp hmem with rfl | hmem
      · rw [parentOf, ha]
        exact .inl (parent_of_or c heven)
      · exact .inr (hbelow (List.sublist_append_right ..) hmem (ihr hnodes.right.tail htr hae hmem))

/-- In every state that a run reaches, the release of the tree gives back each of its nodes once and nothing else, uses
    no node after that, and calls the destructor once with each element, with those below a node before its own. -/
theorem run_releases {compare : α → BitVec 32 → α → Int} {ok : RbTreeBase α → α → BitVec 32 → Prop} {nodes live : List Ptr}
    {rbt : RbTreeBase α} (h : Reaches compare ok nodes rbt) (hlive : live.Nodup) (hnodes : ∀ p ∈ nodes, p ∈ live)
    (dct : Option (α → α)) :
    ∃ s' ps, Yields (LiveNodes.deinit ⟨rbt, live, []⟩ dct) s' ∧ s'.rbt.root = 0 ∧ ps.Perm nodes ∧ s'.live = live.diff nodes ∧
      (∀ p ∈ nodes, rbt.parentOf p ≠ 0 → [p, rbt.parentOf p].Sublist ps) ∧
      s'.destroyed = if dct.isSome then ps.map rbt.data else [] := by
  obtain ⟨t, ht, hperm⟩ := h.exists_tree
  obtain ⟨hroot, hshape⟩ := ht.holds
  obtain ⟨s', hrun, hreleased⟩ := @deinitNode_yields _ dct ⟨rbt, live, []⟩ t 0 hshape ht.nodes
    (fun p hp => hnodes p (hperm.mem_iff.mp hp)) hlive
  refine ⟨{ s' with rbt := { s'.rbt with root := 0 } }, t.postorder, ?_, rfl, ?_, ?_, ?_, ?_⟩
  · refine (hrun.map fun a => { a with rbt := { a.rbt with root := 0 } }).congr fun n => ?_
    rw [deinit, hroot]
    cases deinitNode dct ⟨rbt, live, []⟩ (addr t) n <;> rfl
  · exact (ColorTree.perm_postorder t).trans hperm
  · rw [hreleased.live]
    exact List.Perm.diff_left live ((ColorTree.perm_postorder t).trans hperm)
  · intro p hp hparent
    exact (sublist_postorder ht.nodes hshape (by rfl) (hperm.mem_iff.mpr hp)).resolve_left hparent
  · rw [hreleased.destroyed]
    exact List.nil_append _

/-- The release of two nodes leaves the other allocated node. -/
theorem run_releases_two : ∃ (rbt : RbTreeBase Int) (s' : LiveNodes Int),
    Yields (LiveNodes.deinit ⟨rbt, [16, 32, 48], []⟩ (some id)) s' ∧ s'.live = [48] := by
  obtain ⟨rbt, hrun⟩ := exists_tree_three_five
  obtain ⟨s', -, hdeinit, -, -, hlive, -⟩ := @run_releases _ _ _ _ [16, 32, 48] _ hrun (by simp) (by simp) (some id)
  exact ⟨rbt, s', hdeinit, hlive⟩

end LiveNodes

end Cyntatic
