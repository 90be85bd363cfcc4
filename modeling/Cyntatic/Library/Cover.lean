import Mathlib.Data.BitVec
import Mathlib.Algebra.Order.Ring.Nat
import Mathlib.Data.List.Count
import Mathlib.Tactic.Common

/-! Intervals of natural numbers and how often a list of them covers a number. A list covers a set
    without gaps or overlaps exactly when it covers each of its numbers once. -/

namespace Library

/-- A half-open interval, by its start and its size. -/
structure Span where
  start : Nat
  size : Nat
  deriving DecidableEq

namespace Span

def stop (s : Span) : Nat := s.start + s.size

/-- How often an interval covers a number. -/
def hit (s : Span) (x : Nat) : Nat := if s.start ≤ x ∧ x < s.stop then 1 else 0

/-- Two intervals have no number in common. -/
def Disjoint (s t : Span) : Prop := ∀ x, s.hit x = 0 ∨ t.hit x = 0

variable {s t : Span} {x : Nat}

theorem hit_cases (s : Span) (x : Nat) :
    s.hit x = 1 ∧ s.start ≤ x ∧ x < s.start + s.size ∨ s.hit x = 0 ∧ (x < s.start ∨ s.start + s.size ≤ x) := by
  unfold hit stop
  split <;> omega

theorem hit_pos : 0 < s.hit x ↔ s.start ≤ x ∧ x < s.stop := by
  have h := s.hit_cases x
  unfold stop
  omega

theorem hit_eq_zero : s.hit x = 0 ↔ x < s.start ∨ s.stop ≤ x := by
  have h := s.hit_cases x
  unfold stop
  omega

/-- An interval cut in two. -/
theorem hit_split (a m n x : Nat) : (⟨a, m⟩ : Span).hit x + (⟨a + m, n⟩ : Span).hit x = (⟨a, m + n⟩ : Span).hit x := by
  have h1 := hit_cases ⟨a, m⟩ x
  have h2 := hit_cases ⟨a + m, n⟩ x
  have h3 := hit_cases ⟨a, m + n⟩ x
  dsimp only at h1 h2 h3
  omega

theorem Disjoint.symm (h : s.Disjoint t) : t.Disjoint s := fun x => (h x).symm

/-- Disjoint intervals that are not empty lie one after the other. -/
theorem Disjoint.le_or_le (h : s.Disjoint t) (hs : 0 < s.size) (ht : 0 < t.size) : s.stop ≤ t.start ∨ t.stop ≤ s.start := by
  have h1 := h s.start
  have h2 := h t.start
  simp only [hit_eq_zero, stop] at h1 h2 ⊢
  omega

/-- A part of an interval is disjoint from what the interval is disjoint from. -/
theorem Disjoint.mono {s' : Span} (h : s.Disjoint t) (h1 : s.start ≤ s'.start) (h2 : s'.stop ≤ s.stop) : s'.Disjoint t := by
  intro x
  have hx := h x
  simp only [hit_eq_zero] at hx ⊢
  omega

end Span

/-- How often a list of intervals covers a number. -/
def cover : List Span → Nat → Nat
  | [], _ => 0
  | s :: l, x => s.hit x + cover l x

section Cover
variable {s : Span} {l m : List Span} {x : Nat}

@[simp] theorem cover_nil : cover [] x = 0 := rfl

@[simp] theorem cover_cons : cover (s :: l) x = s.hit x + cover l x := rfl

@[simp] theorem cover_append : cover (l ++ m) x = cover l x + cover m x := by
  induction l with
  | nil => simp
  | cons s l ih => rw [List.cons_append, cover_cons, ih, cover_cons, Nat.add_assoc]

theorem cover_perm (h : l.Perm m) : cover l x = cover m x := by
  induction h with
  | nil => rfl
  | cons s _ ih => rw [cover_cons, ih, cover_cons]
  | swap s t _ =>
    simp only [cover_cons]
    omega
  | trans _ _ ih₁ ih₂ => exact ih₁.trans ih₂

theorem hit_le_cover (h : s ∈ l) : s.hit x ≤ cover l x := by
  induction l with
  | nil => cases h
  | cons t l ih =>
    rw [cover_cons]
    rcases List.mem_cons.mp h with rfl | h
    · exact Nat.le_add_right ..
    · exact Nat.le_trans (ih h) (Nat.le_add_left ..)

theorem cover_pos : 0 < cover l x ↔ ∃ s ∈ l, 0 < s.hit x := by
  induction l with
  | nil => simp
  | cons t l ih => simp [ih]

/-- What is covered at most once is made of disjoint intervals. -/
theorem pairwise_disjoint (h : ∀ x, cover l x ≤ 1) : l.Pairwise Span.Disjoint := by
  induction l with
  | nil => exact .nil
  | cons s l ih =>
    refine .cons (fun t ht x => ?_) (ih fun x => ?_)
    · have hx := h x
      have ht := hit_le_cover (x := x) ht
      rw [cover_cons] at hx
      omega
    · have hx := h x
      rw [cover_cons] at hx
      omega

/-! ### Intervals with gaps between them -/

theorem lt_of_cover_pos (h : ∀ t ∈ l, s.stop < t.start) (hx : 0 < cover l x) : s.stop < x := by
  obtain ⟨t, ht, hhit⟩ := cover_pos.mp hx
  exact Nat.lt_of_lt_of_le (h t ht) (Span.hit_pos.mp hhit).1

/-- The first of the intervals is where the numbers they cover begin and have their first gap. -/
theorem head_of_cover {t : Span} (hs : 0 < s.size) (ht : 0 < t.size) (hm : ∀ u ∈ m, t.stop < u.start)
    (h : ∀ x, 0 < cover (s :: l) x → 0 < cover (t :: m) x) :
    t.start ≤ s.start ∧ (t.start = s.start → s.stop ≤ t.stop) := by
  have hcover (x : Nat) (h1 : s.start ≤ x) (h2 : x < s.stop) : t.start ≤ x ∧ x < t.stop ∨ t.stop < x := by
    have hx := h x (Nat.lt_of_lt_of_le (Span.hit_pos.mpr ⟨h1, h2⟩) (Nat.le_add_right ..))
    rw [cover_cons] at hx
    rcases Nat.eq_zero_or_pos (t.hit x) with hz | hpos
    · rw [hz, Nat.zero_add] at hx
      exact .inr (lt_of_cover_pos hm hx)
    · exact .inl (Span.hit_pos.mp hpos)
  have hstart := hcover s.start (Nat.le_refl _)
  have hstop := hcover t.stop
  unfold Span.stop at *
  constructor <;> omega

/-- Intervals that are not empty and have gaps between them are determined by what they cover. -/
theorem eq_of_cover (hpos : ∀ s ∈ l, 0 < s.size) (hpos' : ∀ s ∈ m, 0 < s.size)
    (hl : l.Pairwise fun s t => s.stop < t.start) (hm : m.Pairwise fun s t => s.stop < t.start)
    (h : ∀ x, 0 < cover l x ↔ 0 < cover m x) : l = m := by
  have hhead (s : Span) (l : List Span) (hs : 0 < s.size) : 0 < cover (s :: l) s.start := by
    have hhit := (Span.hit_pos (s := s) (x := s.start)).mpr ⟨Nat.le_refl _, by unfold Span.stop; omega⟩
    exact Nat.lt_of_lt_of_le hhit (Nat.le_add_right ..)
  induction l generalizing m with
  | nil =>
    cases m with
    | nil => rfl
    | cons t m => exact absurd ((h t.start).mpr (hhead t m (hpos' t List.mem_cons_self))) (Nat.lt_irrefl 0)
  | cons s l ih =>
    cases m with
    | nil => exact absurd ((h s.start).mp (hhead s l (hpos s List.mem_cons_self))) (Nat.lt_irrefl 0)
    | cons t m =>
      rw [List.pairwise_cons] at hl hm
      rw [List.forall_mem_cons] at hpos hpos'
      obtain ⟨h1, h2⟩ := head_of_cover hpos.1 hpos'.1 hm.1 fun x => (h x).mp
      obtain ⟨h3, h4⟩ := head_of_cover hpos'.1 hpos.1 hl.1 fun x => (h x).mpr
      have hstart : s.start = t.start := Nat.le_antisymm h3 h1
      have hst : s = t := by
        have hstop := Nat.le_antisymm (h2 hstart.symm) (h4 hstart)
        obtain ⟨a, n⟩ := s
        obtain ⟨a', n'⟩ := t
        simp only [Span.stop] at hstart hstop
        rw [Span.mk.injEq]
        omega
      subst hst
      rw [ih hpos.2 hpos'.2 hl.2 hm.2 fun x => ?_]
      have hrest (k k' : List Span) (hk : ∀ u ∈ k, s.stop < u.start) (hx : 0 < cover (s :: k) x → 0 < cover (s :: k') x) :
          0 < cover k x → 0 < cover k' x := by
        intro hkx
        have hlt := lt_of_cover_pos hk hkx
        have hzero : s.hit x = 0 := Span.hit_eq_zero.mpr (.inr (Nat.le_of_lt hlt))
        simpa only [cover_cons, hzero, Nat.zero_add, hkx, true_implies] using hx
      exact ⟨hrest l m hl.1 (h x).mp, hrest m l hm.1 (h x).mpr⟩

end Cover

end Library
