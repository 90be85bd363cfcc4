import Mathlib.Data.List.Lex
import Mathlib.Tactic.Common

/-! # Comparison of sequences

Sequences are compared element by element, by a key. The first difference decides, and where there is none the shorter
sequence is less. Of the result only the sign says something. -/

namespace Library

variable {α : Type} {key key' : α → Int} {x y : α} {xs ys : List α}

def lexCompare (key : α → Int) : List α → List α → Int
  | [], [] => 0
  | [], _ :: _ => -1
  | _ :: _, [] => 1
  | x :: xs, y :: ys => if key x ≠ key y then key x - key y else lexCompare key xs ys

theorem lexCompare_neg : lexCompare key xs ys < 0 ↔ xs.map key < ys.map key := by
  induction xs generalizing ys with
  | nil => cases ys <;> simp [lexCompare]
  | cons x xs ih =>
    cases ys with
    | nil => simp [lexCompare]
    | cons y ys =>
      rw [lexCompare, List.map_cons, List.map_cons, List.cons_lt_cons_iff, ← ih]
      by_cases h : key x = key y
      · simp [h]
      · rw [if_pos h]
        simp only [h, false_and, or_false]
        omega

theorem lexCompare_swap : lexCompare key ys xs = -lexCompare key xs ys := by
  induction xs generalizing ys with
  | nil => cases ys <;> rfl
  | cons x xs ih =>
    cases ys with
    | nil => rfl
    | cons y ys =>
      rw [lexCompare, lexCompare]
      by_cases h : key x = key y
      · rw [if_neg (not_not.mpr h), if_neg (not_not.mpr h.symm), ih]
      · rw [if_pos h, if_pos (Ne.symm h), Int.neg_sub]

theorem lexCompare_pos : 0 < lexCompare key xs ys ↔ ys.map key < xs.map key := by
  rw [← lexCompare_neg, @lexCompare_swap _ key ys xs]
  omega

/-! ### Two keys -/

theorem sign_eq_iff {a b : Int} (ha : a ≠ 0) (hb : b ≠ 0) : a.sign = b.sign ↔ (0 < a ↔ 0 < b) := by
  rw [← Int.sign_pos_iff, ← @Int.sign_pos_iff b]
  constructor
  · intro h
    rw [h]
  · intro h
    rcases Int.lt_or_gt_of_ne ha with hneg | hpos
    · rw [Int.sign_eq_neg_one_of_neg hneg] at h ⊢
      rcases Int.lt_or_gt_of_ne hb with hneg' | hpos'
      · rw [Int.sign_eq_neg_one_of_neg hneg']
      · rw [Int.sign_eq_one_of_pos hpos'] at h
        omega
    · rw [Int.sign_eq_one_of_pos hpos] at h ⊢
      rcases Int.lt_or_gt_of_ne hb with hneg' | hpos'
      · rw [Int.sign_eq_neg_one_of_neg hneg'] at h
        omega
      · rw [Int.sign_eq_one_of_pos hpos']

/-- The elements at which two sequences first differ. -/
def firstDifference (key : α → Int) : List α → List α → Option (α × α)
  | x :: xs, y :: ys => if key x ≠ key y then some (x, y) else firstDifference key xs ys
  | _, _ => none

theorem firstDifference_spec (h : firstDifference key xs ys = some (x, y)) : x ∈ xs ∧ y ∈ ys ∧ key x ≠ key y := by
  induction xs generalizing ys with
  | nil => cases h
  | cons z xs ih =>
    cases ys with
    | nil => cases h
    | cons w ys =>
      rw [firstDifference] at h
      by_cases hne : key z ≠ key w
      · rw [if_pos hne] at h
        obtain ⟨rfl, rfl⟩ := Prod.mk.inj (Option.some.inj h)
        exact ⟨List.mem_cons_self, List.mem_cons_self, hne⟩
      · rw [if_neg hne] at h
        obtain ⟨hx, hy, hkey⟩ := ih h
        exact ⟨List.mem_cons_of_mem _ hx, List.mem_cons_of_mem _ hy, hkey⟩

/-- Another key, which identifies at least as much, gives the same sign exactly when it does so at the first difference. -/
theorem sign_lexCompare_iff (hkey : ∀ x ∈ xs, ∀ y ∈ ys, key x = key y → key' x = key' y)
    (hne : ∀ x y, firstDifference key xs ys = some (x, y) → key' x ≠ key' y) :
    (lexCompare key' xs ys).sign = (lexCompare key xs ys).sign ↔
      ∀ x y, firstDifference key xs ys = some (x, y) → (key' x - key' y).sign = (key x - key y).sign := by
  induction xs generalizing ys with
  | nil => cases ys <;> simp [lexCompare, firstDifference]
  | cons z xs ih =>
    cases ys with
    | nil => simp [lexCompare, firstDifference]
    | cons w ys =>
      rw [firstDifference] at hne ⊢
      rw [lexCompare, lexCompare]
      by_cases h : key z = key w
      · rw [if_neg (not_not.mpr h)] at hne ⊢
        rw [if_neg (not_not.mpr h), if_neg (not_not.mpr (hkey z List.mem_cons_self w List.mem_cons_self h))]
        exact ih (fun x hx y hy => hkey x (List.mem_cons_of_mem _ hx) y (List.mem_cons_of_mem _ hy)) hne
      · rw [if_pos h] at hne ⊢
        rw [if_pos h, if_pos (hne z w rfl)]
        constructor
        · intro hsign x y heq
          obtain ⟨rfl, rfl⟩ := Prod.mk.inj (Option.some.inj heq)
          exact hsign
        · exact fun hall => hall z w rfl

theorem sign_lexCompare_congr (hkey : ∀ x ∈ xs, ∀ y ∈ ys, key x = key y → key' x = key' y)
    (h : ∀ x y, firstDifference key xs ys = some (x, y) → (key' x - key' y).sign = (key x - key y).sign) :
    (lexCompare key' xs ys).sign = (lexCompare key xs ys).sign := by
  refine (sign_lexCompare_iff hkey fun x y hxy heq => ?_).mpr h
  have hsign := h x y hxy
  rw [heq, Int.sub_self, Int.sign_zero, eq_comm, Int.sign_eq_zero_iff_zero, Int.sub_eq_zero] at hsign
  exact (firstDifference_spec hxy).2.2 hsign

end Library
