import Mathlib.Data.BitVec
import Mathlib.Algebra.Order.Ring.Nat
import Mathlib.Algebra.BigOperators.Group.List.Basic

/-! # Layout

Items of some sizes, laid out one after another. -/

namespace Library

/-- The offset of an item: the sizes of the items before it. -/
def offset (sizes : List Nat) (i : Nat) : Nat := (sizes.take i).sum

@[simp] theorem offset_zero (sizes : List Nat) : offset sizes 0 = 0 := rfl

theorem offset_succ {sizes : List Nat} {i s : Nat} (h : sizes[i]? = some s) :
    offset sizes (i + 1) = offset sizes i + s := by
  rw [offset, List.take_add_one, h, List.sum_append, Option.toList_some, List.sum_singleton]
  rfl

@[simp] theorem offset_length (sizes : List Nat) : offset sizes sizes.length = sizes.sum := by
  rw [offset, List.take_length]

theorem offset_le_sum (sizes : List Nat) (i : Nat) : offset sizes i ≤ sizes.sum := by
  have h := congrArg List.sum (List.take_append_drop i sizes)
  rw [List.sum_append] at h
  exact Nat.le.intro h

theorem offset_append (sizes sizes' : List Nat) (k : Nat) :
    offset (sizes ++ sizes') (sizes.length + k) = sizes.sum + offset sizes' k := by
  rw [offset, List.take_length_add_append, List.sum_append]
  rfl

/-- Items at the end do not move the others. -/
theorem offset_append_of_le {sizes : List Nat} {i : Nat} (h : i ≤ sizes.length) (sizes' : List Nat) :
    offset (sizes ++ sizes') i = offset sizes i := by
  rw [offset, List.take_append_of_le_length h]
  rfl

/-- Every item ends before the next ones start. -/
theorem offset_add_le_offset {sizes : List Nat} {i j s : Nat} (h : sizes[i]? = some s) (hij : i < j) :
    offset sizes i + s ≤ offset sizes j := by
  have htake : offset (sizes.take j) (i + 1) = offset sizes (i + 1) := by
    rw [offset, List.take_take, Nat.min_eq_left hij]
    rfl
  rw [← offset_succ h, ← htake]
  exact offset_le_sum (sizes.take j) (i + 1)

/-- A list around one of its elements. -/
theorem take_append_cons_drop {α : Type} {l : List α} {i : Nat} {x : α} (h : l[i]? = some x) :
    l.take i ++ x :: l.drop (i + 1) = l := by
  obtain ⟨hlt, rfl⟩ := List.getElem?_eq_some_iff.mp h
  rw [← List.drop_eq_getElem_cons hlt, List.take_append_drop]

end Library
