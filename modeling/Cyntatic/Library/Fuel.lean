import Mathlib.Data.BitVec
import Mathlib.Algebra.Order.Ring.Nat
import Mathlib.Tactic.Common

/-! # Loops with fuel

A loop that is not structural is a function of the passes that it may make. What it comes to is a relation: enough
passes give the result, fewer give none. -/

namespace Library

variable {α β : Type} {f g : Nat → Option α} {a b : α} {n : Nat}

/-- `f` comes to `a`: from some number of passes on this is its result, and with fewer it has none. -/
def Yields (f : Nat → Option α) (a : α) : Prop := ∃ k, ∀ n, f n = if k ≤ n then some a else none

theorem Yields.eq_of_some (h : Yields f a) (hn : f n = some b) : b = a := by
  obtain ⟨k, hk⟩ := h
  rw [hk n] at hn
  split at hn
  · exact (Option.some.inj hn).symm
  · cases hn

theorem Yields.eq_some (h : Yields f a) (hn : (f n).isSome) : f n = some a := by
  obtain ⟨b, hb⟩ := Option.isSome_iff_exists.mp hn
  rw [hb, h.eq_of_some hb]

theorem Yields.exists_some (h : Yields f a) : ∃ n, f n = some a := by
  obtain ⟨k, hk⟩ := h
  exact ⟨k, by rw [hk k, if_pos (Nat.le_refl k)]⟩

theorem Yields.unique (h : Yields f a) (h' : Yields f b) : a = b := by
  obtain ⟨n, hn⟩ := h.exists_some
  exact h'.eq_of_some hn

theorem yields_of_eq (h : ∀ n, f n = some a) : Yields f a := ⟨0, fun n => by rw [h n, if_pos (Nat.zero_le n)]⟩

theorem Yields.congr (h : Yields f a) (heq : ∀ n, g n = f n) : Yields g a := by
  obtain ⟨k, hk⟩ := h
  exact ⟨k, fun n => by rw [heq n, hk n]⟩

/-- A first pass, and then the rest. -/
theorem Yields.pass (h : Yields g a) (hzero : f 0 = none) (hsucc : ∀ n, f (n + 1) = g n) : Yields f a := by
  obtain ⟨k, hk⟩ := h
  refine ⟨k + 1, fun n => ?_⟩
  cases n with
  | zero => rw [hzero, if_neg (by omega)]
  | succ n =>
    rw [hsucc n, hk n]
    simp only [Nat.add_le_add_iff_right]

/-- A last pass. -/
theorem yields_last (hzero : f 0 = none) (hsucc : ∀ n, f (n + 1) = some a) : Yields f a :=
  (yields_of_eq fun _ => rfl).pass hzero hsucc

/-- One loop after the other. -/
theorem Yields.bind {h : α → Nat → Option β} {c : β} (hf : Yields f a) (hh : Yields (h a) c) :
    Yields (fun n => (f n).bind fun x => h x n) c := by
  obtain ⟨k, hk⟩ := hf
  obtain ⟨m, hm⟩ := hh
  refine ⟨max k m, fun n => ?_⟩
  change (f n).bind (fun x => h x n) = _
  by_cases hkn : k ≤ n
  · rw [hk n, if_pos hkn, Option.bind_some, hm n]
    simp only [Nat.max_le, hkn, true_and]
  · rw [hk n, if_neg hkn, if_neg fun hle => hkn (Nat.le_trans (Nat.le_max_left k m) hle)]
    rfl

theorem Yields.map (h : Yields f a) (g : α → β) : Yields (fun n => (f n).map g) (g a) := by
  obtain ⟨k, hk⟩ := h
  refine ⟨k, fun n => ?_⟩
  change (f n).map g = _
  rw [hk n]
  split <;> rfl

/-- A loop whose result was translated, where no other result has this translation. -/
theorem Yields.of_map {g : α → β} (h : Yields (fun n => (f n).map g) (g a)) (hinj : ∀ x, g x = g a → x = a) : Yields f a := by
  obtain ⟨k, hk⟩ := h
  refine ⟨k, fun n => ?_⟩
  have hn : (f n).map g = _ := hk n
  split at hn
  · rename_i hkn
    obtain ⟨x, hx, hg⟩ := Option.map_eq_some_iff.mp hn
    rw [hx, hinj x hg, if_pos hkn]
  · rename_i hkn
    rw [Option.map_eq_none_iff.mp hn, if_neg hkn]

end Library
