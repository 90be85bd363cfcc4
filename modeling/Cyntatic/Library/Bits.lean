import Mathlib.Data.BitVec
import Mathlib.Algebra.Order.Ring.Nat
import Mathlib.Order.Bounds.Basic

/-! # Bits

Rounding up to a power of two: a number whose bits are smeared down is a power of two less one. -/

namespace Library

/-- The bits of `y` are those of `x`, each with the `n - 1` bits below it. -/
def Spread (n x y : Nat) : Prop := ∀ b, y.testBit b = true ↔ ∃ d < n, x.testBit (b + d) = true

theorem spread_one (x : Nat) : Spread 1 x x := by
  intro b
  constructor
  · intro h
    exact ⟨0, Nat.one_pos, h⟩
  · rintro ⟨d, hd, h⟩
    obtain rfl : d = 0 := by omega
    exact h

theorem Spread.double {n x y : Nat} (h : Spread n x y) : Spread (n + n) x (y ||| y >>> n) := by
  intro b
  rw [Nat.testBit_or, Nat.testBit_shiftRight, Bool.or_eq_true, h, h]
  constructor
  · rintro (⟨d, hd, hx⟩ | ⟨d, hd, hx⟩)
    · exact ⟨d, by omega, hx⟩
    · exact ⟨n + d, by omega, by rwa [← Nat.add_assoc, Nat.add_comm b]⟩
  · rintro ⟨d, hd, hx⟩
    rcases Nat.lt_or_ge d n with hlt | hge
    · exact .inl ⟨d, hlt, hx⟩
    · exact .inr ⟨d - n, by omega, by rwa [show n + b + (d - n) = b + d by omega]⟩

/-- When the bits are spread over the whole number, all of them are set. -/
theorem Spread.eq {n x y : Nat} (h : Spread n x y) (hx : x ≠ 0) (hn : x < 2 ^ n) : y = 2 ^ (x.log2 + 1) - 1 := by
  refine Nat.eq_of_testBit_eq fun b => ?_
  rw [Nat.testBit_two_pow_sub_one, Bool.eq_iff_iff, h b, decide_eq_true_eq]
  have hlog : x.log2 < n := (Nat.log2_lt hx).mpr hn
  constructor
  · rintro ⟨d, -, hd⟩
    have hle := Nat.ge_two_pow_of_testBit hd
    have := (Nat.le_log2 hx).mpr hle
    omega
  · intro hb
    refine ⟨x.log2 - b, by omega, ?_⟩
    rw [Nat.add_sub_of_le (by omega)]
    exact Nat.testBit_log2 hx

/-- The least power of two from a number on. -/
theorem isLeast_two_pow {n k : Nat} (hle : n ≤ 2 ^ k) (hlt : k = 0 ∨ 2 ^ (k - 1) < n) :
    IsLeast {p | (∃ j, p = 2 ^ j) ∧ n ≤ p} (2 ^ k) := by
  refine ⟨⟨⟨k, rfl⟩, hle⟩, ?_⟩
  rintro _ ⟨⟨j, rfl⟩, hj⟩
  rcases hlt with rfl | hlt
  · exact Nat.one_le_two_pow
  · have hkj : k - 1 < j := (Nat.pow_lt_pow_iff_right (Nat.lt_succ_self 1)).mp (hlt.trans_le hj)
    exact Nat.pow_le_pow_right Nat.two_pos (by omega)

theorem isLeast_two_pow_log2 {n : Nat} (h : 2 ≤ n) :
    IsLeast {p | (∃ j, p = 2 ^ j) ∧ n ≤ p} (2 ^ ((n - 1).log2 + 1)) := by
  refine isLeast_two_pow ?_ (.inr ?_)
  · have hlt : n - 1 < 2 ^ ((n - 1).log2 + 1) := Nat.lt_log2_self
    omega
  · have hle : 2 ^ (n - 1).log2 ≤ n - 1 := Nat.log2_self_le (by omega)
    rw [Nat.add_sub_cancel]
    omega

end Library
