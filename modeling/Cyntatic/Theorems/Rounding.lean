import Cyntatic.Theorems.Pools
import Cyntatic.Theorems.Vectors

/-! # Rounding up to a power of two

The sizes of the pools and the capacities of the vectors are rounded by the same shifts, once of an unsigned number and
once of an `int`. -/

namespace Cyntatic
open Library

theorem np2_isLeast {v : U32} (hpos : 1 ≤ v.toNat) (hle : v.toNat ≤ 2 ^ 31) :
    IsLeast {p | (∃ k, p = 2 ^ k) ∧ v.toNat ≤ p} (np2 v).toNat ∧ (np2 v).toNat = 2 ^ (n21 (np2 v)).toNat := by
  rcases Nat.eq_or_lt_of_le hpos with hone | htwo
  · obtain rfl : v = 1 := BitVec.eq_of_toNat_eq hone.symm
    exact ⟨isLeast_two_pow (k := 0) (Nat.le_refl 1) (.inl rfl), rfl⟩
  · have hlog : (v.toNat - 1).log2 < 31 := (Nat.log2_lt (by omega)).mpr (by omega)
    have hnp : (np2 v).toNat = 2 ^ ((v.toNat - 1).log2 + 1) := by
      rw [toNat_np2 htwo, Nat.mod_eq_of_lt (Nat.pow_lt_pow_right (by decide) (by omega))]
    rw [toNat_n21_np2 htwo hlog, hnp]
    exact ⟨isLeast_two_pow_log2 htwo, rfl⟩

/-! ### Signed numbers -/

/-- A step of the smearing of a number that is not negative is that of an unsigned one. -/
theorem toNat_or_sshiftRight {v : U32} (h : v.msb = false) (n : Nat) :
    (v ||| v.sshiftRight n).toNat = v.toNat ||| v.toNat >>> n := by
  rw [BitVec.sshiftRight_eq_of_msb_false h, BitVec.toNat_or, BitVec.toNat_ushiftRight]

theorem toNat_smear {v : U32} (h : v.msb = false) (hne : v.toNat ≠ 0) :
    (smear v).toNat = 2 ^ (v.toNat.log2 + 1) - 1 := by
  have hspread := ((((spread_one v.toNat).double).double).double).double.double
  have heq := hspread.eq hne v.isLt
  simp only [Nat.reduceAdd] at heq
  obtain ⟨h1, -⟩ := toInt_le_or_shift (n := 1) h
  obtain ⟨h2, -⟩ := toInt_le_or_shift (n := 2) h1
  obtain ⟨h4, -⟩ := toInt_le_or_shift (n := 4) h2
  obtain ⟨h8, -⟩ := toInt_le_or_shift (n := 8) h4
  rw [smear, toNat_or_sshiftRight h8, toNat_or_sshiftRight h4, toNat_or_sshiftRight h2, toNat_or_sshiftRight h1,
    toNat_or_sshiftRight h, heq]

/-- What is the least power of two among the natural numbers is so among the integers. -/
theorem isLeast_cast {v m : Nat} (h : IsLeast {p | (∃ k, p = 2 ^ k) ∧ v ≤ p} m) :
    IsLeast {p : Int | (∃ k : Nat, p = 2 ^ k) ∧ (v : Int) ≤ p} m := by
  obtain ⟨⟨⟨k, rfl⟩, hle⟩, hleast⟩ := h
  refine ⟨⟨⟨k, by push_cast; rfl⟩, Int.ofNat_le.mpr hle⟩, ?_⟩
  rintro _ ⟨⟨j, rfl⟩, hj⟩
  have hj' : v ≤ 2 ^ j := by exact_mod_cast hj
  have hmin : 2 ^ k ≤ 2 ^ j := hleast ⟨⟨j, rfl⟩, hj'⟩
  exact_mod_cast hmin

theorem round2pow2_isLeast {n : Int} (hpos : 1 ≤ n) (hle : n ≤ 2 ^ 30) :
    ∃ m, round2pow2 n = some m ∧ IsLeast {p : Int | (∃ k : Nat, p = 2 ^ k) ∧ n ≤ p} m := by
  obtain ⟨v, rfl⟩ := Int.eq_ofNat_of_zero_le (show 0 ≤ n by omega)
  rcases Nat.eq_or_lt_of_le (show 1 ≤ v by omega) with rfl | htwo
  · exact ⟨1, rfl, isLeast_cast (isLeast_two_pow (k := 0) (Nat.le_refl 1) (.inl rfl))⟩
  · have hint : (BitVec.ofInt 32 ((v : Int) - 1)).toInt = (v : Int) - 1 := by
      rw [BitVec.toInt_ofInt]
      exact Int.bmod_eq_of_le (by omega) (by omega)
    have hmsb : (BitVec.ofInt 32 ((v : Int) - 1)).msb = false := by
      rw [BitVec.msb_eq_toInt, hint, decide_eq_false_iff_not]
      omega
    have hnat : (BitVec.ofInt 32 ((v : Int) - 1)).toNat = v - 1 := by
      have hcast := BitVec.toInt_eq_toNat_of_msb hmsb
      omega
    have hsmear := toNat_smear hmsb (by omega)
    rw [hnat] at hsmear
    have hlog : (v - 1).log2 < 30 := (Nat.log2_lt (by omega)).mpr (by omega)
    have hpow : 2 ^ ((v - 1).log2 + 1) ≤ 2 ^ 30 := Nat.pow_le_pow_right Nat.two_pos hlog
    have hone : 1 ≤ 2 ^ ((v - 1).log2 + 1) := Nat.one_le_two_pow
    have hvalue : (smear (BitVec.ofInt 32 ((v : Int) - 1))).toInt + 1 = ((2 ^ ((v - 1).log2 + 1) : Nat) : Int) := by
      rw [BitVec.toInt_eq_toNat_of_lt (by omega), hsmear]
      omega
    refine ⟨_, ?_, isLeast_cast (isLeast_two_pow_log2 htwo)⟩
    rw [round2pow2, int?_eq_some.mpr ⟨by omega, by omega, rfl⟩]
    refine int?_eq_some.mpr ⟨?_, ?_, hvalue.symm⟩ <;> rw [hvalue] <;> omega

/-- Both round up to the least power of two, and the index of the pool is the exponent. -/
theorem rounds_up {v : U32} {n : Int} (hv : 1 ≤ v.toNat) (hv' : v.toNat ≤ 2 ^ 31) (hn : 1 ≤ n) (hn' : n ≤ 2 ^ 30) :
    IsLeast {p | (∃ k, p = 2 ^ k) ∧ v.toNat ≤ p} (np2 v).toNat ∧ (np2 v).toNat = 2 ^ (n21 (np2 v)).toNat ∧
      ∃ m, round2pow2 n = some m ∧ IsLeast {p : Int | (∃ k : Nat, p = 2 ^ k) ∧ n ≤ p} m := by
  obtain ⟨hleast, hexp⟩ := np2_isLeast hv hv'
  exact ⟨hleast, hexp, round2pow2_isLeast hn hn'⟩

theorem rounds_up_five : IsLeast {p | (∃ k, p = 2 ^ k) ∧ 5 ≤ p} 8 ∧ 8 = 2 ^ (n21 (np2 5)).toNat ∧
    ∃ m, round2pow2 5 = some m ∧ IsLeast {p : Int | (∃ k : Nat, p = 2 ^ k) ∧ 5 ≤ p} m :=
  @rounds_up 5 5 (by decide) (by decide) (by decide) (by decide)

end Cyntatic
