import Mathlib.Data.BitVec
import Mathlib.Algebra.Order.Ring.Nat
import Mathlib.Tactic.Common

/-! Little-endian byte strings of machine words: the bytes of a word, the word that a byte string
    denotes when its top bit is extended, and when the bytes kept of a word give it back. -/

namespace Library

variable {w : Nat}

/-- Byte `i` of a word, counted from the least significant. -/
def byteAt (v : BitVec w) (i : Nat) : BitVec 8 := (v >>> (8 * i)).setWidth 8

/-- The `n` low bytes of a word, the least significant first. -/
def leBytes (n : Nat) (v : BitVec w) : List (BitVec 8) := (List.range n).map (byteAt v)

/-- The number that a little-endian byte string denotes. -/
def leNat : List (BitVec 8) → Nat
  | [] => 0
  | b :: bs => b.toNat + 256 * leNat bs

/-- The word that `n` little-endian bytes denote, read as a signed number. -/
def leSigned (w n : Nat) (bs : List (BitVec 8)) : BitVec w := (BitVec.ofNat (8 * n) (leNat bs)).signExtend w

/-- What is left of a word of which the `n` low bytes are stored and read back as a signed number. -/
def signTrunc (n : Nat) (v : BitVec w) : BitVec w := (v.setWidth (8 * n)).signExtend w

/-! ### Bytes -/

@[simp] theorem length_leBytes (n : Nat) (v : BitVec w) : (leBytes n v).length = n := by
  simp [leBytes]

@[simp] theorem leBytes_zero (v : BitVec w) : leBytes 0 v = [] := rfl

theorem byteAt_toNat (v : BitVec w) (i : Nat) : (byteAt v i).toNat = v.toNat / 2 ^ (8 * i) % 256 := by
  simp [byteAt, Nat.shiftRight_eq_div_pow]

theorem leBytes_succ (n : Nat) (v : BitVec w) : leBytes (n + 1) v = byteAt v 0 :: leBytes n (v >>> 8) := by
  simp only [leBytes, List.range_succ_eq_map, List.map_cons, List.map_map, List.cons.injEq, true_and]
  refine List.map_congr_left fun i _ => ?_
  apply BitVec.eq_of_toNat_eq
  simp only [Function.comp_apply, byteAt_toNat, BitVec.toNat_ushiftRight, Nat.shiftRight_eq_div_pow,
    Nat.div_div_eq_div_mul, ← Nat.pow_add]
  congr 3
  omega

/-- The low bytes of a word denote it modulo the range they cover. -/
theorem leNat_leBytes (n : Nat) (v : BitVec w) : leNat (leBytes n v) = v.toNat % 2 ^ (8 * n) := by
  induction n generalizing v with
  | zero => simp [leNat, Nat.mod_one]
  | succ n ih =>
    have hpow : 2 ^ (8 * (n + 1)) = 256 * 2 ^ (8 * n) := by
      rw [Nat.mul_succ, Nat.pow_add, Nat.mul_comm]
    rw [leBytes_succ, leNat, ih, byteAt_toNat, hpow, Nat.mod_mul]
    simp [Nat.shiftRight_eq_div_pow]

/-- Reading back the low bytes of a word, with the sign. -/
theorem leSigned_leBytes (n : Nat) (v : BitVec w) : leSigned w n (leBytes n v) = signTrunc n v := by
  unfold leSigned signTrunc
  congr 1
  apply BitVec.eq_of_toNat_eq
  rw [leNat_leBytes, BitVec.toNat_ofNat, BitVec.toNat_setWidth, Nat.mod_mod]

/-! ### What truncation keeps -/

theorem toInt_signTrunc {n : Nat} (hn : 8 * n ≤ w) (v : BitVec w) :
    (signTrunc n v).toInt = v.toInt.bmod (2 ^ (8 * n)) := by
  rw [signTrunc, BitVec.toInt_signExtend_of_le hn, BitVec.toInt_setWidth, BitVec.toInt_eq_toNat_bmod]
  exact (Int.bmod_bmod_of_dvd (Nat.pow_dvd_pow 2 hn)).symm

/-- A word is given back by its `n` low bytes exactly when it lies in their signed range. -/
theorem signTrunc_eq_iff {n : Nat} (h0 : 0 < n) (hn : 8 * n ≤ w) (v : BitVec w) :
    signTrunc n v = v ↔ -(2 ^ (8 * n - 1) : Int) ≤ v.toInt ∧ v.toInt < 2 ^ (8 * n - 1) := by
  have hhalf : (2 : Int) ^ (8 * n) = 2 * 2 ^ (8 * n - 1) := by
    rw [← Int.pow_succ']
    congr 1
    omega
  rw [← BitVec.toInt_inj, toInt_signTrunc hn]
  constructor
  · intro h
    have hpos : 0 < 2 ^ (8 * n) := Nat.two_pow_pos _
    have hlo := Int.le_bmod (x := v.toInt) hpos
    have hhi := Int.bmod_lt (x := v.toInt) hpos
    rw [h] at hlo hhi
    push_cast at hlo hhi
    omega
  · rintro ⟨hlo, hhi⟩
    apply Int.bmod_eq_of_le
    · push_cast
      omega
    · push_cast
      omega

theorem signTrunc_full {n : Nat} (hn : 8 * n = w) (v : BitVec w) : signTrunc n v = v := by
  subst hn
  simp [signTrunc]

theorem setWidth_signTrunc {n : Nat} (hn : 8 * n ≤ w) (v : BitVec w) :
    (signTrunc n v).setWidth (8 * n) = v.setWidth (8 * n) := by
  apply BitVec.eq_of_getLsbD_eq
  intro i hi
  simp only [signTrunc, BitVec.getLsbD_setWidth, BitVec.getLsbD_signExtend, hi, decide_true, Bool.true_and, if_true]
  have hw : i < w := by omega
  simp [hw]

/-- A word is given back exactly when it can be given back, and the low bytes are its own. -/
theorem signTrunc_eq_iff_low {n : Nat} (hn : 8 * n ≤ w) (v u : BitVec w) :
    signTrunc n v = u ↔ signTrunc n u = u ∧ v.setWidth (8 * n) = u.setWidth (8 * n) := by
  constructor
  · rintro rfl
    have hlow := setWidth_signTrunc hn v
    refine ⟨?_, hlow.symm⟩
    rw [signTrunc, hlow]
    rfl
  · rintro ⟨hu, hlow⟩
    rw [signTrunc, hlow]
    exact hu

/-- Truncation is idempotent. -/
theorem signTrunc_signTrunc {n : Nat} (hn : 8 * n ≤ w) (v : BitVec w) :
    signTrunc n (signTrunc n v) = signTrunc n v := by
  rw [← BitVec.toInt_inj, toInt_signTrunc hn, toInt_signTrunc hn, Int.bmod_bmod]

end Library
