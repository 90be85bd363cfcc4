import Cyntatic.Theorems.AsmLink

/-! # Immediates

When the bytes that an immediate is emitted to give it back. -/

namespace Cyntatic
open Library

/-! ### Ranges -/

namespace Mode

/-- A number is in the signed range of a width. -/
def InRange (m : Mode) (v : Int) : Prop := -(2 ^ (8 * m.size - 1) : Int) ≤ v ∧ v < 2 ^ (8 * m.size - 1)

instance (m : Mode) (v : Int) : Decidable (m.InRange v) := inferInstanceAs (Decidable (_ ∧ _))

theorem signTrunc_eq_iff (m : Mode) (v : U64) : signTrunc m.size v = v ↔ m.InRange v.toInt :=
  Library.signTrunc_eq_iff m.size_pos m.size_bits v

theorem signTrunc_quad (v : U64) : signTrunc quad.size v = v := by
  have hfull : 8 * quad.size = 64 := rfl
  exact signTrunc_full hfull v

/-- The width of a number, by its value. -/
theorem integerSize_cases (n : U64) :
    n.toNat < 2 ^ 7 ∧ integerSize n = byte ∨ n.toNat < 2 ^ 15 ∧ integerSize n = short ∨
      n.toNat < 2 ^ 31 ∧ integerSize n = word ∨ 2 ^ 31 ≤ n.toNat ∧ integerSize n = quad := by
  have h1 : (0x7F : U64).toNat = 2 ^ 7 - 1 := rfl
  have h2 : (0x7FFF : U64).toNat = 2 ^ 15 - 1 := rfl
  have h3 : (0x7FFFFFFF : U64).toNat = 2 ^ 31 - 1 := rfl
  unfold integerSize
  simp only [BitVec.le_def]
  split
  · exact .inl ⟨by omega, rfl⟩
  · split
    · exact .inr (.inl ⟨by omega, rfl⟩)
    · split
      · exact .inr (.inr (.inl ⟨by omega, rfl⟩))
      · exact .inr (.inr (.inr ⟨by omega, rfl⟩))

/-- A number below a power of two is in the range that starts with its opposite. -/
theorem lt_or_quad (n : U64) :
    2 ^ 31 ≤ n.toNat ∧ integerSize n = quad ∨
      n.toNat < 2 ^ 31 ∧ (n.toNat : Int) < 2 ^ (8 * (integerSize n).size - 1) ∧ (integerSize n).size ≤ 4 := by
  rcases integerSize_cases n with ⟨h, hs⟩ | ⟨h, hs⟩ | ⟨h, hs⟩ | ⟨h, hs⟩
  · rw [hs]
    exact .inr ⟨by omega, by simp only [size]; omega, by decide⟩
  · rw [hs]
    exact .inr ⟨by omega, by simp only [size]; omega, by decide⟩
  · rw [hs]
    exact .inr ⟨by omega, by simp only [size]; omega, by decide⟩
  · exact .inl ⟨h, hs⟩

/-- The sum with a number that is not too large. -/
theorem toInt_addSigned {b n : U64} (hn : n.toNat < 2 ^ 31) (isNeg : Bool) :
    (AsmM.addSigned b n isNeg).toInt = (b.toInt + if isNeg then -(n.toNat : Int) else n.toNat).bmod (2 ^ 64) := by
  have hint : n.toInt = n.toNat := BitVec.toInt_eq_toNat_of_lt (by omega)
  unfold AsmM.addSigned
  cases isNeg
  · simp only [Bool.false_eq_true, if_false, BitVec.toInt_add, hint]
  · simp only [if_true, ← BitVec.sub_eq_add_neg, BitVec.toInt_sub, hint, Int.sub_eq_add_neg]

/-- Only a sum with a number of less than four bytes can leave the range. -/
theorem signTrunc_sum_iff (b n : U64) (isNeg : Bool) :
    signTrunc (integerSize n).size (AsmM.addSigned b n isNeg) = AsmM.addSigned b n isNeg ↔
      2 ^ 31 ≤ n.toNat ∨ (integerSize n).InRange (b.toInt + if isNeg then -(n.toNat : Int) else n.toNat) := by
  rcases lt_or_quad n with ⟨hn, hq⟩ | ⟨hn, -, hsize⟩
  · exact iff_of_true (by rw [hq, signTrunc_quad]) (.inl hn)
  · rw [signTrunc_eq_iff, toInt_addSigned hn, or_iff_right (Nat.not_le.mpr hn)]
    have hpow : (2 : Int) ^ (8 * (integerSize n).size - 1) ≤ 2 ^ 31 := by
      have hle : 8 * (integerSize n).size - 1 ≤ 31 := by omega
      exact_mod_cast Nat.pow_le_pow_right (by decide) hle
    have hlo := BitVec.le_toInt b
    have hhi := BitVec.toInt_lt (x := b)
    -- A sum that wraps is far from the range on either side.
    generalize hs : (b.toInt + if isNeg then -(n.toNat : Int) else n.toNat) = sum
    have hsum : -2 ^ 63 - 2 ^ 31 ≤ sum ∧ sum < 2 ^ 63 + 2 ^ 31 := by
      rw [← hs]
      split <;> omega
    unfold InRange
    generalize (2 : Int) ^ (8 * (integerSize n).size - 1) = r at hpow
    rw [Int.bmod_def]
    omega

/-- A number and its opposite are in the range of its width. -/
theorem signTrunc_integerSize (n : U64) (isNeg : Bool) :
    signTrunc (integerSize n).size (AsmM.addSigned 0 n isNeg) = AsmM.addSigned 0 n isNeg := by
  refine (signTrunc_sum_iff 0 n isNeg).mpr ?_
  rcases lt_or_quad n with ⟨hn, -⟩ | ⟨-, hn, -⟩
  · exact .inl hn
  · refine .inr ?_
    unfold InRange
    have hzero : (0 : U64).toInt = 0 := rfl
    rw [hzero]
    split <;> omega

end Mode

/-! ### Operands -/

/-- The argument has an immediate: it is not just a register. -/
def Arg.isImm (arg : Arg) : Bool :=
  match arg.head, arg.ea with
  | .reg _, none => false
  | _, _ => true

/-- The number that the first part of an argument stands for; a register leaves the number that is there. -/
def ArgHead.number (as : AssemblerCtx) (old : U64) : ArgHead → U64
  | .reg _ => old
  | .symbol isSizeOp range sub =>
    ((as.value? isSizeOp range).getD 0).setWidth 64 - sub.getD 0
  | .char c => c.setWidth 64
  | .int n isNeg => if isNeg then -n else n

/-- The number that an argument stands for. -/
def Arg.number (as : AssemblerCtx) (old : U64) (arg : Arg) : U64 :=
  match arg.ea with
  | none => arg.head.number as old
  | some (.int n isNeg) => arg.head.number as old + if isNeg then -n else n
  | some (.symbol isSizeOp range) => arg.head.number as old + ((as.eaValue? isSizeOp range).getD 0).setWidth 64

/-- The argument does not leave the width that is chosen for it. That width is the one of the last number that is
    written, so that the sum must be in its range; with a number of eight bytes, or a variable, it always is. -/
def Arg.Fits (as : AssemblerCtx) (old : U64) (arg : Arg) : Prop :=
  match arg.head, arg.ea with
  | head, some (.int n isNeg) => 2 ^ 31 ≤ n.toNat ∨
      (Mode.integerSize n).InRange ((head.number as old).toInt + if isNeg then -(n.toNat : Int) else n.toNat)
  | _, some (.symbol _ _) => True
  | .char c, none => c.toNat < 2 ^ 31
  | .symbol isSizeOp range (some n), none => 2 ^ 31 ≤ n.toNat ∨
      (Mode.integerSize n).InRange (((as.value? isSizeOp range).getD 0).toNat - n.toNat)
  | _, none => True

variable {as : AssemblerCtx} {instr : Instruction} {arg : Arg}

variable (as instr) in
theorem ArgHead.record_ii (head : ArgHead) : (head.record as instr).ii = head.number as instr.ii := by
  cases head with
  | reg r => rfl
  | symbol isSizeOp range sub =>
    cases sub with
    | none =>
      rw [number, Option.getD_none]
      exact (BitVec.sub_zero _).symm
    | some n =>
      rw [number, Option.getD_some, BitVec.sub_eq_add_neg]
      rfl
  | char c => rfl
  | int n isNeg =>
    cases isNeg
    · exact BitVec.zero_add n
    · exact BitVec.zero_add (-n)

variable (as instr) in
theorem Arg.record_ii (arg : Arg) : (arg.record as instr).ii = arg.number as instr.ii := by
  unfold Arg.record Arg.number
  rcases arg.ea with _ | ⟨n, isNeg⟩ | ⟨isSizeOp, range⟩
  · exact arg.head.record_ii as instr
  · rw [← arg.head.record_ii as instr]
    rfl
  · rw [← arg.head.record_ii as instr]
    rfl

theorem toInt_setWidth_u32 (v : U32) : (v.setWidth 64 : U64).toInt = v.toNat := by
  have hlt := v.isLt
  rw [BitVec.toInt_eq_toNat_of_lt] <;> rw [BitVec.toNat_setWidth] <;> omega

/-- The value of a symbol is in the range of its width. -/
theorem signTrunc_symbol (v : U32) :
    signTrunc (if v = 0 then Mode.word else .integerSize (v.setWidth 64)).size (v.setWidth 64 : U64) = v.setWidth 64 := by
  split
  · rename_i hv
    rw [hv]
    rfl
  · have h := Mode.signTrunc_integerSize (v.setWidth 64) false
    have hadd : AsmM.addSigned 0 (v.setWidth 64) false = v.setWidth 64 := BitVec.zero_add _
    rwa [hadd] at h

variable (as instr) in
/-- The immediate of an argument survives in the width of the record exactly when it fits. -/
theorem Arg.signTrunc_iff (arg : Arg) (himm : arg.isImm) :
    signTrunc (arg.record as instr).ims.size (arg.record as instr).ii = (arg.record as instr).ii ↔ arg.Fits as instr.ii := by
  obtain ⟨isMem, head, ea⟩ := arg
  rcases ea with _ | ⟨n, isNeg⟩ | ⟨isSizeOp, range⟩
  · cases head with
    | reg r => cases himm
    | symbol isSizeOp range sub =>
      cases sub with
      | none => exact iff_of_true (signTrunc_symbol _) trivial
      | some n =>
        refine (Mode.signTrunc_sum_iff _ n true).trans ?_
        rw [toInt_setWidth_u32, if_pos rfl, ← Int.sub_eq_add_neg]
        exact Iff.rfl
    | char c =>
      refine (Mode.signTrunc_eq_iff .word _).trans ?_
      change Mode.word.InRange (c.setWidth 64 : U64).toInt ↔ c.toNat < 2 ^ 31
      rw [toInt_setWidth_u32]
      change -(2 ^ 31 : Int) ≤ c.toNat ∧ (c.toNat : Int) < 2 ^ 31 ↔ c.toNat < 2 ^ 31
      omega
    | int n isNeg => exact iff_of_true (Mode.signTrunc_integerSize n isNeg) trivial
  · refine Iff.trans ?_ (Mode.signTrunc_sum_iff (head.number as instr.ii) n isNeg)
    rw [← head.record_ii as instr]
    exact Iff.rfl
  · exact iff_of_true (Mode.signTrunc_quad _) trivial

/-- The bytes of an immediate follow the first bytes of an instruction. -/
theorem Instruction.emit_imm {ins : Instruction} (henc : ins.Encodable) (hosz : ins.osz ≠ 1) (himm : ins.hasImm) :
    ins.emit = some (ins.head ++ leBytes ins.ims.size ins.ii) := by
  have hlt : 1 < ins.osz.val := by
    rcases henc.osz_cases with h1 | h2 | h3
    · exact absurd h1 hosz
    · rw [h2]
      decide
    · rw [h3]
      decide
  have hmode : ins.emitMode = some ins.ims := by
    unfold emitMode
    split
    · rename_i h2
      have hrmd : ins.rmd = .imm := by simpa [hasImm, henc.iea_eq h2] using himm
      rw [henc.ra_eq h2 hrmd, Mode.ofNat?_toNat]
    · rfl
  rw [emit, if_pos ⟨hlt, himm⟩, hmode, Option.map_some]

namespace AsmM
open Prog

end AsmM

/-- `$pad = [184]`, `$x = 1` and `mov r0 x - 1` -/
def shortAddend : List Token :=
  [wordToken .tokDollar ['$'], wordToken .tokIdentifier ['p', 'a', 'd'], wordToken .tokAssign ['='],
    wordToken .tokLBracket ['['], wordToken .tokInteger ['1', '8', '4'] (.int 184), wordToken .tokRBracket [']'],
    wordToken .tokNl ['n'], wordToken .tokDollar ['$'], wordToken .tokIdentifier ['x'], wordToken .tokAssign ['='],
    wordToken .tokInteger ['1'] (.int 1), wordToken .tokNl ['n'], wordToken .tokIdentifier ['m', 'o', 'v'],
    wordToken .tokIdentifier ['r', '0'], wordToken .tokIdentifier ['x'], wordToken .tokMinus ['-'],
    wordToken .tokInteger ['1'] (.int 1)]

end Cyntatic
