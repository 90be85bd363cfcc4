import Cyntatic.Theorems.Counts

/-! What `alloca` takes from the stack, and where the block is that it returns: the address is the one of the first word
    below the old top, and the words are counted downwards from there. -/

namespace Cyntatic
open Library

variable {vm vm' : Vm} {instr : Instruction} {u : Unit}

/-- A block lies between the new top of the stack and the old one. -/
def Reserves (sp' sp addr : U64) (bytes : Nat) : Prop :=
  ∀ i < bytes, sp'.toNat ≤ addr.toNat + i ∧ addr.toNat + i < sp.toNat

namespace Vm

/-- Where the block of `alloca` begins. -/
def blockAddr (vm : Vm) : U64 := vm.reg .sp - 8

/-- The bytes that are asked of `alloca`. -/
def blockSize (vm : Vm) (instr : Instruction) : Nat :=
  (vm.readAt instr (vm.operandB instr).place instr.modeB).toNat * instr.imd.size

/-- What is printed does not matter to a write. -/
theorem writeAt_printed (o : List Output) (p : Place) (v : U64) (mode : Mode) :
    Vm.writeAt { vm with stdout := o } p v mode = { vm.writeAt p v mode with stdout := o } := by
  cases p with
  | reg n =>
    simp only [writeAt]
    cases Register.ofNat? n <;> rfl
  | _ => rfl

/-- The words that are taken for at most eight bytes. -/
theorem allocaCount_of_le (h : vm.blockSize instr ≤ 8) :
    ((vm.allocaCount instr).setWidth 8 : U8).toNat = vm.blockSize instr / 8 := by
  rw [allocaCount, blockSize] at *
  generalize vm.readAt instr (vm.operandB instr).place instr.modeB = s at *
  have hle : s.toNat ≤ 8 := by
    have hpos : 1 ≤ instr.imd.size := by cases instr.imd <;> decide
    exact Nat.le_trans (Nat.le_mul_of_pos_right _ hpos) h
  have hmsb : s.msb = false := by
    rw [BitVec.msb_eq_false_iff_two_mul_lt]
    omega
  rw [BitVec.toNat_setWidth, BitVec.sshiftRight_eq_of_msb_false hmsb, BitVec.toNat_ushiftRight, Nat.shiftRight_eq_div_pow]
  generalize instr.imd = mode at *
  cases mode <;> simp only [Mode.size, Mode.toNat] at * <;> omega

/-- More than a word reaches above the old top. -/
theorem not_reserves {sp' sp : U64} {bytes : Nat} (h : 8 < bytes) : ¬Reserves sp' sp (sp - 8) bytes := by
  intro hres
  have hfirst := (hres 0 (by omega)).2
  have hlast := (hres 8 h).2
  have hlt := sp.isLt
  have h8 : (8 : U64).toNat = 8 := rfl
  rw [BitVec.toNat_sub, h8] at hfirst hlast
  omega

/-- Words taken from the old top hold a block of at most a word when there are bytes for none or for all of it. -/
theorem reserves_below {sp size : U64} {bytes : Nat} (hle : bytes ≤ 8) (hsize : size.toNat = 8 * (bytes / 8))
    (hroom : (sp - size).toNat ≤ sp.toNat) : Reserves (sp - size) sp (sp - 8) bytes ↔ bytes = 0 ∨ bytes = 8 := by
  have hlt := sp.isLt
  have h8 : (8 : U64).toNat = 8 := rfl
  rw [BitVec.toNat_sub, hsize] at hroom
  constructor
  · intro hres
    by_contra hnone
    have hfirst := hres 0 (by omega)
    rw [BitVec.toNat_sub, BitVec.toNat_sub, hsize, h8] at hfirst
    omega
  · intro hword i hi
    rw [BitVec.toNat_sub, BitVec.toNat_sub, hsize, h8]
    omega

/-- Words taken from the address of the block hold all of a block of at most a word. -/
theorem reserves_lower {sp size : U64} {bytes : Nat} (hle : bytes ≤ 8) (hsize : size.toNat = 8 * (bytes / 8))
    (hroom : (sp - 8 - size).toNat ≤ sp.toNat) : Reserves (sp - 8 - size) sp (sp - 8) bytes := by
  have hlt := sp.isLt
  have h8 : (8 : U64).toNat = 8 := rfl
  rw [BitVec.toNat_sub, BitVec.toNat_sub, hsize, h8] at hroom
  intro i hi
  rw [BitVec.toNat_sub, BitVec.toNat_sub, hsize, h8]
  omega

end Vm

namespace VmM

/-- The address of the block is written to the first operand of an `alloca`. The block lies in what is taken from the stack
    just when it has no bytes or is a word, or when it is at most a word and its address is written to `sp` itself. -/
theorem alloca_reserves (hop : instr.op = some .alloca) {host : Host} {iip : U64}
    (h : (execute host instr iip).Returns vm u vm') (hroom : (vm'.reg .sp).toNat ≤ (vm.reg .sp).toNat) :
    (vm'.ram = (vm.writeAt (vm.operandA instr).place vm.blockAddr .quad).ram ∧
      ∀ r, r ≠ .sp → vm'.reg r = (vm.writeAt (vm.operandA instr).place vm.blockAddr .quad).reg r) ∧
    (Reserves (vm'.reg .sp) (vm.reg .sp) vm.blockAddr (vm.blockSize instr) ↔ vm.blockSize instr = 0 ∨
      vm.blockSize instr = 8 ∨ vm.DestinationIsSp instr ∧ vm.blockSize instr ≤ 8) := by
  obtain ⟨-, rfl⟩ := (alloca_iff hop).mp h
  refine ⟨⟨?_, fun r hr => ?_⟩, ?_⟩
  · rw [Vm.roomWritten, Vm.writeAt_printed, Vm.ram_setReg]
    rfl
  · rw [Vm.reg_setReg_of_ne _ _ hr, Vm.roomWritten, Vm.writeAt_printed]
    rfl
  rw [Vm.reg_setReg] at hroom ⊢
  by_cases hlong : 8 < vm.blockSize instr
  · exact iff_of_false (Vm.not_reserves hlong) (by omega)
  · have hle : vm.blockSize instr ≤ 8 := by omega
    have hsize := (toNat_wordsSize _).trans (congrArg (8 * ·) (Vm.allocaCount_of_le hle))
    rw [sp_roomWritten] at hroom ⊢
    by_cases hdest : vm.DestinationIsSp instr
    · rw [if_pos hdest] at hroom ⊢
      exact iff_of_true (Vm.reserves_lower hle hsize hroom) (.inr (.inr ⟨hdest, hle⟩))
    · rw [if_neg hdest] at hroom ⊢
      rw [or_iff_left (a := vm.blockSize instr = 8) fun h => hdest h.1]
      exact Vm.reserves_below hle hsize hroom

/-- `alloca.q r0 1` -/
theorem alloca_reserves_word : ∃ vm', (execute .idle { osz := 3, opc := 22, rmd := .imm, imd := .quad, ims := .byte, ii := 1 }
      0).Returns emptyStackVm () vm' ∧ vm'.reg .r0 = 120 ∧ Reserves (vm'.reg .sp) 128 120 8 := by
  let instr : Instruction := { osz := 3, opc := 22, rmd := .imm, imd := .quad, ims := .byte, ii := 1 }
  obtain ⟨_, vm', hr, hp⟩ := Prog.exists_of_passes (m := execute .idle instr 0) (s := emptyStackVm)
    (p := fun _ vm' => (vm'.reg .sp).toNat ≤ 128 ∧ vm'.reg .r0 = 120) (by decide +kernel)
  obtain ⟨hroom, hr0⟩ := of_decide_eq_true hp
  exact ⟨vm', hr, hr0, (alloca_reserves rfl hr hroom).2.mpr (.inr (.inl (by decide +kernel)))⟩

/-- `alloca.b r1 9` -/
theorem block_above_top : ∃ vm', (execute .idle { osz := 3, opc := 22, rmd := .imm, imd := .byte, ims := .byte, ra := 1, ii := 9 }
      0).Returns emptyStackVm () vm' ∧ vm'.reg .r1 = 120 ∧ ¬Reserves (vm'.reg .sp) 128 120 9 := by
  let instr : Instruction := { osz := 3, opc := 22, rmd := .imm, imd := .byte, ims := .byte, ra := 1, ii := 9 }
  obtain ⟨_, vm', hr, hp⟩ := Prog.exists_of_passes (m := execute .idle instr 0) (s := emptyStackVm)
    (p := fun _ vm' => vm'.reg .r1 = 120) (by decide +kernel)
  exact ⟨vm', hr, of_decide_eq_true hp, Vm.not_reserves (by decide)⟩

end VmM

end Cyntatic
