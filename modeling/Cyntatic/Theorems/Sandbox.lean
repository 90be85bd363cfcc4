import Cyntatic.Theorems.Steps

/-! # Which accesses stay in the sandbox

`MEM` compares the low 32 bits of an address with the size of the memory, before the offset and the width of
the access are known, and a register number is not compared with `regCOUNT`. The accesses of an instruction
all stay inside exactly when the registers and the immediate, before it runs, denote operands that fit. -/

namespace Cyntatic
open Library

/-- The form of an operand: for memory, the register with the address if there is one, the address, and what
    is added to it after the check. -/
inductive Operand where
  | none
  | reg (n : Fin 16)
  | imm
  | mem (r : Option (Fin 16)) (base d : U64)
  deriving DecidableEq

namespace Operand

/-- The register that holds the address is a register. -/
def AddrFits : Operand → Prop
  | mem (some n) _ _ => n < Register.count
  | _ => True

/-- `MEM` aborts. -/
def Aborts (size : U32) : Operand → Prop
  | mem _ base _ => size < base.setWidth 32
  | _ => False

/-- The operand has `width` bytes: a register of the machine, or memory below the size at the full address. -/
def Fits (size : U32) (width : Nat) : Operand → Prop
  | none => False
  | reg n => n < Register.count
  | imm => True
  | mem _ base d => base.toNat < 2 ^ 32 ∧ (base + d).toNat + width ≤ size.toNat

/-- Where `VM_execute` finds the operand. -/
def place : Operand → Place
  | none => .null
  | reg n => .reg n
  | imm => .imm
  | mem _ base d => .ram ((base.setWidth 32).setWidth 64 + d) (base + d)

end Operand

namespace Vm

/-- An operand in a register, or in the memory that a register addresses. -/
def regOperand (vm : Vm) (n : Fin 16) (indirect : Bool) (d : U64) : Operand :=
  if indirect then .mem (some n) ((vm.reg? n).getD 0) d else .reg n

/-- An immediate, or an operand in the memory that it addresses. -/
def immOperand (instr : Instruction) (indirect : Bool) : Operand :=
  if indirect then .mem none instr.ii 0 else .imm

/-- The first operand of an instruction. -/
def operandA (vm : Vm) (instr : Instruction) : Operand :=
  if instr.osz = 2 ∧ instr.rmd = .imm then immOperand instr instr.iam
  else if instr.osz = 2 ∨ instr.osz = 3 then vm.regOperand instr.ra instr.iam 0
  else .none

/-- The second operand of an instruction. -/
def operandB (vm : Vm) (instr : Instruction) : Operand :=
  if instr.osz = 3 then
    if instr.rmd = .reg then vm.regOperand instr.rb instr.ibm (if instr.iea then instr.ii else 0)
    else immOperand instr instr.ibm
  else .none

/-- `VM_pushn` makes room for a word. -/
def HasRoom (vm : Vm) : Prop :=
  vm.ram.sb.setWidth 64 < vm.reg .sp - 8 ∧ (vm.reg .sp - 8).setWidth 32 ≤ vm.ram.size

instance (vm : Vm) : Decidable vm.HasRoom := inferInstanceAs (Decidable (_ ∧ _))

/-- The flag is set. -/
def HasFlag (vm : Vm) (flag : U64) : Prop := vm.reg .flg &&& flag ≠ 0

instance (vm : Vm) (flag : U64) : Decidable (vm.HasFlag flag) := inferInstanceAs (Decidable (_ ≠ _))

/-- The operands that an operation comes to read or write, with the number of bytes. -/
def uses (vm : Vm) (instr : Instruction) : List (Operand × Nat) :=
  let a := vm.operandA instr
  let b := vm.operandB instr
  let valueA := vm.readAt instr a.place instr.imd
  let valueB := vm.readAt instr b.place instr.modeB
  let wa := instr.imd.size
  let wb := instr.modeB.size
  match instr.op with
  | some .add | some .sub | some .sar | some .sal | some .xor | some .bor | some .band | some .mul | some .div
  | some .cmp => [(a, wa), (b, wb)]
  | some .and => (a, wa) :: if valueA = 0 then [] else [(b, wb)]
  | some .or => (a, wa) :: if valueA = 0 then [(b, wb)] else []
  | some .mov => [(b, wb), (a, wa)]
  | some .rmem => (b, wb) :: if valueB.setWidth 32 ≤ vm.ram.size then [(a, wa)] else []
  | some .alloca => [(b, wb), (a, 8)]
  | some .alloc => (b, wb) :: if (vm.heap.alloc (valueB.setWidth 32)).isSome then [(a, wa)] else []
  | some .not | some .bnot | some .inc | some .dec => [(a, wb), (a, wa)]
  | some .ret | some .popn | some .puti | some .putc | some .dlloc | some .ncall | some .jmp => [(a, wb)]
  | some .jmpz => if vm.HasFlag flgZero then [(a, wb)] else []
  | some .jmpnz => if vm.HasFlag flgZero then [] else [(a, wb)]
  | some .jmpg => if vm.HasFlag flgGreater then [(a, wb)] else []
  | some .jmps => if vm.HasFlag flgLess then [(a, wb)] else []
  | some .push => if vm.HasRoom then [(a, wb)] else []
  | some .call => if vm.CanPush (vm.reg .sp) ∧ vm.CanPush (vm.reg .sp - 8) then [(a, wb)] else []
  | some .pop => if vm.CanPop then [(a, wb)] else []
  | some .puts =>
    match a with
    | .mem _ base _ => [(a, (vm.ram.string (base.setWidth 32).toNat).length + 1)]
    | _ => [(a, wb)]
  | some .halt | some .dbg | some .mcpy | some .mod | none => []

/-- The operands denote registers of the machine and memory below its size, as far as the instruction gets. -/
def OperandsFit (vm : Vm) (instr : Instruction) : Prop :=
  instr.osz ≠ 0 →
    (vm.operandA instr).AddrFits ∧ (¬(vm.operandA instr).Aborts vm.ram.size →
      (vm.operandB instr).AddrFits ∧ (¬(vm.operandB instr).Aborts vm.ram.size →
        ∀ u ∈ vm.uses instr, u.1.Fits vm.ram.size u.2))

end Vm

/-! ### Operands and places -/

theorem Operand.fits_iff {size : U32} {w : Nat} {o : Operand} : o.Fits size w ↔ Access.Sandboxed size ⟨o.place, w⟩ := by
  cases o with
  | none => exact Iff.rfl
  | reg n => exact Iff.rfl
  | imm => exact Iff.rfl
  | mem r base d =>
    have hbase : base.toNat < 2 ^ 32 ↔ (base.setWidth 32).setWidth 64 = base := by
      rw [← BitVec.toNat_inj, BitVec.toNat_setWidth, BitVec.toNat_setWidth,
        Nat.mod_eq_of_lt (Nat.lt_trans (Nat.mod_lt _ (by decide)) (by decide)), Nat.mod_eq_iff_lt (by decide)]
    simp only [Fits, Access.Sandboxed, place, BitVec.add_left_inj, hbase]

namespace VmM
open Prog

variable {vm vm' : Vm} {instr : Instruction}

theorem regAddr_always {n : Fin 16} :
    (regAddr n).Always (Access.Sandboxed vm.ram.size) vm ↔ n < Register.count := by
  simp [regAddr, Access.Sandboxed]

theorem regAddr_returns {n : Fin 16} {v : U64} :
    (regAddr n).Returns vm v vm' ↔ n < Register.count ∧ v = (vm.reg? n).getD 0 ∧ vm' = vm := by
  simp only [regAddr, returns_bind, returns_emit, returns_get, returns_ofOption, Vm.reg?_eq_some]
  grind

/-- `m` finds the operand `o`: it stops where `MEM` aborts, and its accesses stay inside when the register with
    the address is a register. -/
structure Finds (vm : Vm) (m : VmM Place) (o : Operand) : Prop where
  always : m.Always (Access.Sandboxed vm.ram.size) vm ↔ o.AddrFits
  returns : ∀ p vm', m.Returns vm p vm' ↔ o.AddrFits ∧ ¬o.Aborts vm.ram.size ∧ p = o.place ∧ vm' = vm

variable (vm) in
theorem finds_reg (n : Fin 16) (i : Bool) (d : U64) : Finds vm (placeReg n i d) (vm.regOperand n i d) := by
  unfold placeReg Vm.regOperand
  constructor
  · split
    · simp only [always_bind, regAddr_always, mem_always, always_pure, implies_true, and_true]
      exact Iff.rfl
    · exact iff_of_true always_pure trivial
  · intro p vm'
    split
    · simp only [returns_bind, regAddr_returns, mem_returns, returns_pure, Operand.AddrFits, Operand.Aborts,
        Operand.place, BitVec.not_lt]
      grind
    · simp [Operand.AddrFits, Operand.Aborts, Operand.place]

variable (vm instr) in
theorem finds_imm (i : Bool) : Finds vm (placeImm instr i) (Vm.immOperand instr i) := by
  unfold placeImm Vm.immOperand
  constructor
  · split <;> simp [Operand.AddrFits]
  · intro p vm'
    have hzero : ∀ x : U64, x + 0 = x := fun x => by simp
    split
    · simp only [returns_bind, mem_returns, returns_pure, Operand.AddrFits, Operand.Aborts, Operand.place, BitVec.not_lt,
        hzero]
      grind
    · simp [Operand.AddrFits, Operand.Aborts, Operand.place]

theorem Finds.ite {c : Prop} [Decidable c] {m m' : VmM Place} {o o' : Operand} (h : Finds vm m o) (h' : Finds vm m' o') :
    Finds vm (if c then m else m') (if c then o else o') := by
  split
  · exact h
  · exact h'

theorem finds_null : Finds vm (pure .null) .none where
  always := by simp [Operand.AddrFits]
  returns p vm' := by simp [Operand.AddrFits, Operand.Aborts, Operand.place]

variable (vm) in
/-- The computations that find the operands of an instruction. -/
theorem operands_eq (hosz : instr.osz ≠ 0) : ∃ mA mB : VmM Place,
    (operands instr = do
      let rA ← mA
      let rB ← mB
      return (rA, rB)) ∧ Finds vm mA (vm.operandA instr) ∧ Finds vm mB (vm.operandB instr) := by
  have hall : ∀ o : Fin 4, o ≠ 0 → o = 1 ∨ o = 2 ∨ o = 3 := by decide
  unfold operands Vm.operandA Vm.operandB
  rcases hall _ hosz with h | h | h
  · refine ⟨pure .null, pure .null, ?_, by simpa [h] using finds_null, by simpa [h] using finds_null⟩
    rw [h]
    rfl
  · refine ⟨placeOnly instr, pure .null, ?_, ?_, by simpa [h] using finds_null⟩
    · rw [h]
      rfl
    · have hfind := Finds.ite (c := instr.rmd = .reg) (finds_reg vm instr.ra instr.iam 0)
        (finds_imm vm instr instr.iam)
      cases hr : instr.rmd <;> simpa [h, hr, placeOnly] using hfind
  · refine ⟨placeReg instr.ra instr.iam 0, placeB instr, ?_, by simpa [h] using finds_reg vm instr.ra instr.iam 0, ?_⟩
    · rw [h]
    · simpa [h, placeB] using (finds_reg ..).ite (finds_imm ..)

/-- The accesses made to find the operands. -/
theorem operands_always (hosz : instr.osz ≠ 0) :
    (operands instr).Always (Access.Sandboxed vm.ram.size) vm ↔
      (vm.operandA instr).AddrFits ∧ (¬(vm.operandA instr).Aborts vm.ram.size → (vm.operandB instr).AddrFits) := by
  obtain ⟨mA, mB, heq, hA, hB⟩ := operands_eq vm hosz
  simp only [heq, always_bind, hA.always, hA.returns, always_pure, implies_true, and_true]
  refine and_congr_right fun hfits => ?_
  constructor
  · intro h habort
    exact hB.always.mp (h _ _ ⟨hfits, habort, rfl, rfl⟩)
  · rintro h _ _ ⟨-, habort, rfl, rfl⟩
    exact hB.always.mpr (h habort)

theorem operands_returns (hosz : instr.osz ≠ 0) {r : Place × Place} :
    (operands instr).Returns vm r vm' ↔
      ((vm.operandA instr).AddrFits ∧ ¬(vm.operandA instr).Aborts vm.ram.size) ∧
      ((vm.operandB instr).AddrFits ∧ ¬(vm.operandB instr).Aborts vm.ram.size) ∧
      r = ((vm.operandA instr).place, (vm.operandB instr).place) ∧ vm' = vm := by
  obtain ⟨mA, mB, heq, hA, hB⟩ := operands_eq vm hosz
  simp only [heq, returns_bind, hA.returns, returns_pure]
  constructor
  · rintro ⟨_, _, ⟨h1, h2, rfl, rfl⟩, _, _, h, rfl, rfl⟩
    obtain ⟨h3, h4, rfl, rfl⟩ := (hB.returns _ _).mp h
    exact ⟨⟨h1, h2⟩, ⟨h3, h4⟩, rfl, rfl⟩
  · rintro ⟨⟨h1, h2⟩, ⟨h3, h4⟩, rfl, rfl⟩
    exact ⟨_, _, ⟨h1, h2, rfl, rfl⟩, _, _, (hB.returns _ _).mpr ⟨h3, h4, rfl, rfl⟩, rfl, rfl⟩

/-! ### Operations -/

section Operations
variable {p rA rB : Place} {m ta tb : Mode} {α : Type}

theorem read_bind_always {k : U64 → VmM α} :
    (read instr p m >>= k).Always (Access.Sandboxed vm.ram.size) vm ↔
      Access.Sandboxed vm.ram.size ⟨p, m.size⟩ ∧
        (k (vm.readAt instr p m)).Always (Access.Sandboxed vm.ram.size) vm := by
  by_cases h : Access.Sandboxed vm.ram.size ⟨p, m.size⟩
  · rw [always_bind_of_returns (read_returns.mpr ⟨h.present, rfl, rfl⟩), read_always]
  · rw [always_bind, read_always]
    exact iff_of_false (fun hn => h hn.1) fun hn => h hn.1

/-- Steps without operands after a read. -/
theorem read_then_always {P : Access → Prop} {k : U64 → VmM α} (hk : ∀ v vm', (k v).Always P vm') :
    (read instr p m >>= k).Always P vm ↔ P ⟨p, m.size⟩ := by
  rw [always_bind, read_always]
  exact and_iff_left fun v vm' _ => hk v vm'

theorem binary_always {f : U64 → U64 → Except Stop U64} :
    (binary instr rA rB ta tb f).Always (Access.Sandboxed vm.ram.size) vm ↔
      Access.Sandboxed vm.ram.size ⟨rA, ta.size⟩ ∧ Access.Sandboxed vm.ram.size ⟨rB, tb.size⟩ := by
  rw [binary, read_bind_always, read_bind_always]
  split
  · rw [write_always]
    tauto
  · simp

theorem shortCircuit_always {short : Bool} :
    (shortCircuit instr rA rB ta tb short).Always (Access.Sandboxed vm.ram.size) vm ↔
      Access.Sandboxed vm.ram.size ⟨rA, ta.size⟩ ∧
        ((vm.readAt instr rA ta != 0) ≠ short → Access.Sandboxed vm.ram.size ⟨rB, tb.size⟩) := by
  rw [shortCircuit, read_bind_always]
  split
  · rename_i h
    rw [write_always]
    exact (and_iff_left fun hne => absurd h hne).symm.trans (by tauto)
  · rename_i h
    rw [read_bind_always, write_always]
    tauto

theorem unary_always {f : U64 → U64} :
    (unary instr rA ta tb f).Always (Access.Sandboxed vm.ram.size) vm ↔
      Access.Sandboxed vm.ram.size ⟨rA, tb.size⟩ ∧ Access.Sandboxed vm.ram.size ⟨rA, ta.size⟩ := by
  rw [unary, read_bind_always, write_always]

theorem rmem_always :
    (rmem instr rA rB ta tb).Always (Access.Sandboxed vm.ram.size) vm ↔
      Access.Sandboxed vm.ram.size ⟨rB, tb.size⟩ ∧
        ((vm.readAt instr rB tb).setWidth 32 ≤ vm.ram.size → Access.Sandboxed vm.ram.size ⟨rA, ta.size⟩) := by
  rw [rmem, read_bind_always]
  refine and_congr_right fun _ => ?_
  simp only [always_bind, mem_always, mem_returns, always_get, returns_get, write_always, true_and]
  constructor
  · intro h hle
    exact h _ _ ⟨hle, rfl, rfl⟩ _ _ ⟨rfl, rfl⟩
  · rintro h _ _ ⟨hle, rfl, rfl⟩ _ _ -
    exact h hle

theorem alloca_always :
    (alloca instr rA rB ta tb).Always (Access.Sandboxed vm.ram.size) vm ↔
      Access.Sandboxed vm.ram.size ⟨rB, tb.size⟩ ∧ Access.Sandboxed vm.ram.size ⟨rA, 8⟩ := by
  rw [alloca, read_bind_always]
  refine and_congr_right fun _ => ?_
  simp only [always_bind, print_always, getReg_always, write_always, pushn_always, always_pure, implies_true, and_true,
    true_and, print_returns, getReg_returns]
  exact ⟨fun h => h () _ rfl _ _ ⟨rfl, rfl⟩, fun h _ _ _ _ _ _ => h⟩

theorem jump_always {iip : U64} {P : Access → Prop} : (jump instr rA tb iip).Always P vm ↔ P ⟨rA, tb.size⟩ := by
  rw [jump, read_then_always]
  exact fun _ _ => setReg_always

theorem jumpIf_always {iip flag : U64} {set : Bool} :
    (jumpIf instr rA tb iip flag set).Always (Access.Sandboxed vm.ram.size) vm ↔
      ((vm.reg .flg &&& flag != 0) = set → Access.Sandboxed vm.ram.size ⟨rA, tb.size⟩) := by
  rw [jumpIf, always_bind_of_returns (getReg_returns.mpr ⟨rfl, rfl⟩)]
  split
  · rename_i h
    rw [jump_always]
    exact ⟨fun hs _ => hs.2, fun hs => ⟨getReg_always, hs h⟩⟩
  · rename_i h
    exact iff_of_true ⟨getReg_always, always_pure⟩ fun hc => absurd hc h

theorem cmp_always :
    (cmp instr rA rB ta tb).Always (Access.Sandboxed vm.ram.size) vm ↔
      Access.Sandboxed vm.ram.size ⟨rA, ta.size⟩ ∧ Access.Sandboxed vm.ram.size ⟨rB, tb.size⟩ := by
  rw [cmp, read_bind_always, read_then_always]
  exact fun _ _ => setReg_always

/-- What is pushed does not matter for the room on the stack. -/
theorem canPush_pushed {v sp : U64} : (vm.pushed v).CanPush sp ↔ vm.CanPush sp := Iff.rfl

theorem reg_sp_pushed {v : U64} : (vm.pushed v).reg .sp = vm.reg .sp - 8 := by
  rw [Vm.pushed, Vm.reg_setBytes, Vm.reg_setReg]

theorem call_always {iip : U64} :
    (call instr rA tb iip).Always (Access.Sandboxed vm.ram.size) vm ↔
      (vm.CanPush (vm.reg .sp) ∧ vm.CanPush (vm.reg .sp - 8) → Access.Sandboxed vm.ram.size ⟨rA, tb.size⟩) := by
  have hpush : ∀ r vm', (push (getReg r)).Always (Access.Sandboxed vm.ram.size) vm' := fun r vm' =>
    push_always fun _ => getReg_always
  simp only [call, always_bind, hpush, getReg_always, setReg_always, true_and, push_getReg_returns (r := .ip) (by decide),
    push_getReg_returns (r := .bp) (by decide), getReg_returns, setReg_returns]
  constructor
  · rintro h ⟨h1, h2⟩
    exact jump_always.mp (h () _ ⟨h1, rfl⟩ () _ ⟨reg_sp_pushed ▸ h2, rfl⟩ _ _ ⟨rfl, rfl⟩ () _ rfl)
  · rintro h _ _ ⟨h1, rfl⟩ _ _ ⟨h2, rfl⟩ _ _ ⟨rfl, rfl⟩ _ _ rfl
    rw [reg_sp_pushed, canPush_pushed] at h2
    exact jump_always.mpr (h ⟨h1, h2⟩)

theorem push_read_always :
    (push (read instr rA tb)).Always (Access.Sandboxed vm.ram.size) vm ↔
      (vm.HasRoom → Access.Sandboxed vm.ram.size ⟨rA, tb.size⟩) := by
  have hone : wordsSize 1 = 8 := rfl
  simp only [push, always_bind, pushn_always, pushn_none_returns, hone, read_always, storeWord_always, implies_true,
    and_true, true_and]
  constructor
  · rintro h ⟨h1, h2⟩
    exact h _ _ ⟨h1, h2, rfl, rfl⟩
  · rintro h _ _ ⟨h1, h2, -, -⟩
    exact h ⟨h1, h2⟩

theorem pop_write_always :
    (do write rA (← pop) tb : VmM Unit).Always (Access.Sandboxed vm.ram.size) vm ↔
      (vm.CanPop → Access.Sandboxed vm.ram.size ⟨rA, tb.size⟩) := by
  simp only [always_bind, pop_always, pop_returns, write_always, true_and]
  constructor
  · intro h hpop
    exact h _ _ ⟨hpop, rfl, rfl⟩
  · rintro h _ _ ⟨hpop, -, -⟩
    exact h hpop

theorem leave_always {P : Access → Prop} {data : Option Data} {count : U32} : (leave data count).Always P vm := by
  have hdrop : ∀ n vm', (dropArgs n).Always P vm' := by
    intro n vm'
    unfold dropArgs
    split <;> simp
  have hpush : ∀ vm', (pushResults data count).Always P vm' := by
    intro vm'
    unfold pushResults
    split <;> simp
  simp [leave, hdrop, hpush, push_always]

theorem ret_always :
    (ret instr rA tb).Always (Access.Sandboxed vm.ram.size) vm ↔ Access.Sandboxed vm.ram.size ⟨rA, tb.size⟩ := by
  rw [ret, read_then_always]
  intro v vm'
  have hpop : ∀ n vm', (popResults n).Always (Access.Sandboxed vm.ram.size) vm' := by
    intro n vm'
    unfold popResults
    split <;> simp
  simp [hpop, leave_always]

theorem ncall_always {host : Host} :
    (ncall instr rA tb host).Always (Access.Sandboxed vm.ram.size) vm ↔ Access.Sandboxed vm.ram.size ⟨rA, tb.size⟩ := by
  rw [ncall, read_then_always]
  intro v vm'
  have hargs : ∀ n vm', (nativeArgs n).Always (Access.Sandboxed vm.ram.size) vm' := by
    intro n vm'
    unfold nativeArgs
    split <;> simp
  simp [hargs, push_always]

theorem putUtf8Chr_always {P : Access → Prop} {chr : U32} : (putUtf8Chr chr).Always P vm := by
  unfold putUtf8Chr
  dsimp only
  split_ifs <;> simp

theorem applyAlloc_always :
    (applyAlloc instr rA rB ta tb).Always (Access.Sandboxed vm.ram.size) vm ↔
      Access.Sandboxed vm.ram.size ⟨rB, tb.size⟩ ∧
        ((vm.heap.alloc ((vm.readAt instr rB tb).setWidth 32)).isSome → Access.Sandboxed vm.ram.size ⟨rA, ta.size⟩) := by
  rw [applyAlloc, read_bind_always]
  refine and_congr_right fun _ => ?_
  simp only [always_bind, alloc_always, write_always, true_and, alloc_returns, Option.isSome_iff_exists]
  constructor
  · rintro h ⟨⟨a, heap⟩, hr⟩
    exact h a _ ⟨heap, hr, rfl⟩
  · rintro h a _ ⟨heap, hr, -⟩
    exact h ⟨_, hr⟩

theorem putString_always {off addr : U64} {P : Access → Prop} :
    (putString (.ram off addr)).Always P vm ↔ P ⟨.ram off addr, (vm.ram.string off.toNat).length + 1⟩ := by
  simp [putString]

end Operations

theorem putString_mem {r : Option (Fin 16)} {base : U64} :
    (putString (Operand.mem r base 0).place).Always (Access.Sandboxed vm.ram.size) vm ↔
      (Operand.mem r base 0).Fits vm.ram.size ((vm.ram.string (base.setWidth 32).toNat).length + 1) := by
  have hoff : ((base.setWidth 32).setWidth 64 + 0 : U64).toNat = (base.setWidth 32).toNat := by
    rw [show ((base.setWidth 32).setWidth 64 + 0 : U64) = (base.setWidth 32).setWidth 64 by simp, toNat_setWidth_off]
  rw [Operand.fits_iff, Operand.place, putString_always, hoff]

theorem puts_always :
    (puts instr (vm.operandA instr).place tb).Always (Access.Sandboxed vm.ram.size) vm ↔
      ∀ u ∈ (match vm.operandA instr with
        | .mem _ base _ => [(vm.operandA instr, (vm.ram.string (base.setWidth 32).toNat).length + 1)]
        | _ => [(vm.operandA instr, tb.size)] : List (Operand × Nat)), u.1.Fits vm.ram.size u.2 := by
  have hread : ∀ p, (do print (.pointer (← read instr p tb)) : VmM Unit).Always (Access.Sandboxed vm.ram.size) vm ↔
      Access.Sandboxed vm.ram.size ⟨p, tb.size⟩ := fun p => read_then_always fun _ _ => print_always
  unfold puts Vm.operandA Vm.regOperand Vm.immOperand
  cases instr.iam with
  | false =>
    simp only [Bool.false_eq_true, if_false, hread]
    split_ifs <;> simp [Operand.fits_iff]
  | true =>
    simp only [if_true]
    split_ifs
    · simp only [putString_mem, List.mem_singleton, forall_eq]
    · simp only [putString_mem, List.mem_singleton, forall_eq]
    · simp [Operand.place, putString, Access.Sandboxed, Operand.Fits]

theorem mem_ite_fits {c : Prop} [Decidable c] {x : Operand × Nat} {size : U32} :
    (∀ u ∈ if c then [x] else [], Access.Sandboxed size ⟨u.1.place, u.2⟩) ↔
      (c → Access.Sandboxed size ⟨x.1.place, x.2⟩) := by
  split <;> simp_all

theorem mem_ite_not_fits {c : Prop} [Decidable c] {x : Operand × Nat} {size : U32} :
    (∀ u ∈ if c then [] else [x], Access.Sandboxed size ⟨u.1.place, u.2⟩) ↔
      (¬c → Access.Sandboxed size ⟨x.1.place, x.2⟩) := by
  split <;> simp_all

/-- The accesses of an operation on operands that were found. -/
theorem apply_always (host : Host) (iip : U64) :
    (apply host instr iip (vm.operandA instr).place (vm.operandB instr).place).Always (Access.Sandboxed vm.ram.size) vm ↔
      ∀ u ∈ vm.uses instr, u.1.Fits vm.ram.size u.2 := by
  unfold apply Vm.uses
  rcases hop : instr.op with _ | op
  · simp
  cases op
  case puts => exact puts_always
  all_goals simp only [Operand.fits_iff]
  case add | sub | sar | sal | xor | bor | band | mul | div => simp [binary_always]
  case cmp => simp [cmp_always]
  case and => simp only [shortCircuit_always, List.forall_mem_cons, mem_ite_not_fits, Bool.not_eq_false, ne_eq, bne_iff_ne]
  case or => simp only [shortCircuit_always, List.forall_mem_cons, mem_ite_fits, Bool.not_eq_true, ne_eq, bne_eq_false_iff_eq]
  case mov =>
    rw [read_bind_always, write_always]
    simp
  case rmem => simp only [rmem_always, List.forall_mem_cons, mem_ite_fits]
  case alloca => simp [alloca_always, Mode.size]
  case alloc => simp only [applyAlloc_always, List.forall_mem_cons, mem_ite_fits]
  case not | bnot | inc | dec => simp [unary_always]
  case jmp => simp [jump_always]
  case ret => simp [ret_always]
  case ncall => simp [ncall_always]
  case popn | puti | dlloc => simp
  case putc => simp [putUtf8Chr_always]
  case jmpz | jmpg | jmps =>
    simp only [jumpIf_always, mem_ite_fits, bne_iff_ne]
    exact Iff.rfl
  case jmpnz =>
    simp only [jumpIf_always, mem_ite_not_fits, bne_eq_false_iff_eq]
    simp only [Vm.HasFlag, ne_eq, not_not]
  case push => simp only [push_read_always, mem_ite_fits]
  case call => simp only [call_always, mem_ite_fits]
  case pop => simp only [pop_write_always, mem_ite_fits]
  case halt | dbg | mcpy | mod => simp

/-- Every operand access of `VM_execute` stays inside, or the machine aborts before it, exactly when the operands
    fit. -/
theorem execute_sandboxed (host : Host) (instr : Instruction) (iip : U64) (vm : Vm) :
    (execute host instr iip).Always (Access.Sandboxed vm.ram.size) vm ↔ vm.OperandsFit instr := by
  unfold Vm.OperandsFit execute
  by_cases hosz : instr.osz = 0
  · have hstop : operands instr = stop .unreachable := by rw [operands, hosz]
    simp [hosz, hstop]
  · simp only [always_bind, operands_always hosz, operands_returns hosz, ne_eq, hosz, not_false_eq_true, forall_const]
    constructor
    · rintro ⟨⟨h1, h3⟩, h⟩
      exact ⟨h1, fun h2 => ⟨h3 h2, fun h4 => (apply_always host iip).mp (h _ _ ⟨⟨h1, h2⟩, ⟨h3 h2, h4⟩, rfl, rfl⟩)⟩⟩
    · rintro ⟨h1, h⟩
      refine ⟨⟨h1, fun h2 => (h h2).1⟩, ?_⟩
      rintro _ _ ⟨⟨-, h2⟩, ⟨-, h4⟩, rfl, rfl⟩
      exact (apply_always host iip).mpr ((h h2).2 h4)

/-- A machine with 64 bytes of memory, with `r1` four bytes before the end. -/
def edgeVm : Vm where
  flags := 0
  regs r := if r = .r1 then 60 else 0
  code := .empty
  ram := { base := 0, sb := 0, hb := 0, hlm := 0, size := 64, bytes := fun _ => 0 }
  heap := { free := none, used := none, fresh := none, top := 0, sth := 16, lmt := 0, aln := 8, count := 0
            next := fun _ => none, size := fun _ => 0, addr := fun _ => 0 }
  stdout := []

/-- `mov r0, [r1]` reads eight bytes where only four are left. -/
theorem execute_not_sandboxed :
    ¬∀ host instr iip vm, (execute host instr iip).Always (Access.Sandboxed vm.ram.size) vm := by
  intro hall
  have hread : (⟨.ram 60 60, 8⟩ : Access) ∈ (execute ⟨fun _ _ _ vm => .ok () vm⟩
      { osz := 3, opc := 24, ra := 0, rmd := .reg, imd := .quad, rb := 1, ibm := true } 0 edgeVm).1 := by decide
  exact absurd (hall _ _ _ _ _ hread) (by decide)

end VmM

end Cyntatic
