import Cyntatic.Theorems.Boundaries
import Cyntatic.Theorems.Operands

/-! # Addressing modes

When an operand in memory that is written by its address is the same as one that is addressed by a register. -/

namespace Cyntatic
open Library

/-! ### What is compared -/

/-- The access is to memory. -/
def Access.InMemory (x : Access) : Prop :=
  match x.place with
  | .ram _ _ => True
  | _ => False

instance (x : Access) : Decidable x.InMemory := by
  unfold Access.InMemory
  split <;> infer_instance

/-- Two computations end alike, and access the same bytes of memory in the same order. -/
abbrev SameEffect {α : Type} (m m' : VmM α) (vm : Vm) : Prop := Prog.Same (fun x => decide x.InMemory) m m' vm

/-- The first access to memory. -/
abbrev FirstAccess {α : Type} (m : VmM α) (vm : Vm) (x : Access) : Prop := Prog.First (fun x => decide x.InMemory) m vm x

/-- An address that is written as a number, a character or a known symbol, with the width that the assembler chooses
    for it. -/
inductive ArgHead.Addresses (as : AssemblerCtx) : ArgHead → U64 → Mode → Prop
  | int (n : U64) (isNeg : Bool) : Addresses as (.int n isNeg) (if isNeg then -n else n) (.integerSize n)
  | char {c : U32} (h : c.toNat < 2 ^ 31) : Addresses as (.char c) (c.setWidth 64) .word
  | symbol {isSizeOp : Bool} {range : Range} {v : U32} (h : as.value? isSizeOp range = some v)
      (hp : as.pending isSizeOp range = []) :
      Addresses as (.symbol isSizeOp range none) (v.setWidth 64) (if v = 0 then .word else .integerSize (v.setWidth 64))

/-- The instruction with some arguments, as it is decoded. -/
def decoded (as : AssemblerCtx) (opc : OpCode) (mode : Mode) (args : List Arg) : Instruction :=
  (SourceInstr.record as ⟨opc, mode, args⟩).stored

/-- An instruction has the same effect with the address `a` of an operand and with any register that holds it. -/
def Equivalent (as : AssemblerCtx) (opc : OpCode) (mode : Mode) (args : Arg → List Arg) (head : ArgHead) (a : U64) : Prop :=
  ∀ (r : Register) (host : Host) (iip : U64) (vm : Vm), vm.reg r = a → a.toNat + mode.size ≤ vm.ram.size.toNat →
    SameEffect (VmM.execute host (decoded as opc mode (args ⟨true, head, none⟩)) iip)
      (VmM.execute host (decoded as opc mode (args ⟨true, .reg r, none⟩)) iip) vm

namespace OpCode

/-- The operations that read their only operand. -/
def readsOnly : OpCode → Bool
  | ret | jmp | jmpz | jmpnz | jmpg | jmps | not | bnot | inc | dec | call | push | popn | puti | puts | putc | dlloc
  | ncall => true
  | _ => false

/-- The operations that read the first of two operands. -/
def readsFirst : OpCode → Bool
  | add | sub | and | or | sar | sal | xor | bor | band | mul | div | cmp => true
  | _ => false

/-- The operations that read the second of two operands. -/
def readsSecond : OpCode → Bool
  | alloca | rmem | mov | alloc => true
  | opc => opc.readsFirst

end OpCode

/-! ### What the instructions are decoded to -/

section Decoded
variable {as : AssemblerCtx} {opc : OpCode} {mode w : Mode} {head : ArgHead} {a : U64} {r : Register}

theorem ArgHead.Addresses.record (h : head.Addresses as a w) (instr : Instruction) :
    head.record as instr = { instr with rmd := .imm, ii := a, ims := w } := by
  cases h with
  | int n isNeg => cases isNeg <;> simp [ArgHead.record, AsmM.addSigned]
  | char => rfl
  | symbol hv hp =>
    rw [ArgHead.record, hv]
    rfl

theorem ArgHead.Addresses.signTrunc (h : head.Addresses as a w) : signTrunc w.size a = a := by
  cases h with
  | int n isNeg =>
    have hn := Mode.signTrunc_integerSize n isNeg
    rw [AsmM.addSigned] at hn
    rwa [← BitVec.zero_add (if isNeg = true then -n else n)]
  | char hc =>
    refine (Mode.signTrunc_eq_iff .word _).mpr ?_
    rw [toInt_setWidth_u32]
    change -(2 ^ 31 : Int) ≤ _ ∧ (_ : Int) < 2 ^ 31
    omega
  | symbol hv hp => exact signTrunc_symbol _

/-- The record of an operation on two operands, the first of which is in the memory that a register addresses. -/
structure Instruction.TakesFirst (ins : Instruction) (opc : OpCode) (mode : Mode) (n : Register) : Prop where
  osz : ins.osz = 3
  op : ins.op = some opc
  ra : ins.ra = ⟨n.toNat, n.toNat_lt⟩
  iam : ins.iam = true
  imd : ins.imd = mode
  rb : ins.rb < Register.count

/-- The number in a record is that of a register. -/
theorem argRa_register (instr : Instruction) (q : Register) :
    ∃ q' : Register, AsmM.Instruction.argRa instr q = ⟨q'.toNat, q'.toNat_lt⟩ := by
  obtain ⟨-, -, -, -, rmd, -, ims, -⟩ := instr
  cases rmd with
  | reg => exact ⟨q, rfl⟩
  | imm =>
    cases ims with
    | byte => exact ⟨.r0, rfl⟩
    | short => exact ⟨.r1, rfl⟩
    | word => exact ⟨.r2, rfl⟩
    | quad => exact ⟨.r3, rfl⟩

theorem decoded_only (h : head.Addresses as a w) : decoded as opc mode [⟨true, head, none⟩] =
    { osz := 2, opc := ⟨opc.toNat, opc.toNat_lt⟩, iam := true, rmd := .imm, imd := mode, ims := w, ii := a } := by
  unfold decoded
  simp only [SourceInstr.record, Arg.first, Arg.record, Instruction.withEa, h.record]
  rw [Instruction.stored_two rfl, if_pos rfl]
  dsimp only
  rw [h.signTrunc]
  rfl

theorem decoded_only_reg : decoded as opc mode [⟨true, .reg r, none⟩] =
    { osz := 2, opc := ⟨opc.toNat, opc.toNat_lt⟩, ra := ⟨r.toNat, r.toNat_lt⟩, iam := true, imd := mode } := by
  unfold decoded
  rw [Instruction.stored_two rfl, if_neg nofun]
  rfl

variable (opc mode) in
/-- The second operand decides how an instruction is read, save for where the first one is. -/
theorem decoded_second (h : head.Addresses as a w) {y : Arg} (hy : y.ea = none) : ∃ (q : Register) (m : Mode),
    decoded as opc mode [y, ⟨true, head, none⟩] =
      { osz := 3, opc := ⟨opc.toNat, opc.toNat_lt⟩, ra := ⟨q.toNat, q.toNat_lt⟩, iam := y.isMem, rmd := .imm, imd := mode
        ims := w, rb := ⟨head.register.toNat, head.register.toNat_lt⟩, ibm := true, ii := a } ∧
    ∀ r : Register, decoded as opc mode [y, ⟨true, .reg r, none⟩] =
      { osz := 3, opc := ⟨opc.toNat, opc.toNat_lt⟩, ra := ⟨q.toNat, q.toNat_lt⟩, iam := y.isMem, imd := mode, ims := m
        rb := ⟨r.toNat, r.toNat_lt⟩, ibm := true } := by
  obtain ⟨h1, h2, h3, -, -, h6⟩ := y.record_frame as (SourceInstr.base ⟨opc, mode, [y, y]⟩)
  obtain ⟨q, hq⟩ := argRa_register (y.record as (SourceInstr.base ⟨opc, mode, [y, y]⟩)) y.head.register
  rw [hy] at h6
  have hfirst : ∃ first : Instruction, (first.osz = 3 ∧ first.opc = ⟨opc.toNat, opc.toNat_lt⟩ ∧ first.imd = mode ∧
      first.iam = y.isMem ∧ first.ra = ⟨q.toNat, q.toNat_lt⟩ ∧ first.iea = false) ∧
      ∀ x, decoded as opc mode [y, x] = (x.second as first).stored :=
    ⟨y.first as (SourceInstr.base ⟨opc, mode, [y, y]⟩), ⟨h1, h2, h3, rfl, hq, h6⟩, fun _ => rfl⟩
  obtain ⟨⟨osz, opc', ra, iam, rmd, imd, ims, rb, ibm, iea, ii⟩, ⟨e1, e2, e3, e4, e5, e6⟩, hdec⟩ := hfirst
  dsimp only at e1 e2 e3 e4 e5 e6
  subst e1 e2 e3 e4 e5 e6
  refine ⟨q, ims, ?_, fun r => ?_⟩
  · rw [hdec, Arg.second, Arg.record, h.record, Instruction.withEa, Instruction.stored_three rfl, if_pos]
    · dsimp only
      rw [h.signTrunc]
    · rfl
  · rw [hdec, Instruction.stored_three rfl]
    rfl

theorem decoded_takesFirst (x y : Arg) (n : Register) (hx : x.isMem = true)
    (hra : (x.first as (SourceInstr.base ⟨opc, mode, [x, y]⟩)).ra = ⟨n.toNat, n.toNat_lt⟩) :
    (decoded as opc mode [x, y]).TakesFirst opc mode n := by
  obtain ⟨h1, h2, h3⟩ := SourceInstr.record_frame as ⟨opc, mode, [x, y]⟩
  obtain ⟨-, -, -, h4, h5, -⟩ := y.record_frame as (x.first as (SourceInstr.base ⟨opc, mode, [x, y]⟩))
  unfold decoded
  rw [Instruction.stored_three h1]
  refine ⟨h1, ?_, h4.trans hra, h5.trans hx, h3, ?_⟩
  · change OpCode.ofNat? (SourceInstr.record as ⟨opc, mode, [x, y]⟩).opc = some opc
    rw [h2]
    exact OpCode.ofNat?_toNat opc
  · change y.head.register.toNat < Register.count
    exact y.head.register.toNat_lt_count

variable (opc mode) in
/-- The width of a number in the first place is taken for the number of a register. -/
theorem decoded_first (h : head.Addresses as a w) (y : Arg) :
    ∃ n : Register, n ≠ .r4 ∧ (decoded as opc mode [⟨true, head, none⟩, y]).TakesFirst opc mode n := by
  have hra : (Arg.first as (SourceInstr.base ⟨opc, mode, [⟨true, head, none⟩, y]⟩) ⟨true, head, none⟩).ra =
      ⟨w.toNat, by have := w.toNat_lt; omega⟩ := by
    simp only [Arg.first, Arg.record, Instruction.withEa, h.record]
    rfl
  cases w with
  | byte => exact ⟨.r0, by decide, decoded_takesFirst _ y .r0 rfl hra⟩
  | short => exact ⟨.r1, by decide, decoded_takesFirst _ y .r1 rfl hra⟩
  | word => exact ⟨.r2, by decide, decoded_takesFirst _ y .r2 rfl hra⟩
  | quad => exact ⟨.r3, by decide, decoded_takesFirst _ y .r3 rfl hra⟩

variable (as opc mode r) in
theorem decoded_first_reg (y : Arg) : (decoded as opc mode [⟨true, .reg r, none⟩, y]).TakesFirst opc mode r :=
  decoded_takesFirst _ y r rfl rfl

end Decoded

/-! ### The same effect -/

namespace VmM
open Prog

variable {ins ins' : Instruction} {vm : Vm} {host : Host} {iip a : U64}

/-- An address in the instruction, or in a register. -/
theorem same_place {r : Register} (hii : ins.ii = a) (hreg : vm.reg r = a) :
    SameEffect (placeImm ins true) (placeReg ⟨r.toNat, r.toNat_lt⟩ true 0) vm := by
  have hval : vm.reg? ⟨r.toNat, r.toNat_lt⟩ = some a := by rw [Vm.reg?, Register.ofNat?_toNat, Option.map_some, hreg]
  have haddr : (regAddr ⟨r.toNat, r.toNat_lt⟩).Returns vm a vm := by
    rw [regAddr, returns_bind]
    refine ⟨(), vm, returns_emit.mpr rfl, ?_⟩
    exact returns_bind.mpr ⟨vm, vm, returns_get.mpr ⟨rfl, rfl⟩, returns_ofOption.mpr ⟨hval, rfl⟩⟩
  have hquiet : (regAddr ⟨r.toNat, r.toNat_lt⟩).Always (fun x => decide x.InMemory = false) vm := by
    simp only [regAddr, always_bind, always_emit, always_get, always_ofOption, implies_true, and_true]
    exact decide_eq_false id
  have hplace : placeImm ins true = (pure a >>= fun addr : U64 => do
      let off ← mem (addr.setWidth 32)
      return .ram (off + 0) (addr + 0)) := by
    rw [placeImm, if_pos rfl, hii]
    simp only [add_zero]
    rfl
  rw [hplace, placeReg, if_pos rfl]
  exact same_bind (same_pure haddr hquiet) fun _ _ _ => same_refl

/-- The same after a first operand. -/
theorem same_second {n : Fin 16} {isMem : Bool} {r : Register} (hreg : vm.reg r = a) :
    SameEffect (do
        let rA ← placeReg n isMem 0
        let rB ← placeImm { ii := a } true
        return (rA, rB))
      (do
        let rA ← placeReg n isMem 0
        let rB ← placeReg ⟨r.toNat, r.toNat_lt⟩ true 0
        return (rA, rB)) vm := by
  refine same_bind same_refl fun rA t hA => ?_
  rw [placeReg_same hA]
  exact same_bind (same_place rfl hreg) fun _ _ _ => same_refl

/-- An operation depends on the record only by its op code, its modes and the first operand being in memory, where
    it has no immediate as an operand. -/
theorem apply_congr {rA rB : Place} (hop : ins.op = ins'.op) (himd : ins.imd = ins'.imd) (hiam : ins.iam = ins'.iam)
    (hmode : ins.modeB = ins'.modeB) (hA : rA ≠ .imm) (hB : rB ≠ .imm) (hknown : ∃ opc, ins.op = some opc ∧
      (opc.readsOnly ∨ opc.readsSecond)) : apply host ins iip rA rB = apply host ins' iip rA rB := by
  have hread (p : Place) (hp : p ≠ .imm) (m : Mode) : read ins p m = read ins' p m := by
    cases p with
    | imm => exact absurd rfl hp
    | _ => rfl
  obtain ⟨opc, hopc, hreads⟩ := hknown
  rw [apply, apply, ← hop, hopc, himd, hmode]
  cases opc <;> simp only [ret, jump, jumpIf, unary, call, puts, ncall, alloca, rmem, binary, shortCircuit, cmp, applyAlloc,
    hread rA hA, hread rB hB, hiam]
  all_goals rcases hreads with hreads | hreads <;> cases hreads

/-- A string is printed from where the operand is. -/
theorem apply_puts {rA rB : Place} (hop : ins.op = some .puts) (hiam : ins.iam = true) : apply host ins iip rA rB = putString rA := by
  rw [apply, hop]
  exact if_pos hiam

theorem placeReg_ne_imm {n : Fin 16} {indirect : Bool} {d : U64} {vm' : Vm} : ¬(placeReg n indirect d).Returns vm .imm vm' := by
  unfold placeReg
  split <;> simp

theorem placeImm_ne_imm {vm' : Vm} : ¬(placeImm ins true).Returns vm .imm vm' := by
  simp [placeImm]

/-- Operands with the same effect, and the same operation. -/
theorem same_execute (ps ps' : VmM (Place × Place)) (hps : operands ins = ps) (hps' : operands ins' = ps')
    (hsame : SameEffect ps ps' vm) (happly : ∀ rA rB vm', ps.Returns vm (rA, rB) vm' →
      apply host ins iip rA rB = apply host ins' iip rA rB) : SameEffect (execute host ins iip) (execute host ins' iip) vm := by
  unfold execute
  rw [hps, hps']
  refine same_bind hsame fun r t hr => ?_
  obtain ⟨rA, rB⟩ := r
  change Same _ (apply host ins iip rA rB) (apply host ins' iip rA rB) t
  rw [happly rA rB t hr]
  exact same_refl

end VmM

/-! ### When the effect is the same -/

section Equivalent
open Prog
variable {as : AssemblerCtx} {opc : OpCode} {mode w : Mode} {head : ArgHead} {a : U64}

theorem equivalent_only (h : head.Addresses as a w) (hreads : opc.readsOnly) (hw : opc = .puts ∨ w = mode) :
    Equivalent as opc mode (fun x => [x]) head a := by
  intro r host iip vm hreg _
  rw [decoded_only h, decoded_only_reg]
  refine VmM.same_execute (do return (← VmM.placeImm { ii := a } true, .null))
    (do return (← VmM.placeReg ⟨r.toNat, r.toNat_lt⟩ true 0, .null)) rfl rfl
    (same_bind (VmM.same_place rfl hreg) fun _ _ _ => same_refl) fun rA rB vm' hps => ?_
  obtain ⟨p, t, hp, hr⟩ := returns_bind.mp hps
  obtain ⟨hplaces, -⟩ := returns_pure.mp hr
  obtain ⟨rfl, rfl⟩ := Prod.mk.inj hplaces
  rcases hw with rfl | rfl
  · rw [VmM.apply_puts rfl rfl, VmM.apply_puts rfl rfl]
  · refine VmM.apply_congr rfl rfl rfl rfl ?_ nofun ⟨opc, OpCode.ofNat?_toNat opc, .inl hreads⟩
    rintro rfl
    exact VmM.placeImm_ne_imm hp

theorem equivalent_second (h : head.Addresses as a w) (hreads : opc.readsSecond) {y : Arg} (hy : y.ea = none) (hw : w = mode) :
    Equivalent as opc mode (fun x => [y, x]) head a := by
  intro r host iip vm hreg _
  obtain ⟨q, m, himm, hreg'⟩ := decoded_second opc mode h hy
  rw [himm, hreg' r]
  subst hw
  refine VmM.same_execute _ _ rfl rfl (VmM.same_second hreg) fun rA rB vm' hps => ?_
  obtain ⟨p, t, hp, hrest⟩ := returns_bind.mp hps
  obtain ⟨p', t', hp', hr⟩ := returns_bind.mp hrest
  obtain ⟨hplaces, -⟩ := returns_pure.mp hr
  obtain ⟨rfl, rfl⟩ := Prod.mk.inj hplaces
  refine VmM.apply_congr rfl rfl rfl rfl ?_ ?_ ⟨opc, OpCode.ofNat?_toNat opc, .inr hreads⟩
  · rintro rfl
    exact VmM.placeReg_ne_imm hp
  · rintro rfl
    exact VmM.placeImm_ne_imm hp'

end Equivalent

/-! ### What is accessed first -/

/-- A machine whose memory is as large as can be, so that every address passes. -/
def probeVm (regs : Register → U64) (byte : U8) : Vm where
  flags := 0
  regs := regs
  code := .empty
  ram := { base := 0, sb := 0, hb := 0, hlm := 0, size := 0xFFFFFFFF, bytes := fun _ => byte }
  heap := { free := none, used := none, fresh := none, top := 0, sth := 16, lmt := 0, aln := 8, count := 0
            next := fun _ => none, size := fun _ => 0, addr := fun _ => 0 }
  stdout := []

namespace VmM
open Prog

variable {ins : Instruction} {vm : Vm} {host : Host} {iip : U64} {opc : OpCode}

/-- The computation does not access memory. -/
abbrev Quiet {α : Type} (m : VmM α) (vm : Vm) : Prop := m.Always (¬·.InMemory) vm

theorem quiet_placeReg {n : Fin 16} {i : Bool} {d : U64} : Quiet (placeReg n i d) vm := by
  unfold placeReg regAddr
  split <;> simp [Access.InMemory]

theorem quiet_placeImm {i : Bool} : Quiet (placeImm ins i) vm := by
  unfold placeImm
  split <;> simp

/-- The operands are found without access to memory. -/
theorem quiet_operands : Quiet (operands ins) vm := by
  unfold operands placeOnly placeB
  split
  · exact always_stop
  · exact always_pure
  · split
    · simp [quiet_placeReg]
    · simp [quiet_placeImm]
  · split
    · simp [quiet_placeReg]
    · simp [quiet_placeReg, quiet_placeImm]

theorem mem_probe {regs : Register → U64} {byte : U8} (addr : U32) :
    (mem addr).Returns (probeVm regs byte) (addr.setWidth 64) (probeVm regs byte) := by
  refine mem_returns.mpr ⟨?_, rfl, rfl⟩
  have hsize : (probeVm regs byte).ram.size = 0xFFFFFFFF#32 := rfl
  rw [hsize, BitVec.le_def, BitVec.toNat_ofNat]
  omega

theorem placeReg_probe {regs : Register → U64} {byte : U8} (q : Register) (d : U64) :
    (placeReg ⟨q.toNat, q.toNat_lt⟩ true d).Returns (probeVm regs byte)
      (.ram (((regs q).setWidth 32).setWidth 64 + d) (regs q + d)) (probeVm regs byte) := by
  have hval : (probeVm regs byte).reg? ⟨q.toNat, q.toNat_lt⟩ = some (regs q) := by
    rw [Vm.reg?, Register.ofNat?_toNat]
    rfl
  rw [placeReg, if_pos rfl, regAddr]
  simp only [returns_bind, returns_emit, returns_get, returns_ofOption, returns_pure]
  exact ⟨_, _, ⟨(), _, rfl, _, _, ⟨rfl, rfl⟩, hval, rfl⟩, _, _, mem_probe _, rfl, rfl⟩

theorem placeImm_probe {regs : Register → U64} {byte : U8} (i : Bool) :
    ∃ p, (placeImm ins i).Returns (probeVm regs byte) p (probeVm regs byte) := by
  cases i with
  | false => exact ⟨.imm, returns_pure.mpr ⟨rfl, rfl⟩⟩
  | true => exact ⟨_, returns_bind.mpr ⟨_, _, mem_probe _, returns_pure.mpr ⟨rfl, rfl⟩⟩⟩

/-- The second operand is always found. -/
theorem placeB_probe (regs : Register → U64) (byte : U8) (hrb : ins.rb < Register.count) :
    ∃ p, (placeB ins).Returns (probeVm regs byte) p (probeVm regs byte) := by
  obtain ⟨q, hq⟩ := Option.isSome_iff_exists.mp (Register.ofNat?_isSome_iff.mpr hrb)
  unfold placeB
  split
  · cases ins.ibm with
    | false => exact ⟨.reg ins.rb, returns_pure.mpr ⟨rfl, rfl⟩⟩
    | true =>
      have hval : (probeVm regs byte).reg? ins.rb = some (regs q) := by
        rw [Vm.reg?, hq]
        rfl
      rw [placeReg, if_pos rfl, regAddr]
      simp only [returns_bind, returns_emit, returns_get, returns_ofOption, returns_pure]
      exact ⟨_, _, _, ⟨(), _, rfl, _, _, ⟨rfl, rfl⟩, hval, rfl⟩, _, _, mem_probe _, rfl, rfl⟩
  · exact placeImm_probe _

theorem first_read {off addr : U64} {mode : Mode} :
    FirstAccess (read ins (.ram off addr) mode) vm ⟨.ram off addr, mode.size⟩ := first_bind_left rfl

/-- A step without access to memory, and then the rest. -/
theorem first_after {α β : Type} {m : VmM α} {f : α → VmM β} {v : α} {vm' : Vm} {x : Access} (hr : m.Returns vm v vm')
    (hq : Quiet m vm) (h : FirstAccess (f v) vm' x) : FirstAccess (m >>= f) vm x :=
  first_bind_right hr (fun e he => decide_eq_false (hq e he)) h

/-- The first access is made by the operation. -/
theorem first_execute (rA rB : Place) {x : Access} (hops : (operands ins).Returns vm (rA, rB) vm)
    (h : FirstAccess (apply host ins iip rA rB) vm x) : FirstAccess (execute host ins iip) vm x :=
  first_after hops quiet_operands h

variable (host iip) in
/-- Operations that read the first of two operands do that before anything else. -/
theorem apply_readsFirst (rA rB : Place) (hop : ins.op = some opc) (h : opc.readsFirst) :
    ∃ k, apply host ins iip rA rB = read ins rA ins.imd >>= k ∧ ∀ v t off addr, (opc = .and → v ≠ 0) → (opc = .or → v = 0) →
      rB = .ram off addr → FirstAccess (k v) t ⟨.ram off addr, ins.modeB.size⟩ := by
  rw [apply, hop]
  cases opc <;> cases h
  case and =>
    refine ⟨_, rfl, fun v t off addr hv _ hB => ?_⟩
    subst hB
    rw [if_neg (by simpa using hv rfl)]
    exact first_bind_left first_read
  case or =>
    refine ⟨_, rfl, fun v t off addr _ hv hB => ?_⟩
    subst hB
    rw [if_neg (by simpa using hv rfl)]
    exact first_bind_left first_read
  all_goals
    refine ⟨_, rfl, fun v t off addr _ _ hB => ?_⟩
    subst hB
    exact first_bind_left first_read

/-- The other operations on two operands read the second one first. -/
theorem apply_readsSecond {off addr : U64} (rA : Place) (hop : ins.op = some opc) (h : opc.readsSecond)
    (h' : opc.readsFirst = false) : FirstAccess (apply host ins iip rA (.ram off addr)) vm ⟨.ram off addr, ins.modeB.size⟩ := by
  rw [apply, hop]
  cases opc <;> cases h <;> cases h'
  all_goals exact first_bind_left first_read

theorem first_takesFirst {regs : Register → U64} {byte : U8} {mode : Mode} {n : Register} (h : ins.TakesFirst opc mode n)
    (hreads : opc.readsFirst) : FirstAccess (execute host ins iip) (probeVm regs byte)
      ⟨.ram (((regs n).setWidth 32).setWidth 64 + 0) (regs n + 0), mode.size⟩ := by
  obtain ⟨p, hp⟩ := placeB_probe regs byte h.rb
  refine first_execute (.ram (((regs n).setWidth 32).setWidth 64 + 0) (regs n + 0)) p ?_ ?_
  · rw [operands, h.osz, h.ra, h.iam]
    exact returns_bind.mpr ⟨_, _, placeReg_probe n 0, returns_bind.mpr ⟨_, _, hp, returns_pure.mpr ⟨rfl, rfl⟩⟩⟩
  · obtain ⟨k, hk, -⟩ := apply_readsFirst host iip (.ram (((regs n).setWidth 32).setWidth 64 + 0) (regs n + 0)) p
      h.op hreads
    rw [hk, ← h.imd]
    exact first_bind_left first_read

/-- Registers with an address, a stack and the flags for a jump. -/
def probeRegs (opc : OpCode) (a : U64) : Register → U64
  | .sp => 0x80000000
  | .flg => if opc = .jmpnz then 0 else 0xE0
  | _ => a

theorem first_jumpIf {flag off addr : U64} {set : Bool} {mode : Mode} (h : (vm.reg .flg &&& flag != 0) = set) :
    FirstAccess (jumpIf ins (.ram off addr) mode iip flag set) vm ⟨.ram off addr, mode.size⟩ := by
  refine first_after (getReg_returns.mpr ⟨rfl, rfl⟩) getReg_always ?_
  rw [if_pos h]
  exact first_bind_left first_read

theorem first_push {off addr : U64} {mode : Mode} (h : vm.CanPush (vm.reg .sp)) :
    FirstAccess (push (read ins (.ram off addr) mode)) vm ⟨.ram off addr, mode.size⟩ := by
  obtain ⟨hsb, hsize⟩ := h
  refine first_after (pushn_none_returns.mpr ⟨hsb, ?_, rfl, rfl⟩) pushn_always (first_bind_left first_read)
  rw [BitVec.le_def]
  exact (Nat.le_add_right _ 8).trans hsize

theorem first_call {off addr : U64} {mode : Mode} (h : vm.CanPush (vm.reg .sp)) (h' : vm.CanPush (vm.reg .sp - 8)) :
    FirstAccess (call ins (.ram off addr) mode iip) vm ⟨.ram off addr, mode.size⟩ := by
  refine first_after ((push_getReg_returns (r := .ip) (u := ()) nofun).mpr ⟨h, rfl⟩) (push_always fun _ => getReg_always) ?_
  refine first_after ((push_getReg_returns (r := .bp) (u := ()) nofun).mpr ⟨?_, rfl⟩) (push_always fun _ => getReg_always) ?_
  · rw [Vm.pushed, Vm.reg_setBytes, Vm.reg_setReg]
    exact h'
  · refine first_after (getReg_returns.mpr ⟨rfl, rfl⟩) getReg_always ?_
    exact first_after (setReg_returns (u := ()).mpr rfl) setReg_always (first_bind_left first_read)

/-- An operation reads its only operand before any other access to memory. -/
theorem apply_readsOnly {off addr a : U64} (hop : ins.op = some opc) (h : opc.readsOnly) (hne : opc ≠ .puts) :
    FirstAccess (apply host ins iip (.ram off addr) .null) (probeVm (probeRegs opc a) 0) ⟨.ram off addr, ins.modeB.size⟩ := by
  have hpush : (probeVm (probeRegs opc a) 0).CanPush 0x80000000 := by
    change (0 : U64) < _ ∧ _ ≤ (0xFFFFFFFF : U32).toNat
    decide
  have hpush' : (probeVm (probeRegs opc a) 0).CanPush (0x80000000 - 8) := by
    change (0 : U64) < _ ∧ _ ≤ (0xFFFFFFFF : U32).toNat
    decide
  have hset : ((0xE0 : U64) &&& flgZero != 0) = true ∧ ((0xE0 : U64) &&& flgGreater != 0) = true ∧
      ((0xE0 : U64) &&& flgLess != 0) = true ∧ ((0 : U64) &&& flgZero != 0) = false := by decide
  rw [apply, hop]
  cases opc <;> cases h
  case puts => exact absurd rfl hne
  case jmpz => exact first_jumpIf hset.1
  case jmpg => exact first_jumpIf hset.2.1
  case jmps => exact first_jumpIf hset.2.2.1
  case jmpnz => exact first_jumpIf hset.2.2.2
  case push => exact first_push hpush
  case call => exact first_call hpush hpush'
  all_goals exact first_bind_left first_read

theorem first_only {off addr a : U64} (hosz : ins.osz = 2) (hop : ins.op = some opc) (h : opc.readsOnly) (hne : opc ≠ .puts)
    (hp : (placeOnly ins).Returns (probeVm (probeRegs opc a) 0) (.ram off addr) (probeVm (probeRegs opc a) 0)) :
    FirstAccess (execute host ins iip) (probeVm (probeRegs opc a) 0) ⟨.ram off addr, ins.modeB.size⟩ := by
  refine first_execute _ _ ?_ (apply_readsOnly hop h hne)
  rw [operands, hosz]
  exact returns_bind.mpr ⟨_, _, hp, returns_pure.mpr ⟨rfl, rfl⟩⟩

/-- Instructions with the same effect have the same effect once their operands are found. -/
theorem same_apply {ins' : Instruction} {vm' : Vm} {rA rB : Place}
    (h : SameEffect (execute host ins iip) (execute host ins' iip) vm) (hops : SameEffect (operands ins) (operands ins') vm)
    (hr : (operands ins).Returns vm (rA, rB) vm') :
    SameEffect (apply host ins iip rA rB) (apply host ins' iip rA rB) vm' := by
  have hsame : SameEffect (execute host ins iip) (operands ins >>= fun r => apply host ins' iip r.1 r.2) vm :=
    h.trans (same_bind hops fun _ _ _ => same_refl).symm
  exact hsame.of_bind hr

/-- When two operations have the same effect, they read the second operand in the same width. -/
theorem modeB_of_same {ins' : Instruction} {rA : Place} {off addr : U64}
    (h : SameEffect (apply host ins iip rA (.ram off addr)) (apply host ins' iip rA (.ram off addr)) vm)
    (hop : ins.op = some opc) (hop' : ins'.op = some opc) (himd : ins'.imd = ins.imd) (hA : rA ≠ .imm)
    (hreads : opc.readsSecond) (hp : rA.Present vm.ram.size ins.imd.size) (hand : opc = .and → vm.readAt ins rA ins.imd ≠ 0)
    (hor : opc = .or → vm.readAt ins rA ins.imd = 0) : ins.modeB.size = ins'.modeB.size := by
  cases hfirst : opc.readsFirst with
  | false =>
    exact congrArg Access.width ((apply_readsSecond rA hop' hreads hfirst).unique (h.first (apply_readsSecond rA hop hreads hfirst)))
  | true =>
    obtain ⟨k, hk, hnext⟩ := apply_readsFirst host iip rA (.ram off addr) hop hfirst
    obtain ⟨k', hk', hnext'⟩ := apply_readsFirst host iip rA (.ram off addr) hop' hfirst
    have hread : read ins' rA ins'.imd = read ins rA ins.imd := by
      rw [himd]
      cases rA with
      | imm => exact absurd rfl hA
      | _ => rfl
    rw [hk, hk', hread] at h
    have hrest := h.of_bind (read_returns.mpr ⟨hp, rfl, rfl⟩)
    exact congrArg Access.width ((hnext' _ _ off addr hand hor rfl).unique (hrest.first (hnext _ _ off addr hand hor rfl)))

end VmM

section NotEquivalent
open Prog
variable {as : AssemblerCtx} {opc : OpCode} {mode w : Mode} {head : ArgHead} {a : U64}

theorem Mode.size_inj {m m' : Mode} (h : m.size = m'.size) : m = m' := by cases m <;> cases m' <;> first | rfl | cases h

theorem range_probe {regs : Register → U64} {byte : U8} (ha : a.toNat + mode.size < 2 ^ 32) :
    a.toNat + mode.size ≤ (probeVm regs byte).ram.size.toNat := by
  have hsize : (probeVm regs byte).ram.size = 0xFFFFFFFF#32 := rfl
  rw [hsize, BitVec.toNat_ofNat]
  omega

theorem only_of_equivalent (h : head.Addresses as a w) (ha : a.toNat + mode.size < 2 ^ 32) (hreads : opc.readsOnly)
    (heq : Equivalent as opc mode (fun x => [x]) head a) : opc = .puts ∨ w = mode := by
  by_cases hne : opc = .puts
  · exact .inl hne
  · refine .inr (Mode.size_inj ?_)
    have hsame := heq .r0 ⟨fun _ _ _ vm => .ok () vm⟩ 0 (probeVm (VmM.probeRegs opc a) 0) rfl (range_probe ha)
    rw [decoded_only h, decoded_only_reg] at hsame
    have hop := OpCode.ofNat?_toNat opc
    have himm := hsame.first (VmM.first_only rfl hop hreads hne (returns_bind.mpr ⟨_, _, VmM.mem_probe _, returns_pure.mpr ⟨rfl, rfl⟩⟩))
    exact (congrArg Access.width (himm.unique (VmM.first_only rfl hop hreads hne (VmM.placeReg_probe .r0 0)))).symm

theorem not_equivalent_first (h : head.Addresses as a w) (ha : a.toNat + mode.size < 2 ^ 32) (hreads : opc.readsFirst) (y : Arg) :
    ¬Equivalent as opc mode (fun x => [x, y]) head a := by
  intro heq
  obtain ⟨n, hn, himm⟩ := decoded_first opc mode h y
  have hreg := decoded_first_reg as opc mode .r4 y
  let regs : Register → U64 := Function.update (fun _ => a + 1) .r4 a
  have ha4 : regs .r4 = a := Function.update_self ..
  have hsame := heq .r4 ⟨fun _ _ _ vm => .ok () vm⟩ 0 (probeVm regs 0) ha4 (range_probe ha)
  have hfirst := (hsame.first (VmM.first_takesFirst himm hreads)).unique (VmM.first_takesFirst hreg hreads)
  have haddr : regs .r4 + 0 = regs n + 0 := (Place.ram.inj (congrArg Access.place hfirst)).2
  rw [add_zero, add_zero, ha4, show regs n = a + 1 from Function.update_of_ne hn ..] at haddr
  exact absurd (left_eq_add.mp haddr) (by decide)

/-- The value that the first operand has to have for the second one to be read. -/
def OpCode.probe : OpCode → U64
  | .or => 0
  | _ => 1

variable (mode) in
theorem readAt_probe {ins : Instruction} {regs : Register → U64} {q : Register} {isMem : Bool} {p : Place} {vm' : Vm}
    (hq : regs q = opc.probe)
    (hp : (VmM.placeReg ⟨q.toNat, q.toNat_lt⟩ isMem 0).Returns (probeVm regs (opc.probe.setWidth 8)) p vm') :
    p.Present 0xFFFFFFFF mode.size ∧
      (opc = .and → (probeVm regs (opc.probe.setWidth 8)).readAt ins p mode ≠ 0) ∧
      (opc = .or → (probeVm regs (opc.probe.setWidth 8)).readAt ins p mode = 0) := by
  cases isMem with
  | false =>
    obtain ⟨rfl, -⟩ := returns_pure.mp hp
    have hval : (probeVm regs (opc.probe.setWidth 8)).readAt ins (.reg ⟨q.toNat, q.toNat_lt⟩) mode =
        signTrunc mode.size opc.probe := by
      rw [Vm.readAt, Vm.reg?, Register.ofNat?_toNat, ← hq]
      rfl
    rw [hval]
    refine ⟨q.toNat_lt_count, ?_, ?_⟩ <;> rintro rfl <;> cases mode <;> decide
  | true =>
    obtain ⟨rfl, -⟩ := (VmM.placeReg_probe q 0).unique hp
    have hval : (probeVm regs (opc.probe.setWidth 8)).readAt ins
        (.ram (((regs q).setWidth 32).setWidth 64 + 0) (regs q + 0)) mode =
          leSigned 64 mode.size (List.replicate mode.size (opc.probe.setWidth 8)) := by
      simp only [Vm.readAt, Memory.slice, probeVm, List.map_const', List.length_range]
    rw [hval]
    refine ⟨?_, ?_, ?_⟩
    · rw [hq]
      have hprobe : opc.probe = 0 ∨ opc.probe = 1 := by cases opc <;> decide
      change _ ≤ (0xFFFFFFFF : U32).toNat
      rcases hprobe with h | h <;> rw [h] <;> cases mode <;> decide
    · rintro rfl
      cases mode <;> decide
    · rintro rfl
      cases mode <;> decide

theorem second_of_equivalent (h : head.Addresses as a w) (ha : a.toNat + mode.size < 2 ^ 32) (hreads : opc.readsSecond)
    {y : Arg} (hy : y.ea = none) (heq : Equivalent as opc mode (fun x => [y, x]) head a) : w = mode := by
  obtain ⟨q, m, himm, hreg⟩ := decoded_second opc mode h hy
  obtain ⟨r, hr⟩ : ∃ r : Register, r ≠ q := by
    cases q with
    | r0 => exact ⟨.r1, nofun⟩
    | _ => exact ⟨.r0, nofun⟩
  let regs : Register → U64 := Function.update (fun _ => a) q opc.probe
  let vm := probeVm regs (opc.probe.setWidth 8)
  have hregs : regs r = a := Function.update_of_ne hr ..
  have hra : vm.reg r = a := hregs
  have hsame := heq r ⟨fun _ _ _ vm => .ok () vm⟩ 0 vm hra (range_probe ha)
  rw [himm, hreg r] at hsame
  obtain ⟨p, hp⟩ : ∃ p, (VmM.placeReg ⟨q.toNat, q.toNat_lt⟩ y.isMem 0).Returns vm p vm := by
    cases y.isMem with
    | false => exact ⟨_, returns_pure.mpr ⟨rfl, rfl⟩⟩
    | true => exact ⟨_, VmM.placeReg_probe q 0⟩
  have hpne : p ≠ .imm := by
    rintro rfl
    exact VmM.placeReg_ne_imm hp
  have happly := VmM.same_apply hsame (VmM.same_second hra) (returns_bind.mpr ⟨_, _, hp, returns_bind.mpr ⟨_, _,
    returns_bind.mpr ⟨_, _, VmM.mem_probe _, returns_pure.mpr ⟨rfl, rfl⟩⟩, returns_pure.mpr ⟨rfl, rfl⟩⟩⟩)
  obtain ⟨hpresent, hand, hor⟩ := readAt_probe mode (Function.update_self ..) hp
  have hop := OpCode.ofNat?_toNat opc
  exact Mode.size_inj (VmM.modeB_of_same happly hop hop rfl hpne hreads hpresent hand hor)

end NotEquivalent

/-- When an operand that is written as an address in memory has the same effect as one in a register that holds it:
    for the second or only operand when the width that the assembler chooses for the address is that of the
    instruction, and for the first of two never. -/
theorem VmM.execute_addressing {as : AssemblerCtx} {opc : OpCode} {mode w : Mode} {head : ArgHead} {a : U64}
    (h : head.Addresses as a w) (ha : a.toNat + mode.size < 2 ^ 32) :
    (opc.readsOnly → (Equivalent as opc mode (fun x => [x]) head a ↔ opc = .puts ∨ w = mode)) ∧
    (opc.readsSecond → ∀ y : Arg, y.ea = none → (Equivalent as opc mode (fun x => [y, x]) head a ↔ w = mode)) ∧
    (opc.readsFirst → ∀ y : Arg, ¬Equivalent as opc mode (fun x => [x, y]) head a) :=
  ⟨fun hreads => ⟨only_of_equivalent h ha hreads, equivalent_only h hreads⟩,
    fun hreads _ hy => ⟨second_of_equivalent h ha hreads hy, equivalent_second h hreads hy⟩,
    fun hreads y => not_equivalent_first h ha hreads y⟩

/-- `inc.b [16]` -/
theorem VmM.execute_addressing_inc :
    Equivalent (.init [] endRange [] fun _ => 0) .inc .byte (fun x => [x]) (.int 16 false) 16 :=
  ((execute_addressing (.int 16 false) (by decide)).1 rfl).mpr (.inr rfl)

/-- What is decoded from the code of an assembled program is the instruction of its source, if no reference in it is
    left to the linker. -/
theorem Assembled.decodes_decoded {prog : List Stmt} {lines : List Line} {as : AssemblerCtx} {db : Nat} {code : Code}
    {instrs : List Instruction} {j : Nat} {line : Line} (h : Assembled prog lines as db code instrs) (hj : lines[j]? = some line)
    (hp : line.pending = []) : ∃ n, code.instructionAt {} (emitOffset db instrs j) =
      some (n, decoded line.ctx line.src.opc line.src.mode line.src.args) := by
  have hsum : linkSum as db (as.instructions.map Instruction.linkSize) j = 0 := by
    rw [h.collected.linkSum_eq hj, hp, if_pos rfl, List.map_nil, List.sum_nil, sub_zero]
  have hins : instrs[j]? = some (line.record.plus 0) := by
    rw [h.linked, hsum, h.collected.records, List.getElem?_map, hj]
    rfl
  obtain ⟨n, hd, -⟩ := h.image.decodes hins
  have hrec : line.record.plus 0 = line.record := line.record.plus_zero
  rw [hrec] at hd
  exact ⟨n, Code.instructionAt_of_decodes hd⟩

/-- `mov r0 [16]` and `mov r0 [r1]` -/
def addressMove : List Token :=
  [wordToken .tokIdentifier ['m', 'o', 'v'], wordToken .tokIdentifier ['r', '0'], wordToken .tokLBracket ['['],
    wordToken .tokInteger ['1', '6'] (.int 16), wordToken .tokRBracket [']']]

def indirectMove : List Token :=
  [wordToken .tokIdentifier ['m', 'o', 'v'], wordToken .tokIdentifier ['r', '0'], wordToken .tokLBracket ['['],
    wordToken .tokIdentifier ['r', '1'], wordToken .tokRBracket [']']]

/-- Eight bytes are read from the address in a register, and one from the address that is written. -/
theorem AsmM.address_not_equivalent :
    ∃ n code as n' code' as', (assemble .empty).Returns (.init addressMove endRange [] fun _ => 0) (n, code) as ∧
      as.errors = 0 ∧ (assemble .empty).Returns (.init indirectMove endRange [] fun _ => 0) (n', code') as' ∧ as'.errors = 0 ∧
      ∃ k dec k' dec', code.instructionAt {} 16 = some (k, dec) ∧ code'.instructionAt {} 16 = some (k', dec') ∧
        ∃ (host : Host) (vm : Vm), vm.reg .r1 = 16 ∧ ∃ t t', (VmM.execute host dec 0).Returns vm () t ∧
          (VmM.execute host dec' 0).Returns vm () t' ∧ t.reg .r0 = 1 ∧ t'.reg .r0 = 0x0101010101010101 := by
  let dec : Instruction := { osz := 3, opc := 24, rmd := .imm, imd := .quad, ibm := true, ii := 16 }
  let dec' : Instruction := { osz := 3, opc := 24, imd := .quad, rb := 1, ibm := true }
  obtain ⟨⟨n, code⟩, as, h, htest⟩ := Prog.exists_of_passes (m := assemble .empty) (s := .init addressMove endRange [] fun _ => 0)
    (p := fun r as' => as'.errors = 0 ∧ r.2.instructionAt {} 16 = some (4, dec)) (by decide +kernel)
  obtain ⟨⟨n', code'⟩, as', h', htest'⟩ := Prog.exists_of_passes (m := assemble .empty)
    (s := .init indirectMove endRange [] fun _ => 0)
    (p := fun r as' => as'.errors = 0 ∧ r.2.instructionAt {} 16 = some (3, dec')) (by decide +kernel)
  obtain ⟨herr, hdec⟩ := of_decide_eq_true htest
  obtain ⟨herr', hdec'⟩ := of_decide_eq_true htest'
  let host : Host := ⟨fun _ _ _ vm => .ok () vm⟩
  obtain ⟨⟨⟩, t, ht, hr⟩ := Prog.exists_of_passes (m := VmM.execute host dec 0) (s := probeVm (fun _ => 16) 1)
    (p := fun _ t => t.reg .r0 = 1) (by decide +kernel)
  obtain ⟨⟨⟩, t', ht', hr'⟩ := Prog.exists_of_passes (m := VmM.execute host dec' 0) (s := probeVm (fun _ => 16) 1)
    (p := fun _ t => t.reg .r0 = 0x0101010101010101) (by decide +kernel)
  exact ⟨n, code, as, n', code', as', h, herr, h', herr', 4, dec, 3, dec', hdec, hdec', host, probeVm (fun _ => 16) 1, rfl,
    t, t', ht, ht', of_decide_eq_true hr, of_decide_eq_true hr'⟩

end Cyntatic
