import Cyntatic.Theorems.Sandbox

/-! # Arithmetic

An operation on two operands leaves the low bytes of its result in the first operand, and changes nothing else. The
operations of C that it uses are defined, unless a divisor is zero, a quotient is no `i64` or an amount to shift by is
none of 0 to 63: no instruction checks that. -/

namespace Cyntatic
open Library

/-! ### Undefined arithmetic -/

/-- The operations of C that `VM_execute` came to are defined. -/
def Stop.Defined (e : Stop) : Prop := e ≠ .shift ∧ e ≠ .division

/-- The operation is defined on the values of the operands. -/
def OpCode.DefinedOn (opc : Option OpCode) (a b : U64) : Prop :=
  match opc with
  | some .div => b ≠ 0 ∧ ¬(a = BitVec.intMin 64 ∧ b = -1)
  | some .sar | some .sal => b.toNat < 64
  | _ => True

namespace Vm

/-- The instruction comes to read both of its operands. -/
def ReadsBoth (vm : Vm) (instr : Instruction) : Prop :=
  instr.osz ≠ 0 ∧ ((vm.operandA instr).AddrFits ∧ ¬(vm.operandA instr).Aborts vm.ram.size) ∧
    ((vm.operandB instr).AddrFits ∧ ¬(vm.operandB instr).Aborts vm.ram.size) ∧
    (vm.operandA instr).place.Present vm.ram.size instr.imd.size ∧
    (vm.operandB instr).place.Present vm.ram.size instr.modeB.size

/-- The operation is defined on its operands, if it comes to read them. -/
def DefinedArithmetic (vm : Vm) (instr : Instruction) : Prop :=
  vm.ReadsBoth instr → OpCode.DefinedOn instr.op (vm.readAt instr (vm.operandA instr).place instr.imd)
    (vm.readAt instr (vm.operandB instr).place instr.modeB)

end Vm

/-- The native functions use only arithmetic that is defined. -/
def Host.Defined (host : Host) : Prop := ∀ id argv n vm e vm', host.native id argv n vm = .stop e vm' → e.Defined

namespace VmM
open Prog

/-- A computation with no undefined arithmetic. -/
abbrev Defined {α : Type} (m : VmM α) (vm : Vm) : Prop := Ends Stop.Defined (fun _ _ => True) m vm

section Defined
variable {α β : Type} {m m' : VmM α} {f : α → VmM β} {a : α} {host : Host} {instr : Instruction} {rA rB p : Place}
  {ta tb mode : Mode} {count : U8} {data : Option Data} {vm : Vm}

theorem defined_bind : Defined (m >>= f) vm ↔ Ends Stop.Defined (fun a vm' => Defined (f a) vm') m vm := ends_bind

theorem defined_stopIf {c : Prop} [Decidable c] {e : Stop} (he : e.Defined) : Defined (stopIf c e) vm :=
  ends_stopIf (fun _ => he) fun _ => trivial

theorem defined_ofOption {e : Stop} {x : Option α} (he : e.Defined) : Defined (ofOption e x : VmM α) vm := by
  cases x with
  | none => exact he
  | some a => trivial

/-! ### The operations without undefined arithmetic -/

@[simp] theorem defined_abort {fmt : String} {args : List Nat} : (Stop.abort fmt args).Defined := ⟨nofun, nofun⟩
@[simp] theorem defined_wild : Stop.wild.Defined := ⟨nofun, nofun⟩
@[simp] theorem defined_register : Stop.register.Defined := ⟨nofun, nofun⟩
@[simp] theorem defined_unreachable : Stop.unreachable.Defined := ⟨nofun, nofun⟩
@[simp] theorem defined_overlap : Stop.overlap.Defined := ⟨nofun, nofun⟩
@[simp] theorem defined_heap : Stop.heap.Defined := ⟨nofun, nofun⟩

attribute [local simp] defined_bind defined_stopIf defined_ofOption

@[simp] theorem defined_abortIf {c : Prop} [Decidable c] {fmt : String} {args : List Nat} :
    Defined (abortIf c fmt args) vm := defined_stopIf defined_abort

@[simp] theorem defined_getReg {r : Register} : Defined (getReg r) vm := by simp [getReg]
@[simp] theorem defined_setReg {r : Register} {v : U64} : Defined (setReg r v) vm := trivial
@[simp] theorem defined_print {o : Output} : Defined (print o) vm := trivial
@[simp] theorem defined_mem {addr : U32} : Defined (mem addr) vm := by simp [mem]
@[simp] theorem defined_load {off : U64} {n : Nat} : Defined (load off n) vm := by simp [load]
@[simp] theorem defined_store {off : U64} {bs : List U8} : Defined (store off bs) vm := by simp [store]
@[simp] theorem defined_loadWord {off : U64} : Defined (loadWord off) vm := by simp [loadWord]
@[simp] theorem defined_storeWord {off v : U64} : Defined (storeWord off v) vm := by simp [storeWord]
@[simp] theorem defined_read : Defined (read instr p mode) vm := by cases p <;> simp [read]
@[simp] theorem defined_write {v : U64} : Defined (write p v mode) vm := by cases p <;> simp [write]

@[simp] theorem defined_pushn : Defined (pushn data count) vm := by
  rcases data with _ | _ | _ <;> simp [pushn, copyData]

theorem defined_push {n : VmM U64} (hn : ∀ vm, Defined n vm) : Defined (push n) vm := by simp [push, hn]
@[simp] theorem defined_popn : Defined (popn count) vm := by simp [popn]
@[simp] theorem defined_pop : Defined pop vm := by simp [pop]
@[simp] theorem defined_alloc {n : U32} : Defined (alloc n) vm := by simp [alloc]
@[simp] theorem defined_dealloc {n : U32} : Defined (dealloc n) vm := by simp [dealloc]
@[simp] theorem defined_jump {iip : U64} : Defined (jump instr rA tb iip) vm := by simp [jump]
@[simp] theorem defined_leave {n : U32} : Defined (leave data n) vm := by
  simp [leave, dropArgs, pushResults, defined_push]

@[simp] theorem defined_putString : Defined (putString p) vm := by cases p <;> simp [putString]

@[simp] theorem defined_putUtf8Chr {chr : U32} : Defined (putUtf8Chr chr) vm := by simp [putUtf8Chr, abort]

@[simp] theorem defined_placeReg {n : Fin 16} {i : Bool} {d : U64} : Defined (placeReg n i d) vm := by
  simp [placeReg, regAddr]

@[simp] theorem defined_placeImm {i : Bool} : Defined (placeImm instr i) vm := by simp [placeImm]

@[simp] theorem defined_operands : Defined (operands instr) vm := by
  unfold operands
  split <;> simp [placeOnly, placeB]

theorem defined_ncall (hhost : host.Defined) : Defined (ncall instr rA tb host) vm := by
  have hlift : ∀ id argv n vm, Defined (lift (host.native id argv n)) vm := fun id argv n vm =>
    ends_lift (fun _ _ _ => trivial) fun e vm' heq => hhost id argv n vm e vm' heq
  simp [ncall, hlift, nativeArgs, defined_push]

end Defined

/-! ### Divisions and shifts -/

section Operations
variable {host : Host} {instr : Instruction} {rA rB : Place} {iip : U64} {vm : Vm}

theorem defined_binary {f : U64 → U64 → Except Stop U64} {ta tb : Mode} {P : Prop}
    (hf : rA.Present vm.ram.size ta.size → rB.Present vm.ram.size tb.size →
      ((∀ e, f (vm.readAt instr rA ta) (vm.readAt instr rB tb) = .error e → e.Defined) ↔ P)) :
    Defined (binary instr rA rB ta tb f) vm ↔
      (rA.Present vm.ram.size ta.size ∧ rB.Present vm.ram.size tb.size → P) := by
  unfold binary
  rw [defined_bind, Ends.iff_returns defined_read]
  simp only [read_returns, defined_bind, Ends.iff_returns defined_read]
  constructor
  · rintro h ⟨hA, hB⟩
    refine (hf hA hB).mp fun e he => ?_
    have hstop := h _ _ ⟨hA, rfl, rfl⟩ _ _ ⟨hB, rfl, rfl⟩
    rw [he] at hstop
    exact hstop
  · rintro h _ _ ⟨hA, rfl, rfl⟩ _ _ ⟨hB, rfl, rfl⟩
    rcases hx : f _ _ with e | v
    · exact (hf hA hB).mpr (h ⟨hA, hB⟩) e hx
    · exact defined_write

theorem defined_apply (hhost : host.Defined) : Defined (apply host instr iip rA rB) vm ↔
    (rA.Present vm.ram.size instr.imd.size ∧ rB.Present vm.ram.size instr.modeB.size →
      OpCode.DefinedOn instr.op (vm.readAt instr rA instr.imd) (vm.readAt instr rB instr.modeB)) := by
  have hok : ∀ f : U64 → U64 → U64, Defined (binary instr rA rB instr.imd instr.modeB fun a b => .ok (f a b)) vm := fun f =>
    (defined_binary (P := True) fun _ _ => iff_of_true (fun e he => by cases he) trivial).mpr fun _ => trivial
  have hshift : ∀ f, Defined (binary instr rA rB instr.imd instr.modeB (shift f)) vm ↔
      (rA.Present vm.ram.size instr.imd.size ∧ rB.Present vm.ram.size instr.modeB.size →
        (vm.readAt instr rB instr.modeB).toNat < 64) := by
    intro f
    refine defined_binary fun _ _ => ?_
    unfold shift
    split
    · rename_i hlt
      exact iff_of_true (fun e he => by cases he) hlt
    · rename_i hge
      exact iff_of_false (fun h => (h _ rfl).1 rfl) hge
  have hdiv : Defined (binary instr rA rB instr.imd instr.modeB divide) vm ↔
      (rA.Present vm.ram.size instr.imd.size ∧ rB.Present vm.ram.size instr.modeB.size →
        vm.readAt instr rB instr.modeB ≠ 0 ∧
          ¬(vm.readAt instr rA instr.imd = BitVec.intMin 64 ∧ vm.readAt instr rB instr.modeB = -1)) := by
    refine defined_binary fun _ _ => ?_
    unfold divide
    split
    · rename_i hbad
      refine iff_of_false (fun h => (h _ rfl).2 rfl) ?_
      tauto
    · rename_i hgood
      refine iff_of_true (fun e he => by cases he) ?_
      tauto
  have hnone : ∀ {m : VmM Unit}, (∀ vm, Defined m vm) → (Defined m vm ↔
      (rA.Present vm.ram.size instr.imd.size ∧ rB.Present vm.ram.size instr.modeB.size → True)) := fun h =>
    iff_of_true (h vm) fun _ => trivial
  unfold apply OpCode.DefinedOn
  generalize instr.op = op
  rcases op with _ | opc
  · exact hnone fun _ => defined_abort
  · cases opc
    case div => exact hdiv
    case sar => exact hshift _
    case sal => exact hshift _
    case ncall => exact hnone fun _ => defined_ncall hhost
    case add | sub | xor | bor | band | mul => exact iff_of_true (hok _) fun _ => trivial
    all_goals
      refine hnone fun _ => ?_
      simp [defined_bind, defined_push, ret, popResults, jumpIf, unary, call, puts, alloca, rmem, shortCircuit, cmp, applyAlloc,
        abort]

end Operations

end VmM

end Cyntatic
