import Cyntatic.Vm.Execute

/-! # Steps of the machine

What the parts of `VM_execute` return, and that only reading and writing an operand leaves an event. -/

namespace Cyntatic
open Library

/-- What `VM_read` reads from an operand. -/
def Vm.readAt (vm : Vm) (instr : Instruction) (p : Place) (mode : Mode) : U64 :=
  match p with
  | .null => 0
  | .reg n => signTrunc mode.size ((vm.reg? n).getD 0)
  | .imm => signTrunc mode.size instr.ii
  | .ram off _ => leSigned 64 mode.size (vm.ram.slice off.toNat mode.size)

/-- The bytes of an operand exist: an access of this width goes through. -/
def Place.Present (size : U32) (width : Nat) (p : Place) : Prop :=
  match p with
  | .null => False
  | .reg n => n < Register.count
  | .imm => True
  | .ram off _ => off.toNat + width ≤ size.toNat

/-- `vm` after `VM_write` to an operand that is present. -/
def Vm.writeAt (vm : Vm) (p : Place) (v : U64) (mode : Mode) : Vm :=
  match p with
  | .null | .imm => vm
  | .reg n => match Register.ofNat? n with
    | some r => vm.setReg r (mergeLow mode.size (vm.reg r) v)
    | none => vm
  | .ram off _ => vm.setBytes off.toNat (leBytes mode.size v)

/-- There is room on the stack for a word below `sp`. -/
def Vm.CanPush (vm : Vm) (sp : U64) : Prop :=
  vm.ram.sb.setWidth 64 < sp - 8 ∧ ((sp - 8).setWidth 32).toNat + 8 ≤ vm.ram.size.toNat

/-- There is a word on the stack. -/
def Vm.CanPop (vm : Vm) : Prop :=
  vm.reg .sp + 8 ≤ vm.ram.size.setWidth 64 ∧ ((vm.reg .sp).setWidth 32).toNat + 8 ≤ vm.ram.size.toNat

instance (vm : Vm) (sp : U64) : Decidable (vm.CanPush sp) := inferInstanceAs (Decidable (_ ∧ _))
instance (vm : Vm) : Decidable vm.CanPop := inferInstanceAs (Decidable (_ ∧ _))

/-- `vm` after `VM_push` of a value. -/
def Vm.pushed (vm : Vm) (v : U64) : Vm :=
  (vm.setReg .sp (vm.reg .sp - 8)).setBytes ((vm.reg .sp - 8).setWidth 32).toNat (leBytes 8 v)

theorem Access.Sandboxed.present {size : U32} {p : Place} {w : Nat} (h : Access.Sandboxed size ⟨p, w⟩) :
    p.Present size w := by
  cases p with
  | null => exact h
  | reg n => exact h
  | imm => exact h
  | ram off addr =>
    obtain ⟨rfl, h⟩ := h
    exact h

theorem Vm.reg?_eq_some {vm : Vm} {n : Fin 16} {v : U64} : vm.reg? n = some v ↔ n < Register.count ∧ v = (vm.reg? n).getD 0 := by
  have hiff := Register.ofNat?_isSome_iff (n := n)
  unfold Vm.reg?
  cases hr : Register.ofNat? n with
  | none =>
    rw [hr] at hiff
    simp only [Option.map_none, reduceCtorEq, false_iff, not_and]
    intro h
    exact absurd (hiff.mpr h) (by simp)
  | some r =>
    rw [hr] at hiff
    simp only [Option.map_some, Option.some.injEq, Option.getD_some]
    exact ⟨fun h => ⟨hiff.mp rfl, h.symm⟩, fun h => h.2.symm⟩

namespace VmM
open Prog

variable {vm vm' : Vm} {P : Access → Prop}

/-! ### Registers and memory -/

@[simp] theorem getReg_returns {r : Register} {v : U64} : (getReg r).Returns vm v vm' ↔ v = vm.reg r ∧ vm' = vm := by
  simp [getReg, and_comm]

@[simp] theorem setReg_returns {r : Register} {v : U64} {u : Unit} :
    (setReg r v).Returns vm u vm' ↔ vm' = vm.setReg r v := returns_modify

@[simp] theorem print_returns {o : Output} {u : Unit} :
    (print o).Returns vm u vm' ↔ vm' = { vm with stdout := vm.stdout ++ [o] } := returns_modify

@[simp] theorem abort_returns {α : Type} {fmt : String} {args : List Nat} {a : α} :
    ¬(abort fmt args : VmM α).Returns vm a vm' := returns_stop

@[simp] theorem abortIf_returns {c : Prop} [Decidable c] {fmt : String} {args : List Nat} {u : Unit} :
    (abortIf c fmt args).Returns vm u vm' ↔ ¬c ∧ vm' = vm := returns_stopIf

@[simp] theorem mem_returns {addr : U32} {off : U64} :
    (mem addr).Returns vm off vm' ↔ addr ≤ vm.ram.size ∧ off = addr.setWidth 64 ∧ vm' = vm := by
  simp only [mem, returns_bind, returns_get, abortIf_returns, returns_pure, BitVec.not_lt]
  grind

@[simp] theorem load_returns {off : U64} {n : Nat} {bs : List U8} :
    (load off n).Returns vm bs vm' ↔ off.toNat + n ≤ vm.ram.size.toNat ∧ bs = vm.ram.slice off.toNat n ∧ vm' = vm := by
  simp only [load, returns_bind, returns_get, returns_stopIf, returns_pure, Nat.not_lt]
  grind

@[simp] theorem store_returns {off : U64} {bs : List U8} {u : Unit} :
    (store off bs).Returns vm u vm' ↔ off.toNat + bs.length ≤ vm.ram.size.toNat ∧ vm' = vm.setBytes off.toNat bs := by
  simp only [store, returns_bind, returns_get, returns_stopIf, returns_modify, Nat.not_lt]
  grind

@[simp] theorem loadWord_returns {off v : U64} :
    (loadWord off).Returns vm v vm' ↔
      off.toNat + 8 ≤ vm.ram.size.toNat ∧ v = leSigned 64 8 (vm.ram.slice off.toNat 8) ∧ vm' = vm := by
  simp only [loadWord, returns_bind, load_returns, returns_pure]
  grind

@[simp] theorem storeWord_returns {off v : U64} {u : Unit} :
    (storeWord off v).Returns vm u vm' ↔
      off.toNat + 8 ≤ vm.ram.size.toNat ∧ vm' = vm.setBytes off.toNat (leBytes 8 v) := by
  rw [storeWord, store_returns, length_leBytes]

@[simp] theorem getReg_always {r : Register} : (getReg r).Always P vm := by simp [getReg]
@[simp] theorem setReg_always {r : Register} {v : U64} : (setReg r v).Always P vm := always_modify
@[simp] theorem print_always {o : Output} : (print o).Always P vm := always_modify
@[simp] theorem abort_always {α : Type} {fmt : String} {args : List Nat} : (abort fmt args : VmM α).Always P vm :=
  always_stop
@[simp] theorem abortIf_always {c : Prop} [Decidable c] {fmt : String} {args : List Nat} :
    (abortIf c fmt args).Always P vm := always_stopIf
@[simp] theorem mem_always {addr : U32} : (mem addr).Always P vm := by simp [mem]
@[simp] theorem load_always {off : U64} {n : Nat} : (load off n).Always P vm := by simp [load]
@[simp] theorem store_always {off : U64} {bs : List U8} : (store off bs).Always P vm := by simp [store]
@[simp] theorem loadWord_always {off : U64} : (loadWord off).Always P vm := by simp [loadWord]
@[simp] theorem storeWord_always {off v : U64} : (storeWord off v).Always P vm := by simp [storeWord]

/-! ### Operands -/

variable {instr : Instruction} {p : Place} {mode : Mode}

@[simp] theorem read_returns {v : U64} :
    (read instr p mode).Returns vm v vm' ↔ p.Present vm.ram.size mode.size ∧ v = vm.readAt instr p mode ∧ vm' = vm := by
  cases p with
  | null => simp [read, Place.Present]
  | reg n =>
    simp only [read, Place.Present, Vm.readAt, returns_bind, returns_emit, returns_get, returns_ofOption, returns_pure,
      Vm.reg?_eq_some]
    grind
  | imm =>
    simp only [read, Place.Present, Vm.readAt, returns_bind, returns_emit, returns_pure]
    grind
  | ram off addr =>
    simp only [read, Place.Present, Vm.readAt, returns_bind, returns_emit, load_returns, returns_pure]
    grind

@[simp] theorem write_returns {v : U64} {u : Unit} :
    (write p v mode).Returns vm u vm' ↔ p.Present vm.ram.size mode.size ∧ vm' = vm.writeAt p v mode := by
  cases p with
  | null => simp [write, Place.Present]
  | reg n =>
    have hiff := Register.ofNat?_isSome_iff (n := n)
    simp only [write, Place.Present, Vm.writeAt, returns_bind, returns_emit, returns_ofOption, getReg_returns, setReg_returns]
    cases hr : Register.ofNat? n with
    | none =>
      rw [hr] at hiff
      simp only [reduceCtorEq, false_and, exists_false, and_false, false_iff, not_and]
      intro h
      exact absurd (hiff.mpr h) (by simp)
    | some r =>
      rw [hr] at hiff
      simp only [Option.some.injEq]
      grind
  | imm =>
    simp only [write, Place.Present, Vm.writeAt, returns_bind, returns_emit, returns_pure]
    grind
  | ram off addr =>
    simp only [write, Place.Present, Vm.writeAt, returns_bind, returns_emit, store_returns, length_leBytes]
    grind

@[simp] theorem read_always : (read instr p mode).Always P vm ↔ P ⟨p, mode.size⟩ := by
  cases p <;> simp [read]

@[simp] theorem write_always {v : U64} : (write p v mode).Always P vm ↔ P ⟨p, mode.size⟩ := by
  cases p <;> simp [write]

theorem placeReg_same {n : Fin 16} {i : Bool} {d : U64} (h : (placeReg n i d).Returns vm p vm') : vm' = vm := by
  unfold placeReg at h
  split at h
  · simp only [regAddr, returns_bind, returns_emit, returns_get, returns_ofOption, mem_returns, returns_pure] at h
    obtain ⟨_, _, ⟨_, _, rfl, _, _, ⟨rfl, rfl⟩, -, rfl⟩, _, _, ⟨-, -, rfl⟩, -, rfl⟩ := h
    rfl
  · exact (returns_pure.mp h).2

theorem placeImm_same {i : Bool} (h : (placeImm instr i).Returns vm p vm') : vm' = vm := by
  unfold placeImm at h
  split at h
  · simp only [returns_bind, mem_returns, returns_pure] at h
    obtain ⟨_, _, ⟨-, -, rfl⟩, -, rfl⟩ := h
    rfl
  · exact (returns_pure.mp h).2

/-- Finding the operands changes nothing. -/
theorem operands_same {r : Place × Place} (h : (operands instr).Returns vm r vm') : vm' = vm := by
  unfold operands at h
  split at h
  · exact absurd h returns_stop
  · exact (returns_pure.mp h).2
  · simp only [returns_bind, returns_pure, placeOnly] at h
    obtain ⟨p, t, hp, rfl, rfl⟩ := h
    split at hp
    · exact placeReg_same hp
    · exact placeImm_same hp
  · simp only [returns_bind, returns_pure, placeB] at h
    obtain ⟨p, t, hp, q, t', hq, rfl, rfl⟩ := h
    rw [placeReg_same hp] at hq
    split at hq
    · exact placeReg_same hq
    · exact placeImm_same hq

theorem execute_returns {host : Host} {iip : U64} {u : Unit} :
    (execute host instr iip).Returns vm u vm' ↔
      ∃ rA rB, (operands instr).Returns vm (rA, rB) vm ∧ (apply host instr iip rA rB).Returns vm u vm' := by
  simp only [execute, returns_bind]
  constructor
  · rintro ⟨⟨rA, rB⟩, t, ho, ha⟩
    obtain rfl := operands_same ho
    exact ⟨rA, rB, ho, ha⟩
  · rintro ⟨rA, rB, ho, ha⟩
    exact ⟨(rA, rB), vm, ho, ha⟩

/-! ### The stack -/

variable {data : Option Data} {count : U8} {off v : U64} {u : Unit}

@[simp] theorem pushn_none_returns :
    (pushn none count).Returns vm off vm' ↔
      vm.ram.sb.setWidth 64 < vm.reg .sp - wordsSize count ∧ (vm.reg .sp - wordsSize count).setWidth 32 ≤ vm.ram.size ∧
        off = ((vm.reg .sp - wordsSize count).setWidth 32).setWidth 64 ∧
        vm' = vm.setReg .sp (vm.reg .sp - wordsSize count) := by
  simp only [pushn, copyData, returns_bind, returns_get, abortIf_returns, setReg_returns, returns_pure, getReg_returns,
    mem_returns, BitVec.not_le]
  constructor
  · rintro ⟨_, _, ⟨rfl, rfl⟩, _, _, ⟨hsb, rfl⟩, _, _, rfl, _, _, ⟨-, rfl⟩, _, _, ⟨rfl, rfl⟩, hle, rfl, rfl⟩
    rw [Vm.reg_setReg] at hle ⊢
    exact ⟨hsb, hle, rfl, rfl⟩
  · rintro ⟨hsb, hle, rfl, rfl⟩
    refine ⟨_, _, ⟨rfl, rfl⟩, (), _, ⟨hsb, rfl⟩, (), _, rfl, (), _, ⟨trivial, rfl⟩, _, _, ⟨rfl, rfl⟩, ?_⟩
    rw [Vm.reg_setReg]
    exact ⟨hle, rfl, rfl⟩

@[simp] theorem popn_returns :
    (popn count).Returns vm off vm' ↔
      vm.reg .sp + wordsSize count ≤ vm.ram.size.setWidth 64 ∧ (vm.reg .sp).setWidth 32 ≤ vm.ram.size ∧
        off = ((vm.reg .sp).setWidth 32).setWidth 64 ∧ vm' = vm.setReg .sp (vm.reg .sp + wordsSize count) := by
  simp only [popn, returns_bind, returns_get, abortIf_returns, setReg_returns, returns_pure,
    mem_returns, BitVec.not_lt]
  constructor
  · rintro ⟨_, _, ⟨rfl, rfl⟩, _, _, ⟨hsize, rfl⟩, _, _, ⟨hle, rfl, rfl⟩, _, _, rfl, rfl, rfl⟩
    exact ⟨hsize, hle, rfl, rfl⟩
  · rintro ⟨hsize, hle, rfl, rfl⟩
    exact ⟨_, _, ⟨rfl, rfl⟩, (), _, ⟨hsize, rfl⟩, _, _, ⟨hle, rfl, rfl⟩, (), _, rfl, rfl, rfl⟩

theorem toNat_setWidth_off (x : U32) : (x.setWidth 64).toNat = x.toNat := by
  rw [BitVec.toNat_setWidth, Nat.mod_eq_of_lt (Nat.lt_trans x.isLt (by decide))]

/-- `VM_push` of a value that does not depend on memory. -/
theorem push_returns {m : VmM U64} {f : Vm → U64} (hm : ∀ t v t', m.Returns t v t' ↔ v = f t ∧ t' = t) :
    (push m).Returns vm u vm' ↔
      vm.CanPush (vm.reg .sp) ∧ vm' = vm.pushed (f (vm.setReg .sp (vm.reg .sp - 8))) := by
  have hone : wordsSize 1 = 8 := rfl
  simp only [push, returns_bind, pushn_none_returns, hone, hm, storeWord_returns]
  constructor
  · rintro ⟨_, _, ⟨hsb, -, rfl, rfl⟩, _, _, ⟨rfl, rfl⟩, hle, rfl⟩
    rw [toNat_setWidth_off] at hle ⊢
    exact ⟨⟨hsb, hle⟩, rfl⟩
  · rintro ⟨⟨hsb, hle⟩, rfl⟩
    refine ⟨_, _, ⟨hsb, ?_, rfl, rfl⟩, _, _, ⟨rfl, rfl⟩, ?_⟩
    · rw [BitVec.le_def]
      omega
    · rw [toNat_setWidth_off]
      exact ⟨hle, rfl⟩

@[simp] theorem push_pure_returns :
    (push (pure v)).Returns vm u vm' ↔ vm.CanPush (vm.reg .sp) ∧ vm' = vm.pushed v :=
  push_returns (f := fun _ => v) fun _ _ _ => returns_pure

theorem push_getReg_returns {r : Register} (hr : r ≠ .sp) :
    (push (getReg r)).Returns vm u vm' ↔ vm.CanPush (vm.reg .sp) ∧ vm' = vm.pushed (vm.reg r) := by
  rw [push_returns fun _ _ _ => getReg_returns, Vm.reg_setReg_of_ne _ _ hr]

@[simp] theorem pop_returns :
    pop.Returns vm v vm' ↔ vm.CanPop ∧ v = leSigned 64 8 (vm.ram.slice ((vm.reg .sp).setWidth 32).toNat 8) ∧
      vm' = vm.setReg .sp (vm.reg .sp + 8) := by
  have hone : wordsSize 1 = 8 := rfl
  simp only [pop, returns_bind, popn_returns, hone, loadWord_returns]
  constructor
  · rintro ⟨_, _, ⟨hsize, -, rfl, rfl⟩, hle, rfl, rfl⟩
    rw [toNat_setWidth_off] at hle ⊢
    exact ⟨⟨hsize, hle⟩, rfl, rfl⟩
  · rintro ⟨⟨hsize, hle⟩, rfl, rfl⟩
    refine ⟨_, _, ⟨hsize, ?_, rfl, rfl⟩, ?_⟩
    · rw [BitVec.le_def]
      omega
    · rw [toNat_setWidth_off]
      exact ⟨hle, rfl, rfl⟩

/-! ### The heap -/

@[simp] theorem alloc_returns {n a : U32} :
    (alloc n).Returns vm a vm' ↔ ∃ h, vm.heap.alloc n = some (a, h) ∧ vm' = { vm with heap := h } := by
  simp only [alloc, returns_bind, returns_get, returns_ofOption, returns_modify, returns_pure]
  constructor
  · rintro ⟨_, _, ⟨rfl, rfl⟩, ⟨a, h⟩, _, ⟨hr, rfl⟩, _, _, rfl, rfl, rfl⟩
    exact ⟨h, hr, rfl⟩
  · rintro ⟨h, hr, rfl⟩
    exact ⟨_, _, ⟨rfl, rfl⟩, (a, h), _, ⟨hr, rfl⟩, (), _, rfl, rfl, rfl⟩

@[simp] theorem dealloc_returns {a : U32} :
    (dealloc a).Returns vm u vm' ↔ ∃ b h, vm.heap.dealloc a = some (b, h) ∧ vm' = { vm with heap := h } := by
  simp only [dealloc, returns_bind, returns_get, returns_ofOption, returns_modify]
  constructor
  · rintro ⟨_, _, ⟨rfl, rfl⟩, ⟨b, h⟩, _, ⟨hr, rfl⟩, rfl⟩
    exact ⟨b, h, hr, rfl⟩
  · rintro ⟨b, h, hr, rfl⟩
    exact ⟨_, _, ⟨rfl, rfl⟩, (b, h), _, ⟨hr, rfl⟩, rfl⟩

@[simp] theorem alloc_always {n : U32} : (alloc n).Always P vm := by simp [alloc]

@[simp] theorem dealloc_always {n : U32} : (dealloc n).Always P vm := by simp [dealloc]

/-! ### Events of the stack -/

@[simp] theorem pushn_always : (pushn data count).Always P vm := by
  rcases data with _ | _ | _ <;> simp [pushn, copyData]

@[simp] theorem popn_always : (popn count).Always P vm := by simp [popn]

@[simp] theorem pop_always : pop.Always P vm := by simp [pop]

theorem push_always {m : VmM U64} (hm : ∀ t, m.Always P t) : (push m).Always P vm := by simp [push, hm]

end VmM

end Cyntatic
