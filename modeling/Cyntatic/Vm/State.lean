import Cyntatic.Library.Prog
import Cyntatic.Vm.Code
import Cyntatic.Vm.Heap

/-! The state of the virtual machine (`vm.h`) and how its registers, its memory and its stack are read and
    written. A computation stops when the machine aborts, or where C leaves the behaviour undefined: at an
    access past the end of an array, say. Every access to an operand is an event. -/

namespace Cyntatic
open Library

/-- `Memory`: `base` is the host address of the memory, and `bytes` what it holds from there on. -/
structure Memory where
  base : U64
  sb : U32
  hb : U32
  hlm : U32
  size : U32
  bytes : Nat → U8

namespace Memory

/-- `n` bytes from an offset. -/
def slice (ram : Memory) (off n : Nat) : List U8 := (List.range n).map fun i => ram.bytes (off + i)

/-- The memory after some bytes are stored at an offset. -/
def store (ram : Memory) (off : Nat) (bs : List U8) : Memory :=
  { ram with bytes := fun i => if off ≤ i then bs.getD (i - off) (ram.bytes i) else ram.bytes i }

end Memory

/-- What the machine writes to `stdout`. -/
inductive Output where
  | bytes (bs : List U8)
  | number (n : Int)
  /-- The string at a host address. -/
  | pointer (p : U64)
  /-- The line that `alloca` prints: the mode and the count. -/
  | count (mode : Mode) (n : U32)
  deriving DecidableEq

/-- `VM`, with the heap that lies below its memory and what was written to `stdout`. -/
structure Vm where
  flags : U64
  regs : Register → U64
  code : Code
  ram : Memory
  heap : Heap
  stdout : List Output

/-- Why the machine stops. -/
inductive Stop where
  /-- `VM_abort` -/
  | abort (fmt : String) (args : List Nat)
  /-- `unreachable` -/
  | unreachable
  /-- A host address that is not in the memory of the machine is followed. -/
  | wild
  /-- A register past the end of `regs`. -/
  | register
  /-- A read past the end of the code. -/
  | code
  /-- A shift by a negative or too large amount. -/
  | shift
  /-- A quotient that does not exist or is not an `i64`. -/
  | division
  /-- `memcpy` between regions that overlap. -/
  | overlap
  /-- A list of the heap that does not end. -/
  | heap
  deriving DecidableEq

/-- Where an operand lies: `rA` and `rB` of `VM_execute`. For memory, `off` is the offset that is used, and
    `addr` the address that the operand denotes. -/
inductive Place where
  | null
  | reg (n : Fin 16)
  | imm
  | ram (off addr : U64)
  deriving DecidableEq

/-- An access to `width` bytes of an operand. -/
structure Access where
  place : Place
  width : Nat
  deriving DecidableEq

/-- The access stays in the registers, in the instruction or in the bytes of memory that the operand denotes. -/
def Access.Sandboxed (size : U32) (x : Access) : Prop :=
  match x.place with
  | .null => False
  | .reg n => n < Register.count
  | .imm => True
  | .ram off addr => off = addr ∧ addr.toNat + x.width ≤ size.toNat

instance (size : U32) (x : Access) : Decidable (x.Sandboxed size) :=
  match x with
  | ⟨.null, _⟩ => inferInstanceAs (Decidable False)
  | ⟨.reg n, _⟩ => inferInstanceAs (Decidable (n < Register.count))
  | ⟨.imm, _⟩ => inferInstanceAs (Decidable True)
  | ⟨.ram off addr, w⟩ => inferInstanceAs (Decidable (off = addr ∧ addr.toNat + w ≤ size.toNat))

/-- Computations of the machine. -/
abbrev VmM := Prog Access Stop Vm

/-- The low bytes of a word are replaced. -/
def mergeLow (n : Nat) (old new : U64) : U64 :=
  BitVec.ofNat 64 (old.toNat / 2 ^ (8 * n) * 2 ^ (8 * n) + new.toNat % 2 ^ (8 * n))

/-- Words as they lie in memory. -/
def wordBytes (vals : List U64) : List U8 := vals.flatMap (leBytes 8)

namespace Vm

/-- `REG` for a register that has a name. -/
def reg (vm : Vm) (r : Register) : U64 := vm.regs r

def setReg (vm : Vm) (r : Register) (v : U64) : Vm := { vm with regs := Function.update vm.regs r v }

def setBytes (vm : Vm) (off : Nat) (bs : List U8) : Vm := { vm with ram := vm.ram.store off bs }

/-- `REG` for a register number: `regs` has only `regCOUNT` elements. -/
def reg? (vm : Vm) (n : Fin 16) : Option U64 := (Register.ofNat? n).map vm.reg

section
variable (vm : Vm) (r r' : Register) (v v' : U64) (off : Nat) (bs : List U8)

@[simp] theorem reg_setReg : (vm.setReg r v).reg r = v := Function.update_self ..

theorem reg_setReg_of_ne {r r' : Register} (h : r' ≠ r) : (vm.setReg r v).reg r' = vm.reg r' :=
  Function.update_of_ne h ..

@[simp] theorem setReg_setReg : (vm.setReg r v).setReg r v' = vm.setReg r v' := by
  simp only [setReg, Function.update_idem]

@[simp] theorem setReg_reg : vm.setReg r (vm.reg r) = vm := by
  simp only [setReg, reg, Function.update_eq_self]

@[simp] theorem code_setReg : (vm.setReg r v).code = vm.code := rfl
@[simp] theorem ram_setReg : (vm.setReg r v).ram = vm.ram := rfl
@[simp] theorem heap_setReg : (vm.setReg r v).heap = vm.heap := rfl
@[simp] theorem reg_setBytes : (vm.setBytes off bs).reg r = vm.reg r := rfl
@[simp] theorem code_setBytes : (vm.setBytes off bs).code = vm.code := rfl
@[simp] theorem size_setBytes : (vm.setBytes off bs).ram.size = vm.ram.size := rfl
@[simp] theorem sb_setBytes : (vm.setBytes off bs).ram.sb = vm.ram.sb := rfl

end

end Vm

namespace VmM
open Prog

/-- `VM_abort` -/
def abort {α : Type} (fmt : String) (args : List Nat) : VmM α := stop (.abort fmt args)

/-- A check that fails with `VM_abort`. -/
def abortIf (c : Prop) [Decidable c] (fmt : String) (args : List Nat) : VmM Unit := stopIf c (.abort fmt args)

def getReg (r : Register) : VmM U64 := do return (← get).reg r

def setReg (r : Register) (v : U64) : VmM Unit := modify fun vm => vm.setReg r v

def print (o : Output) : VmM Unit := modify fun vm => { vm with stdout := vm.stdout ++ [o] }

/-- `MEM`: the offset of an address, which may be the first one past the end. -/
def mem (addr : U32) : VmM U64 := do
  let vm ← get
  abortIf (vm.ram.size < addr) "Memory access violation %x/%x" [addr.toNat, vm.ram.hlm.toNat]
  return addr.setWidth 64

/-- `n` bytes of memory at an offset. -/
def load (off : U64) (n : Nat) : VmM (List U8) := do
  let vm ← get
  stopIf (vm.ram.size.toNat < off.toNat + n) .wild
  return vm.ram.slice off.toNat n

/-- Bytes are written to memory at an offset. -/
def store (off : U64) (bs : List U8) : VmM Unit := do
  let vm ← get
  stopIf (vm.ram.size.toNat < off.toNat + bs.length) .wild
  modify fun vm => vm.setBytes off.toNat bs

/-- `->i` of a `Value` in memory. -/
def loadWord (off : U64) : VmM U64 := do return leSigned 64 8 (← load off 8)

def storeWord (off v : U64) : VmM Unit := store off (leBytes 8 v)

/-! ### Operands -/

/-- `VM_read` from an operand. -/
def read (instr : Instruction) (p : Place) (mode : Mode) : VmM U64 := do
  emit ⟨p, mode.size⟩
  match p with
  | .null => stop .wild
  | .reg n => return signTrunc mode.size (← ofOption .register ((← get).reg? n))
  | .imm => return signTrunc mode.size instr.ii
  | .ram off _ => return leSigned 64 mode.size (← load off mode.size)

/-- `VM_write` to an operand. What is written to the instruction is never read. -/
def write (p : Place) (v : U64) (mode : Mode) : VmM Unit := do
  emit ⟨p, mode.size⟩
  match p with
  | .null => stop .wild
  | .reg n =>
    let r ← ofOption .register (Register.ofNat? n)
    setReg r (mergeLow mode.size (← getReg r) v)
  | .imm => return ()
  | .ram off _ => store off (leBytes mode.size v)

/-- `&REG(vm, n)` when the register holds an address. -/
def regAddr (n : Fin 16) : VmM U64 := do
  emit ⟨.reg n, 8⟩
  ofOption .register ((← get).reg? n)

/-! ### The stack -/

/-- What `VM_pushn` copies: words of the memory, or of the host. -/
inductive Data where
  | ram (off : U64)
  | host (vals : List U64)

/-- Whether two regions of memory of the same size have a byte in common. -/
def overlaps (off off' : U64) (size : Nat) : Bool := off.toNat < off'.toNat + size && off'.toNat < off.toNat + size

/-- `u32 size = count << 3;` -/
def wordsSize (count : U8) : U64 := (count.setWidth 32 <<< 3 : U32).setWidth 64

/-- `if (data != NULL) memcpy(MEM(vm, REG(vm, sp)), data, size);` -/
def copyData (data : Option Data) (count : U8) : VmM Unit :=
  match data with
  | none => pure ()
  | some (.ram src) => do
    let dst ← mem ((← getReg .sp).setWidth 32)
    let bs ← load src (wordsSize count).toNat
    stopIf (overlaps dst src (wordsSize count).toNat) .overlap
    store dst bs
  | some (.host vals) => do
    let dst ← mem ((← getReg .sp).setWidth 32)
    stopIf (vals.length < count.toNat) .wild
    store dst (wordBytes (vals.take count.toNat))

/-- `VM_pushn` -/
def pushn (data : Option Data) (count : U8) : VmM U64 := do
  let vm ← get
  abortIf (vm.reg .sp - wordsSize count ≤ vm.ram.sb.setWidth 64)
    "VM stack memory overflow - collides with heap boundary" []
  setReg .sp (vm.reg .sp - wordsSize count)
  copyData data count
  mem ((← getReg .sp).setWidth 32)

/-- `VM_push`: the place for the value is made before the value is computed. -/
def push (val : VmM U64) : VmM Unit := do
  let off ← pushn none 1
  storeWord off (← val)

/-- `VM_popn`, which returns where the words popped are. -/
def popn (count : U8) : VmM U64 := do
  let vm ← get
  abortIf (vm.ram.size.setWidth 64 < vm.reg .sp + wordsSize count)
    "VM stack memory underflow - escapes virtual machine memory" []
  let ret ← mem ((vm.reg .sp).setWidth 32)
  setReg .sp (vm.reg .sp + wordsSize count)
  return ret

/-- `VM_pop`, for a `u64` -/
def pop : VmM U64 := do loadWord (← popn 1)

end VmM

end Cyntatic
