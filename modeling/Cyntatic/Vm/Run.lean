import Cyntatic.Vm.Execute

/-! How the machine is set up and run (`VM_init_`, `VM_run`). -/

namespace Cyntatic
open Library

/-- `CynAlign` of a `u64` to `CYN_VM_ALIGNMENT`. -/
def alignWord (s : U64) : U64 := (s + 7) &&& ~~~7

/-- `db` of the code header, the size of the data that is copied to memory. -/
def Code.db? (code : Code) : Option U32 := (code.slice? 8 4).map fun bs => BitVec.ofNat 32 (leNat bs)

namespace VmM
open Prog

/-- `VM_memory_init`, for memory that `malloc` found at `ptr`. -/
def memoryInit (ptr size : U64) (bk ss db : U32) : VmM Unit :=
  modify fun vm =>
    let n : U32 := (size - bk.setWidth 64).setWidth 32
    { vm with ram := { vm.ram with
        base := ptr + bk.setWidth 64
        size := n
        sb := n - ss
        hb := db
        hlm := n - ss - 8 } }

/-- `VM_heap_init` -/
def heapInit (nhbs : U32) : VmM Unit := do
  let vm ← get
  let heap ← ofOption .heap (Heap.init vm.ram.hb vm.ram.hlm nhbs 16 8 vm.heap.next vm.heap.size vm.heap.addr)
  modify fun vm => { vm with heap := heap }

/-- `VM_init_`. The contents of memory before it are those of the state before. -/
def init (code : Code) (ptr mem : U64) (nhbs ss : U32) : VmM Unit := do
  let db ← ofOption .code code.db?
  modify fun vm => { vm with flags := 0, regs := fun _ => 0, code := code, stdout := [] }
  let bk : U32 := (alignWord (37 + 16 * nhbs.setWidth 64)).setWidth 32
  let mem := alignWord (mem + (db + bk).setWidth 64)
  let ss := cynAlign (ss + 8) 8
  memoryInit ptr mem bk ss db
  heapInit nhbs
  let header ← ofOption .code (code.slice? 0 db.toNat)
  store 0 header
  (List.range 8).forM fun i => do store (← VmM.mem (ss - BitVec.ofNat 32 i)) [0xA3]

/-- One round of the loop of `VM_run`. -/
def step (host : Host) : VmM Unit := do
  let (iip, instr) ← fetch {}
  execute host instr iip

/-- The loop of `VM_run`: whether it ends within some number of rounds. -/
def loop (host : Host) : (fuel : Nat) → VmM Bool
  | 0 => return false
  | fuel + 1 => do
    let vm ← get
    if vm.reg .ip < BitVec.ofNat 64 vm.code.len then
      step host
      if (← get).flags &&& eflHalt != 0 then return true
      else loop host fuel
    else return true

/-- `VM_cstring_dup_`, which copies no `NUL` -/
def cstringDup (s : List U8) : VmM U32 := do
  let a ← alloc (BitVec.ofNat 32 (s.length + 1))
  abortIf (a = 0) "(mem != 0): Out of heap memory, consider adjusting heap size" []
  store (← mem a) s
  return a

/-- `VM_run`: whether the program ends within some number of rounds. -/
def run (host : Host) (argv : List (List U8)) (fuel : Nat) : VmM Bool := do
  let vm ← get
  let db ← ofOption .code vm.code.db?
  modify fun vm => { vm with regs := fun _ => 0 }
  setReg .sp (vm.ram.size.setWidth 64)
  setReg .bp (vm.ram.size.setWidth 64)
  setReg .ip (db.setWidth 64)
  setReg .r0 (BitVec.ofNat 64 argv.length)
  argv.forM fun s => push do return (← cstringDup s).setWidth 64
  push (pure (BitVec.ofNat 64 argv.length))
  push (pure (BitVec.ofNat 64 vm.code.len))
  push (getReg .bp)
  setReg .bp (← getReg .sp)
  loop host fuel

end VmM

end Cyntatic
