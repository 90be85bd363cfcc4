import Cyntatic.Library.Chain
import Cyntatic.Vm.Instr

/-! The heap of the virtual machine (`memory.c`): block descriptors on three linked lists. Descriptors are
    numbered by their place in `mem`, and `NULL` is `none`. A loop over a list is bounded by the number of
    descriptors, so a result of `none` is a loop that never ends or a `NULL` that is followed. -/

namespace Cyntatic
open Library

/-- `Heap`, with the fields of the descriptors (`HeapBlock`) as maps. -/
structure Heap where
  free : Option Nat
  used : Option Nat
  fresh : Option Nat
  top : U32
  sth : U32
  lmt : U32
  aln : U8
  next : Nat → Option Nat
  size : Nat → U32
  addr : Nat → U32
  /-- The number of descriptors in `mem`. -/
  count : Nat

/-- `CynAlign` on a `u32` and a `u8`. -/
def cynAlign (s : U32) (a : U8) : U32 := (s + (a.setWidth 32 - 1)) &&& ~~~(a.setWidth 32 - 1)

namespace Heap

def setNext (heap : Heap) (block : Nat) (x : Option Nat) : Heap :=
  { heap with next := Function.update heap.next block x }

def setSize (heap : Heap) (block : Nat) (x : U32) : Heap :=
  { heap with size := Function.update heap.size block x }

def setAddr (heap : Heap) (block : Nat) (x : U32) : Heap :=
  { heap with addr := Function.update heap.addr block x }

/-- `if (prev != NULL) prev->next = x; else heap->free = x;` -/
def relinkFree (heap : Heap) (prev x : Option Nat) : Heap :=
  { heap with
    next := (relink heap.next heap.free prev x).1
    free := (relink heap.next heap.free prev x).2 }

/-- `if (prev) prev->next = x; else heap->used = x;` -/
def relinkUsed (heap : Heap) (prev x : Option Nat) : Heap :=
  { heap with
    next := (relink heap.next heap.used prev x).1
    used := (relink heap.next heap.used prev x).2 }

/-- `VM_heap_insert_heap_block` -/
def insertHeapBlock (heap : Heap) (block : Nat) : Option Heap := do
  let (prev, ptr) ← scan heap.next (fun p => heap.addr block ≤ heap.addr p) heap.count none heap.free
  return (heap.relinkFree prev (some block)).setNext block ptr

/-- `VM_heap_release_heap_blocks` -/
def releaseHeapBlocks (heap : Heap) (fuel : Nat) (ptr stop : Option Nat) : Option Heap :=
  if ptr = stop then some heap
  else match fuel, ptr with
    | fuel + 1, some b =>
      let snext := heap.next b
      let heap := { heap.setNext b heap.fresh with fresh := some b }
      ((heap.setAddr b 0).setSize b 0).releaseHeapBlocks fuel snext stop
    | _, _ => none

/-- The inner loop of `VM_heap_compact`: `prev` after passing the blocks that touch, from a block on. -/
def lastTouching (heap : Heap) : (fuel : Nat) → (prev : Nat) → (scan : Option Nat) → Option Nat
  | _, prev, none => some prev
  | 0, _, some _ => none
  | fuel + 1, prev, some b =>
    if heap.addr prev + heap.size prev = heap.addr b then heap.lastTouching fuel b (heap.next b) else some prev

/-- One round of the outer loop of `VM_heap_compact`: the blocks that touch `ptr` are merged into it. -/
def mergeRun (heap : Heap) (ptr : Nat) : Option Heap := do
  let prev ← heap.lastTouching heap.count ptr (heap.next ptr)
  if prev = ptr then some heap
  else
    let newSize := heap.addr prev - heap.addr ptr + heap.size prev
    let heap := heap.setSize ptr newSize
    let next := heap.next prev
    let heap ← heap.releaseHeapBlocks heap.count (heap.next ptr) next
    some (heap.setNext ptr next)

/-- The outer loop of `VM_heap_compact`, from a block of the free list on. -/
def compactFrom (heap : Heap) : (fuel : Nat) → (ptr : Option Nat) → Option Heap
  | _, none => some heap
  | 0, some _ => none
  | fuel + 1, some ptr => do
    let heap ← heap.mergeRun ptr
    heap.compactFrom fuel (heap.next ptr)

/-- `VM_heap_compact` -/
def compact (heap : Heap) : Option Heap := heap.compactFrom heap.count heap.free

/-- The test `isTop` of `VM_heap_alloc_heap_block`, for an aligned size. -/
def isTop (heap : Heap) (size : U32) (ptr : Nat) : Bool :=
  heap.addr ptr + heap.size ptr ≥ heap.top ∧ heap.addr ptr + size ≤ heap.lmt

/-- The part of `VM_heap_alloc_heap_block` after a free block is taken that does not end at `top`: the
    excess is split off when it is large enough and a descriptor is left. -/
def splitBlock (heap : Heap) (ptr : Nat) (size : U32) : Option Heap :=
  match heap.fresh with
  | none => some heap
  | some split =>
    let excess := heap.size ptr - size
    if heap.sth ≤ excess then do
      let heap := heap.setSize ptr size
      let heap := { heap with fresh := heap.next split }
      let heap := heap.setAddr split (heap.addr ptr + size)
      let heap := heap.setSize split excess
      let heap ← heap.insertHeapBlock split
      heap.compact
    else some heap

/-- `VM_heap_alloc_heap_block`: the block that was allocated, if any. -/
def allocHeapBlock (heap : Heap) (size : U32) : Option (Option Nat × Heap) := do
  let top := heap.top
  let size := cynAlign size heap.aln
  let (prev, ptr) ← scan heap.next (fun p => heap.isTop size p || size ≤ heap.size p) heap.count none heap.free
  match ptr with
  | some ptr =>
    let isTop := heap.isTop size ptr
    let heap := heap.relinkFree prev (heap.next ptr)
    let heap := { heap.setNext ptr heap.used with used := some ptr }
    let heap ← if isTop then some { heap.setSize ptr size with top := heap.addr ptr + size } else heap.splitBlock ptr size
    return (some ptr, heap)
  | none =>
    let newTop := top + size
    match heap.fresh with
    | some ptr =>
      if newTop ≤ heap.lmt then
        let heap := { heap with fresh := heap.next ptr }
        let heap := ((heap.setAddr ptr top).setNext ptr heap.used).setSize ptr size
        return (some ptr, { heap with used := some ptr, top := newTop })
      else return (none, heap)
    | none => return (none, heap)

/-- `VM_alloc`: the address of the memory, 0 when there is none. -/
def alloc (heap : Heap) (size : U32) : Option (U32 × Heap) := do
  let (block, heap) ← heap.allocHeapBlock size
  match block with
  | some block => return (heap.addr block, heap)
  | none => return (0, heap)

/-- `VM_free` -/
def dealloc (heap : Heap) (mem : U32) : Option (Bool × Heap) :=
  if mem = 0 then some (false, heap)
  else do
    let (prev, block) ← scan heap.next (fun b => mem = heap.addr b) heap.count none heap.used
    match block with
    | some block =>
      let heap := heap.relinkUsed prev (heap.next block)
      let heap ← heap.insertHeapBlock block
      let heap ← heap.compact
      return (true, heap)
    | none => return (false, heap)

/-- The descriptors on the list of used blocks. -/
def usedBlocks (heap : Heap) : List Nat := walk heap.next heap.count heap.used

/-- The descriptors on the list of free blocks. -/
def freeBlocks (heap : Heap) : List Nat := walk heap.next heap.count heap.free

/-- `VM_heap_init_`: the memory limits of the machine, the number of descriptors and what their fields
    held before. Without descriptors the loop runs over memory that holds none. -/
def init (hb hlm blocks sth : U32) (aln : U8) (next : Nat → Option Nat) (size addr : Nat → U32) : Option Heap :=
  if blocks = 0 then none
  else
    let last := (blocks - 1).toNat
    some
      { free := none, used := none, fresh := some 0, top := hb, sth := sth, lmt := hlm, aln := aln
        next := fun i => if i < last then some (i + 1) else if i = last then none else next i
        size := size, addr := addr, count := last + 1 }

end Heap

end Cyntatic
