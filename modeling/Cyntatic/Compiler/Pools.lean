import Mathlib.Logic.Function.Basic
import Cyntatic.Vm.Instr

/-! The pool allocator of the compiler (`heap.c`) behind the calls of `allocator.c`. A result of `none` is an assertion
    that fails, or an access past the end of the pools. -/

namespace Cyntatic

/-- `sizeof(AllocatorMetadata)` -/
def metadataSize : Nat := 16

/-- `POOL_BLOCK_SIZE` -/
def poolBlockSize : Nat := 32768

/-- What `PoolAllocatorBlock_Init` asks the default allocator for. -/
def storageSize : Nat := poolBlockSize - metadataSize

/-- `np2` -/
def np2 (v : U32) : U32 :=
  let v := v - 1
  let v := v ||| v >>> 1
  let v := v ||| v >>> 2
  let v := v ||| v >>> 4
  let v := v ||| v >>> 8
  let v := v ||| v >>> 16
  v + 1

/-- `n21` -/
def n21 (value : U32) : U32 := if value = 0 then 0 else BitVec.ofNat 32 (Nat.log2 value.toNat)

/-- `np2(MAX(16, size))` -/
def sizeClass (size : U32) : U32 := np2 (if size < 16 then 16 else size)

/-- The index of the pool for a size, if there is such a pool (`NUMBER_OF_POOLS`). -/
def poolIndex (size : U32) : Option (Fin 8) :=
  let i := n21 (sizeClass size) - 4
  if h : i.toNat < 8 then some ⟨i.toNat, h⟩ else none

/-- `block->size`: the distance of the segments of a pool. -/
def segmentSize (i : Fin 8) : Nat := 2 ^ (i.val + 4) + metadataSize

/-- `block->segments` -/
def segmentCount (i : Fin 8) : Nat := (poolBlockSize + segmentSize i - 1) / segmentSize i

/-- `&block->data->buf[i]`, for a block at `data` and segment `k`. -/
def segmentAt (data : Nat) (i : Fin 8) (k : Nat) : Nat := data + 8 + k * segmentSize i

/-- The segments of a pool, in the order in which `PoolAllocatorBlock_Init` adds them. -/
def segments (data : Nat) (i : Fin 8) : List Nat := (List.range (segmentCount i)).map (segmentAt data i)

/-- Memory that was handed out, with the size that is stored before it (`meta->size`). -/
structure Segment where
  mem : Nat
  size : U32
  deriving DecidableEq

/-- `sPoolAllocatorBlocks`: the storage of every pool and its free segments, the last one first, with what is handed
    out. -/
structure Pools where
  data : Fin 8 → Nat
  free : Fin 8 → List Nat
  live : List Segment

namespace Pools
variable (A : Pools)

/-- `PoolAllocator_Init`, for the storage that the default allocator returns. -/
def init (data : Fin 8 → Nat) : Pools where
  data := data
  free i := (segments (data i) i).reverse
  live := []

/-- `PoolAllocator_alloc` -/
def poolAlloc (size : U32) : Option (Option Nat × Pools) :=
  if size = 0 ∨ 4096 ≤ size then some (none, A)
  else do
    let i ← poolIndex size
    match A.free i with
    | [] => return (none, A)
    | mem :: rest => return (some mem, { A with free := Function.update A.free i rest })

/-- `PoolAllocator_dealloc` -/
def poolDealloc (mem : Nat) (size : U32) : Option Pools := do
  let i ← poolIndex size
  return { A with free := Function.update A.free i (mem :: A.free i) }

/-- `PoolAllocator_reAlloc` -/
def poolReAlloc (mem : Nat) (orig size : U32) : Option (Option Nat × Pools) :=
  if sizeClass size = sizeClass orig then some (some mem, A)
  else do
    let (ret, A) ← A.poolAlloc size
    match ret with
    | none => return (none, A)
    | some ret => return (some ret, ← A.poolDealloc mem orig)

/-- The metadata of memory that is handed out. -/
def metadata? (mem : Nat) : Option Segment := A.live.find? (·.mem = mem)

/-- `Allocator_alloc` -/
def alloc (size : U32) : Option (Option Nat × Pools) :=
  if size = 0 then some (none, A)
  else do
    let (ret, A) ← A.poolAlloc (size + 16)
    match ret with
    | none => return (none, A)
    | some ret =>
      let mem := ret + metadataSize
      return (some mem, { A with live := ⟨mem, size⟩ :: A.live })

/-- `Allocator_reAlloc` -/
def reAlloc (mem : Option Nat) (newSize : U32) : Option (Option Nat × Pools) :=
  match mem with
  | none => A.alloc newSize
  | some mem =>
    if newSize = 0 then none
    else do
      let x ← A.metadata? mem
      let (ret, A) ← A.poolReAlloc (mem - metadataSize) (x.size + 16) (newSize + 16)
      match ret with
      | none => return (none, A)
      | some ret =>
        let mem := ret + metadataSize
        return (some mem, { A with live := ⟨mem, newSize⟩ :: A.live.erase x })

/-- `Allocator_dealloc` -/
def dealloc (mem : Option Nat) : Option Pools :=
  match mem with
  | none => some A
  | some mem => do
    let x ← A.metadata? mem
    let A ← A.poolDealloc (mem - metadataSize) (x.size + 16)
    return { A with live := A.live.erase x }

end Pools

/-- A call of the allocator. -/
inductive PoolCall where
  | alloc (size : U32)
  | reAlloc (mem : Option Nat) (newSize : U32)
  | dealloc (mem : Option Nat)

/-- The pools after a call. -/
def Pools.apply (A : Pools) : PoolCall → Option Pools
  | .alloc size => (A.alloc size).map (·.2)
  | .reAlloc mem newSize => (A.reAlloc mem newSize).map (·.2)
  | .dealloc mem => A.dealloc mem

/-- The pools after some calls. -/
inductive Pools.Run (A : Pools) : List PoolCall → Pools → Prop
  | nil : Run A [] A
  | snoc {calls : List PoolCall} {call : PoolCall} {B C : Pools} (h : Run A calls B) (hc : B.apply call = some C) :
      Run A (calls ++ [call]) C

end Cyntatic
