import Cyntatic.Vm.Instr
import Cyntatic.Library.Bytes
import Cyntatic.Library.Cover

/-! The allocators of `allocator.c`, which keep what they know of a block in front of it. Where the blocks are comes
    from the functions of the allocator. -/

namespace Cyntatic
open Library

/-! ### Memory -/

/-- The bytes of the memory, by address. -/
abbrev Ram := Nat → U8

namespace Ram
variable (ram : Ram)

def store (a : Nat) (bs : List U8) : Ram := fun x => if a ≤ x ∧ x < a + bs.length then bs.getD (x - a) 0 else ram x

def load (a n : Nat) : List U8 := (List.range n).map fun i => ram (a + i)

end Ram

/-- The memory, and what the functions of an allocator keep. -/
structure AllocState (σ : Type) where
  ram : Ram
  own : σ

/-- The functions of an allocator (`alloc`, `cAlloc`, `reAlloc` and `dealloc`). -/
structure Backing (σ : Type) where
  alloc : U32 → AllocState σ → Option Nat × AllocState σ
  cAlloc : U32 → U32 → AllocState σ → Option Nat × AllocState σ
  reAlloc : Nat → U32 → U32 → AllocState σ → Option Nat × AllocState σ
  dealloc : Nat → U32 → AllocState σ → AllocState σ

/-- `Allocator`, with its address and the number that its `magic` ends in. -/
structure Allocator (σ : Type) extends Backing σ where
  addr : U64
  id : U8

/-- `CYN_ALLOCATOR_MAGIC0` -/
def allocatorMagic0 : U32 := 0x43796E

namespace Allocator
variable {σ : Type} (A : Allocator σ)

/-- `CynAllocMagic` -/
def magic : U32 := allocatorMagic0 <<< 8 ||| A.id.setWidth 32

end Allocator

namespace AllocState
variable {σ : Type} (s : AllocState σ)

/-! ### `AllocatorMetadata`, which is packed -/

def metaA (mem : Nat) : U64 := BitVec.ofNat 64 (leNat (s.ram.load mem 8))

def metaSize (mem : Nat) : U32 := BitVec.ofNat 32 (leNat (s.ram.load (mem + 8) 4))

def metaMagic (mem : Nat) : U32 := BitVec.ofNat 32 (leNat (s.ram.load (mem + 12) 4))

def setMetaA (mem : Nat) (a : U64) : AllocState σ := { s with ram := s.ram.store mem (leBytes 8 a) }

def setMetaSize (mem : Nat) (size : U32) : AllocState σ := { s with ram := s.ram.store (mem + 8) (leBytes 4 size) }

def setMetaMagic (mem : Nat) (magic : U32) : AllocState σ := { s with ram := s.ram.store (mem + 12) (leBytes 4 magic) }

end AllocState

namespace Allocator
variable {σ : Type} (A : Allocator σ)

/-- What `Allocator_alloc` and `Allocator_cAlloc` do with what the allocator returns. -/
def label (size : U32) (r : Option Nat × AllocState σ) : Option Nat × AllocState σ :=
  match r with
  | (none, s) => (none, s)
  | (some mem, s) => (some (mem + 16), ((s.setMetaA mem A.addr).setMetaMagic mem A.magic).setMetaSize mem size)

/-- `Allocator_alloc` -/
def allocMem (size : U32) (s : AllocState σ) : Option Nat × AllocState σ :=
  if size = 0 then (none, s) else A.label size (A.alloc (size + 16) s)

/-- `Allocator_cAlloc` -/
def cAllocMem (size num : U32) (s : AllocState σ) : Option Nat × AllocState σ :=
  if size = 0 ∨ num = 0 then (none, s) else A.label size (A.cAlloc 1 (size * num + 16) s)

/-- What `Allocator_reAlloc` does with what the allocator returns. -/
def resize (newSize : U32) (r : Option Nat × AllocState σ) : Option Nat × AllocState σ :=
  match r with
  | (none, s) => (none, s)
  | (some mem, s) => (some (mem + 16), s.setMetaSize mem newSize)

/-- `Allocator_reAlloc`, unless an assertion fails. -/
def reAllocMem (mem : Option Nat) (newSize : U32) (s : AllocState σ) : Option (Option Nat × AllocState σ) :=
  match mem with
  | none => some (A.allocMem newSize s)
  | some mem =>
    let block := mem - 16
    if newSize = 0 ∨ ¬(s.metaA block = A.addr ∧ s.metaMagic block = A.magic) then none
    else some (resize newSize (A.reAlloc block (s.metaSize block + 16) (newSize + 16) s))

/-- `Allocator_dealloc`, unless an assertion fails. Memory of another allocator is not in its hands. -/
def deallocMem (mem : Option Nat) (s : AllocState σ) : Option (AllocState σ) :=
  match mem with
  | none => some s
  | some mem =>
    let block := mem - 16
    if s.metaA block = A.addr ∧ A.addr ≠ 0 ∧ s.metaMagic block >>> 8 = allocatorMagic0 ∧ A.magic = s.metaMagic block then
      some (A.dealloc block (s.metaSize block + 16) s)
    else none

/-! ### Runs -/

/-- A call, or a byte that is written to. -/
inductive Op where
  | alloc (size : U32)
  | cAlloc (size num : U32)
  | reAlloc (mem : Option Nat) (newSize : U32)
  | dealloc (mem : Option Nat)
  | write (addr : Nat) (v : U8)

/-- Memory that is in use, with the bytes that were requested, and what the allocator was asked for. -/
structure Block where
  mem : Nat
  size : U32
  asked : U32
  deriving DecidableEq

/-- The blocks in use after a call that returns memory, or does not. -/
def handed (live : List Block) (size asked : U32) : Option Nat → List Block
  | none => live
  | some mem => ⟨mem, size, asked⟩ :: live

/-- A step on an allocator. Memory is given back, resized and written to while it is in use. -/
inductive Step : AllocState σ → List Block → Op → AllocState σ → List Block → Prop
  | alloc (s : AllocState σ) (live : List Block) (size : U32) :
      Step s live (.alloc size) (A.allocMem size s).2 (handed live size (size + 16) (A.allocMem size s).1)
  | cAlloc (s : AllocState σ) (live : List Block) (size num : U32) :
      Step s live (.cAlloc size num) (A.cAllocMem size num s).2
        (handed live (size * num) (size * num + 16) (A.cAllocMem size num s).1)
  | reAllocNull (s : AllocState σ) (live : List Block) (newSize : U32) :
      Step s live (.reAlloc none newSize) (A.allocMem newSize s).2
        (handed live newSize (newSize + 16) (A.allocMem newSize s).1)
  | reAlloc {s s' : AllocState σ} {live : List Block} {b : Block} {newSize : U32} {ret : Option Nat} (hb : b ∈ live)
      (h : A.reAllocMem (some b.mem) newSize s = some (ret, s')) :
      Step s live (.reAlloc (some b.mem) newSize) s'
        (if ret = none then live else handed (live.erase b) newSize (newSize + 16) ret)
  | deallocNull (s : AllocState σ) (live : List Block) : Step s live (.dealloc none) s live
  | dealloc {s s' : AllocState σ} {live : List Block} {b : Block} (hb : b ∈ live)
      (h : A.deallocMem (some b.mem) s = some s') : Step s live (.dealloc (some b.mem)) s' (live.erase b)
  | write {s : AllocState σ} {live : List Block} {b : Block} {i : Nat} (hb : b ∈ live) (hi : i < b.size.toNat) (v : U8) :
      Step s live (.write (b.mem + i) v) { s with ram := Function.update s.ram (b.mem + i) v } live

/-- Some steps, from a state in which no memory is in use. -/
inductive Run (s₀ : AllocState σ) : List Op → AllocState σ → List Block → Prop
  | nil : Run s₀ [] s₀ []
  | snoc {ops : List Op} {op : Op} {s s' : AllocState σ} {live live' : List Block} (h : Run s₀ ops s live)
      (hs : Step A s live op s' live') : Run s₀ (ops ++ [op]) s' live'

end Allocator

end Cyntatic
