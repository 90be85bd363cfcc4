import Cyntatic.Vm.Heap
import Cyntatic.Library.Cover

/-! The arena allocator (`heap.c`). A region is known by the address of its data; where the block of a new region is
    comes from the default allocator. -/

namespace Cyntatic
open Library

/-- `ArenaAllocatorRegion` -/
structure ArenaRegion where
  data : Nat
  size : U32
  allocs : U32 := 0
  current : U32 := 0
  deriving DecidableEq

/-- `sArenaStats` -/
structure ArenaStats where
  regions : U32 := 0
  size : U64 := 0
  used : U64 := 0
  deriving DecidableEq

/-- The regions, from `sArena` on along `next`. -/
structure Arena where
  regions : List ArenaRegion
  stats : ArenaStats := {}
  deriving DecidableEq

/-- The next bytes of a region, if `arena->size - arena->current > size`. -/
def ArenaRegion.slice (r : ArenaRegion) (size : U32) : Option (Nat × ArenaRegion) :=
  if size < r.size - r.current then
    some (r.data + r.current.toNat, { r with current := r.current + size, allocs := r.allocs + 1 })
  else none

namespace Arena

/-- The loop of `ArenaAllocator_alloc`. -/
def firstFit (size : U32) : List ArenaRegion → Option (Nat × List ArenaRegion)
  | [] => none
  | r :: regions =>
    match r.slice size with
    | some (p, r) => some (p, r :: regions)
    | none => (firstFit size regions).map fun x => (x.1, r :: x.2)

/-- `ArenaAllocator_Init_` -/
def newRegion (data : Nat) (size : U32) : ArenaRegion := { data, size, allocs := 0, current := 0 }

/-- The last region, with what `ArenaAllocator_Init_` counts of it. -/
def addRegion (arena : Arena) (r : ArenaRegion) : Arena where
  regions := arena.regions ++ [r]
  stats := { arena.stats with regions := arena.stats.regions + 1, size := arena.stats.size + r.size.setWidth 64 }

/-- `ArenaAllocator_Init` -/
def init (data : Nat) (size : U32) : Arena := addRegion { regions := [] } (newRegion data size)

/-- The size of a new region: `MAX(sArena.size, size)`. -/
def newSize (arena : Arena) (size : U32) : U32 :=
  let sArena := (arena.regions.head?.map (·.size)).getD 0
  if size < sArena then sArena else size

/-- `ArenaAllocator_alloc`, where the block of a new region would be at `data`. -/
def alloc (arena : Arena) (data : Nat) (size : U32) : Nat × Arena :=
  let size := cynAlign size 8
  let used := fun (arena : Arena) => { arena with stats.used := arena.stats.used + size.setWidth 64 }
  match firstFit size arena.regions with
  | some (p, regions) => (p, used { arena with regions })
  | none =>
    let r := newRegion data (arena.newSize size)
    (data, used (arena.addRegion { r with current := r.current + size, allocs := r.allocs + 1 }))

/-! ### Runs -/

/-- The block of a region. -/
def block (r : ArenaRegion) : Span := ⟨r.data, r.size.toNat⟩

/-- What was asked for, and where it was given. -/
structure Given where
  size : U32
  start : Nat
  deriving DecidableEq

/-- The bytes that a request takes, in multiples of `sizeof(uptr)`. -/
def Given.span (g : Given) : Span := ⟨g.start, (cynAlign g.size 8).toNat⟩

/-- An arena after some requests. The block of a new region is apart from those that the arena has. -/
inductive Run : Arena → List Given → Prop
  | init (data : Nat) (size : U32) : Run (init data size) []
  | alloc {arena : Arena} {given : List Given} {data : Nat} {size : U32} (h : Run arena given)
      (hpos : 1 ≤ size.toNat) (hle : size.toNat ≤ 2 ^ 31)
      (hblock : firstFit (cynAlign size 8) arena.regions = none →
        ∀ r ∈ arena.regions, (block r).Disjoint ⟨data, (arena.newSize (cynAlign size 8)).toNat⟩) :
      Run (arena.alloc data size).2 (given ++ [⟨size, (arena.alloc data size).1⟩])

end Arena

end Cyntatic
