import Mathlib.Data.BitVec
import Mathlib.Algebra.Order.Ring.Nat
import Cyntatic.Vm.Instr

/-! The vectors of `vector.c` and `vector.h`, and the formatted output of `buffer.c`. A result of `none` is an access
    outside the entries that are allocated, an `int` that overflows, or an allocation that fails. -/

namespace Cyntatic

/-- `Vector(T)`, where `entrySize` is `sizeof(T)`: `data` has all the entries that are allocated, and `none` for one
    that is not written yet. -/
structure Vector (α : Type) (entrySize : Nat) where
  data : List (Option α) := []
  len : Int := 0
  capacity : Int := 0

/-- The result of an operation on `int`, which may overflow. -/
def int? (x : Int) : Option Int := if -2 ^ 31 ≤ x ∧ x < 2 ^ 31 then some x else none

/-- The bits from the highest one on are set. -/
def smear (v : U32) : U32 :=
  let v := v ||| v.sshiftRight 1
  let v := v ||| v.sshiftRight 2
  let v := v ||| v.sshiftRight 4
  let v := v ||| v.sshiftRight 8
  v ||| v.sshiftRight 16

/-- `round2pow2` -/
def round2pow2 (v : Int) : Option Int := do
  let v ← int? (v - 1)
  int? ((smear (BitVec.ofInt 32 v)).toInt + 1)

namespace Vector
variable {α : Type} {entrySize : Nat} (v : Vector α entrySize)

/-- `Allocator_reAlloc` to a number of entries. -/
def reAlloc (n : Int) : Option (List (Option α)) := do
  let size ← int? (n * entrySize)
  if size < 0 then none else some (v.data.take n.toNat ++ List.replicate (n.toNat - v.data.length) none)

/-- Entries are stored from an index on. -/
def store (i : Int) (xs : List (Option α)) : Option (Vector α entrySize) :=
  if 0 ≤ i ∧ i + xs.length ≤ v.data.length then
    some { v with data := v.data.take i.toNat ++ xs ++ v.data.drop (i.toNat + xs.length) }
  else none

/-- `n` entries from an index on. -/
def load (i n : Int) : Option (List (Option α)) :=
  if 0 ≤ i ∧ 0 ≤ n ∧ i + n ≤ v.data.length then some ((v.data.drop i.toNat).take n.toNat) else none

/-- The next capacity: at least `MINIMUM_SIZE`, and otherwise doubled. -/
def nextCapacity : Option Int := if v.capacity < 8 then some 8 else int? (2 * v.capacity)

/-- `Vector_expand_` -/
def expandEntry : Option (Vector α entrySize) := do
  if v.capacity < (← int? (v.len + 1)) then
    let n ← v.nextCapacity
    let data ← v.reAlloc n
    return { v with data, capacity := n }
  else return v

/-- `Vector_reserve` and `Vector_reserve_` -/
def reserve (n : Int) : Option (Vector α entrySize) := do
  let needed ← int? (n - (← int? (v.capacity - v.len)))
  if 0 < needed then
    let data ← v.reAlloc (← int? (v.capacity + needed))
    return { v with data, capacity := n }
  else return v

/-- `Vector_reserve0` and `Vector_reserve_po2_` -/
def reserve0 (n : Int) : Option (Vector α entrySize) := do
  v.reserve (← round2pow2 n)

/-- `self->data[self->len++] = x` -/
def append (x : α) : Option (Vector α entrySize) := do
  let w ← v.store v.len [some x]
  return { w with len := ← int? (w.len + 1) }

/-- `Vector_push` -/
def push (x : α) : Option (Vector α entrySize) := do (← v.expandEntry).append x

/-- `Vector_pop`, with the entry that it reads. -/
def pop : Option (Option α × Vector α entrySize) := do
  let x ← (← v.load (v.len - 1) 1).head?
  return (x, { v with len := v.len - 1 })

/-- `Vector_pushArr` -/
def pushArr (arr : List α) : Option (Vector α entrySize) := do
  let w ← v.reserve0 (← int? (v.len + arr.length))
  arr.foldlM append w

/-- `Vector_expand` -/
def expand (n : Nat) : Option (Vector α entrySize) := do
  let len ← int? (v.len + n)
  return { ← v.reserve len with len }

/-- `Vector_insert` -/
def insert (i : Int) (x : α) : Option (Vector α entrySize) := do
  let w ← v.expandEntry
  let w ← w.store (i + 1) (← w.load i (w.len - i))
  let w ← w.store i [some x]
  return { w with len := ← int? (w.len + 1) }

/-- `Vector_splice` -/
def splice (start count : Int) : Option (Vector α entrySize) := do
  let w ← v.store start (← v.load (start + count) (v.len - start - count))
  return { w with len := w.len - count }

/-- `Vector_truncate` -/
def truncate (l : Int) : Vector α entrySize := { v with len := if l < v.len then l else v.len }

/-- `Vector_compact_`. What an allocator gave is not for `free`. -/
def compact : Option (Vector α entrySize) := do
  if v.len = 0 then
    if v.data = [] then return { v with capacity := 0 } else none
  else
    let data ← v.reAlloc v.len
    return { v with data, capacity := v.len }

/-- What `vsnprintf` writes to a buffer of some size. -/
def printed (nul : α) (out : List α) (size : U32) : List α :=
  if size = 0 then [] else out.take (size.toNat - 1) ++ [nul]

/-- The loop of `Buffer_vappendf`, whose rounds `fuel` bounds. The formatted output is `out`, and `nul` is the
    character that ends it. -/
def appendfLoop (nul : α) (out : List α) : (fuel : Nat) → Vector α entrySize → Option (Vector α entrySize)
  | 0, _ => none
  | fuel + 1, v => do
    let writable := BitVec.ofInt 32 (v.capacity - v.len)
    let v ← v.store v.len ((printed nul out writable).map some)
    if writable < BitVec.ofNat 32 out.length then
      let v ← v.reserve (BitVec.ofNat 32 out.length + writable).toInt
      appendfLoop nul out fuel v
    else v.expand out.length

/-- `Buffer_appendf`, for a format of some length. -/
def appendf (nul : α) (fmtLen : Nat) (out : List α) (fuel : Nat) : Option (Vector α entrySize) := do
  let v ← v.reserve0 (← int? fmtLen)
  let _ ← int? out.length
  appendfLoop nul out fuel v

/-- A call of `vsnprintf`: where it writes to, the size that it is given, and how many entries are allocated. -/
structure Printing where
  place : Int
  size : U32
  allocated : Nat

/-- The loop of `Buffer_vappendf`, with its calls of `vsnprintf` and what it returns. -/
def vappendfLoop (nul : α) (out : List α) : (fuel : Nat) → Vector α entrySize →
    Option (List Printing × Int × Vector α entrySize)
  | 0, _ => none
  | fuel + 1, v => do
    let writable := BitVec.ofInt 32 (v.capacity - v.len)
    let call : Printing := ⟨v.len, writable, v.data.length⟩
    let v ← v.store v.len ((printed nul out writable).map some)
    if writable < BitVec.ofNat 32 out.length then
      let v ← v.reserve (BitVec.ofNat 32 out.length + writable).toInt
      let (calls, r) ← vappendfLoop nul out fuel v
      return (call :: calls, r)
    else
      let v ← v.expand out.length
      return ([call], out.length, v)

/-- `Buffer_vappendf`, for a format of some length, with its calls of `vsnprintf` and what it returns. -/
def vappendf (nul : α) (fmtLen : Nat) (out : List α) (fuel : Nat) :
    Option (List Printing × Int × Vector α entrySize) := do
  let v ← v.reserve0 (← int? fmtLen)
  let _ ← int? out.length
  vappendfLoop nul out fuel v

end Vector

/-- `Buffer` -/
abbrev Buffer := Vector U8 1

/-! ### Calls -/

/-- A call on a vector. -/
inductive VectorOp (α : Type) where
  | push (x : α)
  | pop
  | pushArr (arr : List α)
  | expand (n : Nat)
  | reserve (n : Nat)
  | reserve0 (n : Nat)
  | insert (i : Nat) (x : α)
  | splice (start count : Nat)
  | truncate (l : Nat)
  | appendf (nul : α) (fmtLen : Nat) (out : List α) (fuel : Nat)

/-- The vector after a call. -/
def Vector.apply {α : Type} {entrySize : Nat} (v : Vector α entrySize) : VectorOp α → Option (Vector α entrySize)
  | .push x => v.push x
  | .pop => v.pop.map (·.2)
  | .pushArr arr => v.pushArr arr
  | .expand n => v.expand n
  | .reserve n => v.reserve n
  | .reserve0 n => v.reserve0 n
  | .insert i x => v.insert i x
  | .splice start count => v.splice start count
  | .truncate l => some (v.truncate l)
  | .appendf nul fmtLen out fuel => v.appendf nul fmtLen out fuel

/-- A vector after some calls. -/
inductive Vector.Run {α : Type} {entrySize : Nat} (v : Vector α entrySize) : List (VectorOp α) → Vector α entrySize → Prop
  | nil : Run v [] v
  | snoc {ops : List (VectorOp α)} {op : VectorOp α} {w w' : Vector α entrySize} (h : Run v ops w)
      (hop : w.apply op = some w') : Run v (ops ++ [op]) w'

namespace Buffer
variable (v : Buffer)

/-! ### Blocks, of which NULL is the empty one -/

/-- `Allocator_reAlloc` -/
def reAllocBlock (mem : List (Option U8)) (newSize : U32) : List (Option U8) :=
  mem.take newSize.toNat ++ List.replicate (newSize.toNat - mem.length) none

/-- `Allocator_relocate`, to the allocator of the block or to another one. -/
def relocateBlock (mem : List (Option U8)) (same : Bool) (size : U32) : List (Option U8) :=
  if mem = [] ∨ same then mem else mem.take (min mem.length size.toNat)

/-- `mem[len] = '\0'` -/
def setNul (mem : List (Option U8)) (len : U32) : Option (List (Option U8)) :=
  if len.toNat < mem.length then some (mem.set len.toNat (some 0)) else none

/-- `Buffer_release_`. The capacity that the length is compared with is that of the buffer after `Vector_release`. -/
def release (compact : Bool) : Option (List (Option U8) × Buffer) := do
  let len := BitVec.ofInt 32 v.len
  let cap := BitVec.ofInt 32 v.capacity
  let released : Buffer := {}
  let mem :=
    if (compact && 16 < cap - len) || len = BitVec.ofInt 32 released.capacity then reAllocBlock v.data (len + 1) else v.data
  return (← setNul mem len, released)

/-- `Buffer_relocate` -/
def relocate (same : Bool) : Option (List (Option U8) × Buffer) := do
  let len := BitVec.ofInt 32 v.len
  return (← setNul (relocateBlock v.data same (len + 1)) len, {})

end Buffer

/-- A buffer after any calls, and any writes to the entries that it has. -/
inductive Buffer.Reached : Buffer → Prop
  | init : Reached {}
  | call {v w : Buffer} {op : VectorOp U8} (h : Reached v) (hop : v.apply op = some w) : Reached w
  | compact {v w : Buffer} (h : Reached v) (hop : v.compact = some w) : Reached w
  | write {v : Buffer} {data : List (Option U8)} (h : Reached v) (hlen : data.length = v.data.length) :
      Reached { v with data }

/-- A buffer from `Buffer_init` or `Buffer_init1With` after some calls of `Buffer_appendStr`, `Buffer_appendCstr` and
    `Buffer_appendC`. -/
inductive Buffer.Built : Buffer → Prop
  | init {v : Buffer} {n : Int} (h : Vector.reserve ({} : Buffer) n = some v) : Built v
  | appendStr {v w : Buffer} {str : List U8} (h : Built v) (hop : v.pushArr str = some w) : Built w
  | appendC {v w : Buffer} {c : U8} (h : Built v) (hop : v.push c = some w) : Built w

end Cyntatic
