import Mathlib.Data.BitVec
import Mathlib.Algebra.Order.Ring.Nat
import Mathlib.Logic.Function.Basic
import Cyntatic.Vm.Instr

/-! The hash map of `map.c`, with its nodes chained in buckets. Allocations succeed. A result of `none` is an `int` that
    overflows, or an access outside what is allocated. -/

namespace Cyntatic

/-- `strncmp` -/
def strncmp (s1 s2 : List U8) : Nat → Int
  | 0 => 0
  | n + 1 =>
    if s1.headD 0 ≠ s2.headD 0 then (s1.headD 0).toNat - (s2.headD 0).toNat
    else if s1.headD 0 = 0 then 0
    else strncmp s1.tail s2.tail n

/-- `Map_hash_string_`. A `char` is signed, and the index is an `int`. -/
def hashString (k : List U8) : Option U32 :=
  if k.length < 2 ^ 31 then some (k.foldl (fun hash c => (hash ^^^ c.signExtend 32) * 16777619) 2166136261) else none

/-- `Map_Node` -/
structure MapNode (α : Type) where
  hash : U32
  key : List U8
  value : α
  deriving DecidableEq, Repr

/-- `Map_Base`, where `vSize` is the size of the values: each bucket is its chain of nodes. -/
structure MapBase (α : Type) (vSize : Nat) where
  buckets : List (List (MapNode α)) := []
  nodeCount : U32 := 0
  deriving DecidableEq, Repr

namespace MapBase
variable {α : Type} {vSize : Nat} (m : MapBase α vSize)

def bucketCount : U32 := BitVec.ofNat 32 m.buckets.length

/-- `Map_new_node_`: the string, its padding and the value follow the 24 bytes of a node. -/
def newNode (vSize : Nat) (key : List U8) (value : α) : Option (MapNode α) := do
  let kSize := key.length + 1
  let vOffset := kSize + (2 ^ 64 + 8 - kSize) % 8
  if 24 + vOffset + vSize < 2 ^ 32 then return { hash := ← hashString key, key, value } else none

/-- `Map_bucket_idx_` -/
def bucketIdx (hash : U32) : Nat := (hash &&& (m.bucketCount - 1)).toNat

/-- `Map_add_node_` -/
def addNode (node : MapNode α) : MapBase α vSize :=
  { m with buckets := m.buckets.modify (m.bucketIdx node.hash) (node :: ·) }

/-- The nodes of `Map_resize_`, in one chain. -/
def chainAll : List (MapNode α) :=
  m.buckets.reverse.foldl (fun nodes bucket => bucket.foldl (fun nodes node => node :: nodes) nodes) []

/-- `Map_resize_`. The size of an allocation is an `u32`. -/
def resize (numBuckets : U32) : Option (MapBase α vSize) :=
  if 8 * numBuckets.toNat < 2 ^ 32 then
    some (m.chainAll.foldl addNode { m with buckets := List.replicate numBuckets.toNat [] })
  else none

/-- The buckets for one more node. -/
def makeRoom : Option (MapBase α vSize) :=
  if m.bucketCount ≤ m.nodeCount then m.resize (if m.bucketCount < 32 then 32 else m.bucketCount <<< 1) else some m

/-- `Map_get_ref_`: a bucket, and a place in its chain. -/
def getRef (key : List U8) : Option (Option (Nat × Nat)) := do
  let hash ← hashString key
  if 0 < m.bucketCount then
    let n := m.bucketIdx hash
    return ((m.buckets.getD n []).findIdx? fun node => node.hash = hash ∧ strncmp node.key key key.length = 0).map (n, ·)
  else return none

/-- `Map_set_` -/
def set (key : List U8) (value : α) : Option (MapBase α vSize) := do
  match ← m.getRef key with
  | some (n, i) => return { m with buckets := m.buckets.modify n (·.modify i fun node => { node with value }) }
  | none =>
    let node ← newNode vSize key value
    let r ← m.makeRoom
    return { r.addNode node with nodeCount := m.nodeCount + 1 }

/-- `Map_remove_` -/
def remove (key : List U8) : Option (MapBase α vSize) := do
  match ← m.getRef key with
  | some (n, i) => return { m with buckets := m.buckets.modify n (·.eraseIdx i), nodeCount := m.nodeCount - 1 }
  | none => return m

/-- `Map_get_` -/
def get (key : List U8) : Option (Option α) := do
  match ← m.getRef key with
  | some (n, i) => return ((m.buckets.getD n [])[i]?).map (·.value)
  | none => return none

/-- `Map_init_`, and `Map_initWith` for no buckets. -/
def init (initSize : U32) : Option (MapBase α vSize) := resize {} initSize

/-! ### Allocations that fail -/

/-- The `memset` of `Map_resize_`, to at least as many buckets as there are. -/
def clearBuckets (numBuckets : U32) : Option (List (List (MapNode α))) :=
  if numBuckets.toNat ≤ m.buckets.length then some (List.replicate m.buckets.length []) else none

/-- `Map_resize_` to at least as many buckets as there are, and whether it returns 0. An `Allocator_reAlloc` that fails
    keeps the old block. -/
def resizeWith (reAlloc : Bool) (numBuckets : U32) : Option (Bool × MapBase α vSize) := do
  if reAlloc then
    return (true, ← m.resize numBuckets)
  else if m.buckets = [] then
    return (false, m)
  else
    let buckets ← m.clearBuckets numBuckets
    return (false, m.chainAll.foldl addNode { m with buckets })

/-- The buckets for one more node, and whether there are any. -/
def makeRoomWith (reAlloc : Bool) : Option (Bool × MapBase α vSize) :=
  if m.bucketCount ≤ m.nodeCount then
    m.resizeWith reAlloc (if m.bucketCount < 32 then 32 else m.bucketCount <<< 1)
  else some (true, m)

/-- `Map_set_`, and what it returns, when the allocations of a node and of the buckets succeed or not. -/
def setWith (alloc reAlloc : Bool) (key : List U8) (value : α) : Option (Option (List U8) × MapBase α vSize) := do
  match ← m.getRef key with
  | some (n, i) =>
    let node? := (m.buckets.getD n [])[i]?
    return (node?.map (·.key), { m with buckets := m.buckets.modify n (·.modify i fun node => { node with value }) })
  | none =>
    if alloc then
      let node ← newNode vSize key value
      let (roomy, r) ← m.makeRoomWith reAlloc
      return if roomy then (some node.key, { r.addNode node with nodeCount := m.nodeCount + 1 }) else (none, r)
    else return (none, m)

end MapBase

/-! ### Iteration -/

/-- `Map_Iter`, where `node` is the chain from a node on, and what `val` points to is `val`. -/
structure MapIter (α : Type) where
  node : List (MapNode α) := []
  bucketIndex : U32 := 0
  key : Option (List U8) := none
  val : Option α := none

namespace MapBase
variable {α : Type} {vSize : Nat} (m : MapBase α vSize)

/-- The loop of `Map_iter_next_`, to the next bucket that is not empty. -/
def nextBucket (ite : MapIter α) : MapIter α :=
  if _h : m.bucketCount ≤ ite.bucketIndex + 1 then { ite with bucketIndex := ite.bucketIndex + 1, node := [] }
  else
    match m.buckets.getD (ite.bucketIndex + 1).toNat [] with
    | [] => nextBucket { ite with bucketIndex := ite.bucketIndex + 1, node := [] }
    | node => { ite with bucketIndex := ite.bucketIndex + 1, node }
termination_by (m.bucketCount - (ite.bucketIndex + 1)).toNat
decreasing_by
  rw [BitVec.not_le] at _h
  bv_omega

/-- `Map_iter_next_` -/
def iterNext (ite : MapIter α) : Option (List U8) × MapIter α :=
  let ite :=
    match ite.node.tail with
    | [] => m.nextBucket ite
    | node => { ite with node }
  match ite.node with
  | [] => (none, ite)
  | node :: _ => (some node.key, { ite with key := some node.key, val := some node.value })

/-- `Map_begin_` -/
def iterBegin : MapIter α := if 0 < m.bucketCount then (m.iterNext {}).2 else {}

/-- The rounds of `Map_foreach`, which `fuel` bounds: the keys, and what `val` then points to. -/
def foreachLoop : (fuel : Nat) → Option (List U8) → MapIter α → Option (List (List U8 × α))
  | _, none, _ => some []
  | 0, some _, _ => none
  | fuel + 1, some key, ite => do
    let val ← ite.val
    let rest ← foreachLoop fuel (m.iterNext ite).1 (m.iterNext ite).2
    return (key, val) :: rest

/-- `Map_foreach` -/
def foreach (fuel : Nat) : Option (List (List U8 × α)) := m.foreachLoop fuel m.iterBegin.key m.iterBegin

end MapBase

/-! ### Calls -/

/-- A call on a map. -/
inductive MapOp (α : Type) where
  | set (key : List U8) (value : α)
  | remove (key : List U8)
  | get (key : List U8)

namespace MapOp
variable {α : Type}

def key : MapOp α → List U8
  | set key _ => key
  | remove key => key
  | get key => key

/-- What the keys have after a call. -/
def after (f : List U8 → Option α) : MapOp α → List U8 → Option α
  | set key value => Function.update f key (some value)
  | remove key => Function.update f key none
  | get _ => f

/-- The value of the latest set of each key that no removal of the key follows. -/
def latest (ops : List (MapOp α)) : List U8 → Option α := ops.foldl after fun _ => none

end MapOp

/-- The map after a call. -/
def MapBase.apply {α : Type} {vSize : Nat} (m : MapBase α vSize) : MapOp α → Option (MapBase α vSize)
  | .set key value => m.set key value
  | .remove key => m.remove key
  | .get key => (m.get key).map fun _ => m

end Cyntatic
