import Mathlib.Data.List.GetD
import Cyntatic.Theorems.Maps

/-! Every state that calls leave a map in, whatever its keys are taken for: what an iteration visits there, and what a
    set whose allocations fail does. -/

namespace Cyntatic.MapBase
variable {α : Type} {vSize : Nat} {m m' m₀ : MapBase α vSize} {key : List U8} {value : α} {f : List U8 → Option α}

/-! ### Calls that end -/

/-- A key is found at some node, or there is none of this key. -/
theorem Holds.getRef_cases (h : Holds m f) {at? : Option (Nat × Nat)} (href : m.getRef key = some at?) :
    (at? = none ∧ ∀ node ∈ m.nodes, node.key ≠ key) ∨
      ∃ n i, ∃ hn : n < m.buckets.length, i < m.buckets[n].length ∧ at? = some (n, i) := by
  obtain ⟨hash, hhash⟩ : ∃ hash, hashString key = some hash := by
    cases hhash : hashString key with
    | none =>
      rw [MapBase.getRef, hhash] at href
      cases href
    | some hash => exact ⟨hash, rfl⟩
  rw [getRef_of_hash hhash, Option.some.injEq] at href
  by_cases hpos : 0 < m.bucketCount
  · obtain ⟨hn, hbucket⟩ := h.getD_bucketIdx hpos hash
    rw [if_pos hpos, hbucket] at href
    cases hidx : m.buckets[m.bucketIdx hash].findIdx? fun node =>
      node.hash = hash ∧ strncmp node.key key key.length = 0 with
    | none =>
      rw [hidx] at href
      refine .inl ⟨href.symm, h.absent hhash ?_⟩
      rintro node hnode rfl
      have hsame := h.hash node (mem_nodes_of_getD hnode)
      rw [hhash, Option.some.injEq] at hsame
      rw [hbucket] at hnode
      exact of_decide_eq_false (List.findIdx?_eq_none_iff.mp hidx node hnode) ⟨hsame.symm, strncmp_self node.key⟩
    | some i =>
      obtain ⟨hi, -⟩ := List.findIdx?_eq_some_iff_getElem.mp hidx
      rw [hidx] at href
      exact .inr ⟨_, i, hn, hi, href.symm⟩
  · rw [if_neg hpos] at href
    refine .inl ⟨href.symm, fun node hnode => ?_⟩
    rw [h.nodes_eq_nil hpos] at hnode
    cases hnode

theorem newNode_some {node : MapNode α} (h : newNode vSize key value = some node) :
    node.key = key ∧ node.value = value ∧ hashString node.key = some node.hash ∧ nodeSize vSize key < 2 ^ 32 := by
  unfold newNode at h
  dsimp only at h
  split at h
  · rename_i hsize
    cases hhash : hashString key with
    | none =>
      rw [hhash] at h
      cases h
    | some hash =>
      rw [hhash] at h
      obtain rfl := Option.some.inj h
      exact ⟨rfl, rfl, hhash, hsize⟩
  · cases h

/-- Buckets that are made are fewer than `2 ^ 29`. -/
theorem Holds.room_of_makeRoom (h : Holds m f) (hm : m.makeRoom = some m') :
    m.nodes.length = m.buckets.length → 16 * m.buckets.length < 2 ^ 32 := by
  intro hfull
  have hsize := h.size
  have hcount := bucketCount_toNat h.size
  have hle : m.bucketCount ≤ m.nodeCount := by
    rw [BitVec.le_def, h.count, hcount]
    exact Nat.le_of_eq hfull.symm
  rw [MapBase.makeRoom, if_pos hle] at hm
  split at hm
  · rename_i hsmall
    rw [BitVec.lt_def, hcount] at hsmall
    have hlt : m.buckets.length < 32 := hsmall
    omega
  · unfold resize at hm
    split at hm
    · rename_i hshift
      rw [BitVec.toNat_shiftLeft, hcount, Nat.shiftLeft_eq] at hshift
      omega
    · cases hm

theorem Holds.exists_apply {op : MapOp α} (h : Holds m f) (hop : m.apply op = some m') : ∃ f', Holds m' f' := by
  cases op with
  | set key value =>
    change m.set key value = some m' at hop
    rw [MapBase.set] at hop
    obtain ⟨at?, href, hop⟩ := Option.bind_eq_some_iff.mp hop
    rcases h.getRef_cases href with ⟨rfl, hnew⟩ | ⟨n, i, hn, hi, rfl⟩
    · obtain ⟨node, hnode, hop⟩ := Option.bind_eq_some_iff.mp hop
      obtain ⟨r, hr, hop⟩ := Option.bind_eq_some_iff.mp hop
      obtain rfl := Option.some.inj hop
      obtain ⟨rfl, rfl, hhash, -⟩ := newNode_some hnode
      obtain ⟨r', hr', hsize, hplace, hperm, hroom⟩ := h.makeRoom (h.room_of_makeRoom hr)
      obtain rfl := Option.some.inj (hr.symm.trans hr')
      exact ⟨_, h.grow hsize hplace hperm hroom hhash hnew⟩
    · obtain rfl := Option.some.inj hop
      exact ⟨_, h.replace hn hi value⟩
  | remove key =>
    change m.remove key = some m' at hop
    rw [MapBase.remove] at hop
    obtain ⟨at?, href, hop⟩ := Option.bind_eq_some_iff.mp hop
    rcases h.getRef_cases href with ⟨rfl, -⟩ | ⟨n, i, hn, hi, rfl⟩
    · obtain rfl := Option.some.inj hop
      exact ⟨f, h⟩
    · obtain rfl := Option.some.inj hop
      exact ⟨_, h.erase hn hi⟩
  | get key =>
    change (m.get key).map (fun _ => m) = some m' at hop
    obtain ⟨_, -, rfl⟩ := Option.map_eq_some_iff.mp hop
    exact ⟨f, h⟩

/-- A map after some calls. -/
inductive Reaches (m : MapBase α vSize) : List (MapOp α) → MapBase α vSize → Prop
  | nil : Reaches m [] m
  | snoc {ops : List (MapOp α)} {op : MapOp α} {m' m'' : MapBase α vSize} (h : Reaches m ops m') (hnul : NulFree op.key)
      (hop : m'.apply op = some m'') : Reaches m (ops ++ [op]) m''

theorem Reaches.exists_holds {initSize : U32} {ops : List (MapOp α)} (h : Reaches m₀ ops m)
    (hinit : init initSize = some m₀) : ∃ f, Holds m f := by
  induction h with
  | nil => exact ⟨_, holds_init hinit⟩
  | snoc h hnul hop ih =>
    obtain ⟨f, hf⟩ := ih
    exact hf.exists_apply hop

/-! ### Iteration -/

/-- The nodes that an iterator has before it. -/
def ahead (m : MapBase α vSize) (ite : MapIter α) : List (MapNode α) :=
  ite.node.tail ++ (m.buckets.drop (ite.bucketIndex.toNat + 1)).flatten

theorem nextBucket_ahead (hm : 8 * m.buckets.length < 2 ^ 32) {ite : MapIter α}
    (hidx : ite.bucketIndex.toNat < m.buckets.length) :
    (m.buckets.drop (ite.bucketIndex.toNat + 1)).flatten =
      (m.nextBucket ite).node ++ (m.buckets.drop ((m.nextBucket ite).bucketIndex.toNat + 1)).flatten ∧
    ((m.nextBucket ite).node ≠ [] → (m.nextBucket ite).bucketIndex.toNat < m.buckets.length) ∧
    ((m.nextBucket ite).node = [] → (m.buckets.drop (ite.bucketIndex.toNat + 1)).flatten = []) := by
  have hsucc : ∀ ite : MapIter α, ite.bucketIndex.toNat < m.buckets.length →
      (ite.bucketIndex + 1).toNat = ite.bucketIndex.toNat + 1 := by
    intro ite hidx
    have hone : (1 : U32).toNat = 1 := rfl
    rw [BitVec.toNat_add, hone, Nat.mod_eq_of_lt (by omega)]
  have hcount := bucketCount_toNat hm
  induction ite using nextBucket.induct m with
  | case1 ite hend =>
    rw [BitVec.le_def, hcount, hsucc ite hidx] at hend
    rw [nextBucket, dif_pos (by rwa [BitVec.le_def, hcount, hsucc ite hidx])]
    have hnil : m.buckets.drop (ite.bucketIndex.toNat + 1) = [] := List.drop_eq_nil_of_le hend
    have hnil' : m.buckets.drop ((ite.bucketIndex + 1).toNat + 1) = [] :=
      List.drop_eq_nil_of_le (by rw [hsucc ite hidx]; omega)
    simp only [hnil, hnil', List.flatten_nil, List.append_nil, ne_eq, not_true_eq_false, false_implies, implies_true,
      and_self]
  | case2 ite hend hbucket ih =>
    have hlt : (ite.bucketIndex + 1).toNat < m.buckets.length := by
      rw [BitVec.not_le, BitVec.lt_def, hcount] at hend
      exact hend
    obtain ⟨hflat, hin, hnil⟩ := ih hlt
    have hnext : m.nextBucket ite = m.nextBucket { ite with bucketIndex := ite.bucketIndex + 1, node := [] } := by
      rw [nextBucket, dif_neg hend, hbucket]
    have hdrop : (m.buckets.drop (ite.bucketIndex.toNat + 1)).flatten =
        (m.buckets.drop ((ite.bucketIndex + 1).toNat + 1)).flatten := by
      have hget : m.buckets[(ite.bucketIndex + 1).toNat] = [] := (List.getD_eq_getElem _ _ hlt).symm.trans hbucket
      rw [← hsucc ite hidx, List.drop_eq_getElem_cons hlt, List.flatten_cons, hget, List.nil_append]
    rw [hnext, hdrop]
    exact ⟨hflat, hin, hnil⟩
  | case3 ite hend hbucket =>
    have hlt : (ite.bucketIndex + 1).toNat < m.buckets.length := by
      rw [BitVec.not_le, BitVec.lt_def, hcount] at hend
      exact hend
    have hget : m.buckets.getD (ite.bucketIndex + 1).toNat [] = m.buckets[(ite.bucketIndex + 1).toNat] :=
      List.getD_eq_getElem _ _ hlt
    have hnext : m.nextBucket ite =
        { ite with bucketIndex := ite.bucketIndex + 1, node := m.buckets[(ite.bucketIndex + 1).toNat] } := by
      rw [nextBucket, dif_neg hend]
      split
      · rename_i hnil
        exact absurd hnil hbucket
      · rw [hget]
    rw [hnext]
    refine ⟨?_, fun _ => hlt, fun hnil => absurd (hget.trans hnil) hbucket⟩
    rw [← hsucc ite hidx, List.drop_eq_getElem_cons hlt, List.flatten_cons]

theorem nextBucket_key (ite : MapIter α) : (m.nextBucket ite).key = ite.key := by
  induction ite using nextBucket.induct m with
  | case1 ite hend => rw [nextBucket, dif_pos hend]
  | case2 ite hend hbucket ih =>
    rw [nextBucket, dif_neg hend, hbucket]
    exact ih
  | case3 ite hend hbucket =>
    rw [nextBucket, dif_neg hend]
    split
    · rename_i hnil
      exact absurd hnil hbucket
    · rfl

/-- A round of an iteration is a step through the nodes ahead. -/
theorem iterNext_ahead (hm : 8 * m.buckets.length < 2 ^ 32) {ite : MapIter α}
    (hidx : ite.bucketIndex.toNat < m.buckets.length) :
    (m.ahead ite = [] ∧ (m.iterNext ite).1 = none ∧ (m.iterNext ite).2.key = ite.key) ∨
      ∃ node rest, m.ahead ite = node :: rest ∧ (m.iterNext ite).1 = some node.key ∧
        (m.iterNext ite).2.val = some node.value ∧ (m.iterNext ite).2.key = some node.key ∧
        (m.iterNext ite).2.bucketIndex.toNat < m.buckets.length ∧ m.ahead (m.iterNext ite).2 = rest := by
  rw [ahead]
  cases htail : ite.node.tail with
  | nil =>
    obtain ⟨hflat, hin, hnil⟩ := nextBucket_ahead hm hidx
    cases hnode : (m.nextBucket ite).node with
    | nil =>
      refine .inl ⟨hnil hnode, ?_⟩
      simp only [iterNext, htail, hnode, nextBucket_key, and_self]
    | cons node chain =>
      refine .inr ⟨node, chain ++ (m.buckets.drop ((m.nextBucket ite).bucketIndex.toNat + 1)).flatten, ?_⟩
      rw [hnode] at hflat
      simp only [iterNext, htail, hnode, ahead, List.tail_cons]
      exact ⟨hflat, trivial, trivial, trivial, hin (by rw [hnode]; exact List.cons_ne_nil _ _), trivial⟩
  | cons node chain =>
    refine .inr ⟨node, chain ++ (m.buckets.drop (ite.bucketIndex.toNat + 1)).flatten, rfl, ?_⟩
    simp only [iterNext, htail, ahead, List.tail_cons]
    exact ⟨trivial, trivial, trivial, hidx, trivial⟩

theorem foreachLoop_ahead (hm : 8 * m.buckets.length < 2 ^ 32) {nodes : List (MapNode α)} {ite : MapIter α}
    (hidx : ite.bucketIndex.toNat < m.buckets.length) (hahead : m.ahead ite = nodes) (hval : ite.val = some value)
    {fuel : Nat} (hfuel : nodes.length < fuel) : m.foreachLoop fuel (some key) ite =
      some ((key, value) :: nodes.map fun node => (node.key, node.value)) := by
  induction nodes generalizing ite key value fuel with
  | nil =>
    obtain ⟨fuel, rfl⟩ := Nat.exists_eq_add_one_of_ne_zero (Nat.ne_of_gt hfuel)
    rcases iterNext_ahead hm hidx with ⟨-, hnone, -⟩ | ⟨node, rest, hcons, -⟩
    · have hend : m.foreachLoop fuel none (m.iterNext ite).2 = some [] := by
        cases fuel <;> rfl
      simp only [foreachLoop, hval, hnone, hend, Option.bind_eq_bind, Option.bind_some, List.map_nil]
      rfl
    · rw [hahead] at hcons
      cases hcons
  | cons node nodes ih =>
    obtain ⟨fuel, rfl⟩ := Nat.exists_eq_add_one_of_ne_zero (Nat.ne_of_gt (Nat.zero_lt_of_lt hfuel))
    rcases iterNext_ahead hm hidx with ⟨hnil, -⟩ | ⟨node', rest, hcons, hkey, hvalue, -, hidx', hrest⟩
    · rw [hahead] at hnil
      cases hnil
    · obtain ⟨rfl, rfl⟩ := List.cons.inj (hahead.symm.trans hcons)
      have hloop : m.foreachLoop fuel (some node.key) (m.iterNext ite).2 = _ :=
        ih hidx' hrest hvalue (Nat.lt_of_succ_lt_succ hfuel)
      simp only [foreachLoop, hval, hkey, hloop, Option.bind_eq_bind, Option.bind_some, List.map_cons]
      rfl

theorem nodes_eq_first (m : MapBase α vSize) : m.nodes = m.buckets.headD [] ++ (m.buckets.drop 1).flatten := by
  rw [nodes]
  cases m.buckets with
  | nil => rfl
  | cons bucket buckets => rfl

/-- An iteration visits the nodes of all buckets but the first. -/
theorem foreach_eq (hm : 8 * m.buckets.length < 2 ^ 32) {fuel : Nat} (hfuel : m.nodes.length < fuel) :
    m.foreach fuel = some ((m.buckets.drop 1).flatten.map fun node => (node.key, node.value)) := by
  have hcount := bucketCount_toNat hm
  have hnone : ∀ ite : MapIter α, m.foreachLoop fuel none ite = some [] := by
    intro ite
    cases fuel <;> rfl
  rw [foreach, iterBegin]
  split
  · rename_i hpos
    have hlen : 0 < m.buckets.length := by
      rw [BitVec.lt_def, hcount] at hpos
      exact hpos
    have hahead : m.ahead {} = (m.buckets.drop 1).flatten := rfl
    rcases iterNext_ahead hm (show ({} : MapIter α).bucketIndex.toNat < _ from hlen) with ⟨hnil, -, hkey⟩ | ⟨node, rest, hcons, -, hval, hkey, hidx, hrest⟩
    · rw [hkey, hnone, ← hahead, hnil, List.map_nil]
    · rw [hkey, ← hahead, hcons, List.map_cons]
      refine foreachLoop_ahead hm hidx hrest hval ?_
      have hnodes := congrArg List.length (nodes_eq_first m)
      have hrest := congrArg List.length (hahead.symm.trans hcons)
      rw [List.length_append] at hnodes
      rw [List.length_cons] at hrest
      omega
  · rename_i hpos
    have hlen : m.buckets = [] := by
      refine List.eq_nil_of_length_eq_zero ?_
      rw [BitVec.lt_def, hcount] at hpos
      exact Nat.eq_zero_of_not_pos hpos
    rw [hnone, hlen]
    rfl

/-- Each key that is present is visited once, with its value, and nothing else is. -/
def VisitsOnce (m : MapBase α vSize) (visits : List (List U8 × α)) : Prop :=
  (visits.map (·.1)).Nodup ∧
    ∀ key value, (key, value) ∈ visits ↔ ∃ node ∈ m.nodes, node.key = key ∧ node.value = value

theorem Holds.visitsOnce_iff (h : Holds m f) :
    m.VisitsOnce ((m.buckets.drop 1).flatten.map fun node => (node.key, node.value)) ↔ m.buckets.headD [] = [] := by
  have hnodes := nodes_eq_first m
  have hnodup := h.nodup
  rw [hnodes, List.map_append, List.nodup_append] at hnodup
  obtain ⟨-, hrest, hdisjoint⟩ := hnodup
  have hmem : ∀ key value, (key, value) ∈ (m.buckets.drop 1).flatten.map (fun node => (node.key, node.value)) ↔
      ∃ node ∈ (m.buckets.drop 1).flatten, node.key = key ∧ node.value = value := by
    intro key value
    simp only [List.mem_map, Prod.mk.injEq]
  constructor
  · rintro ⟨-, hall⟩
    refine List.eq_nil_iff_forall_not_mem.mpr fun node hnode => ?_
    have hvisited := (hall node.key node.value).mpr ⟨node, hnodes ▸ List.mem_append_left _ hnode, rfl, rfl⟩
    obtain ⟨node', hnode', hkey, -⟩ := (hmem node.key node.value).mp hvisited
    exact hdisjoint _ (List.mem_map_of_mem hnode) _ (List.mem_map_of_mem hnode') hkey.symm
  · intro hfirst
    rw [hfirst, List.nil_append] at hnodes
    refine ⟨?_, fun key value => ?_⟩
    · rw [List.map_map]
      exact hrest
    · rw [hnodes]
      exact hmem key value

theorem makeRoomWith_true (m : MapBase α vSize) : m.makeRoomWith true = m.makeRoom.map (true, ·) := by
  rw [makeRoomWith, makeRoom]
  split
  · exact Option.map_eq_bind.symm
  · rfl

/-- With allocations that succeed, a set is what it was. -/
theorem setWith_true (m : MapBase α vSize) (key : List U8) (value : α) :
    (m.setWith true true key value).map (·.2) = m.set key value := by
  simp only [setWith, MapBase.set, makeRoomWith_true]
  cases m.getRef key with
  | none => rfl
  | some at? =>
    cases at? with
    | some ni => rfl
    | none =>
      cases newNode vSize key value with
      | none => rfl
      | some node =>
        cases m.makeRoom with
        | none => rfl
        | some r => rfl

/-- An allocation fails in a set of a new key. -/
def Fails (m : MapBase α vSize) (alloc reAlloc : Bool) : Prop :=
  alloc = false ∨ m.bucketCount ≤ m.nodeCount ∧ reAlloc = false

/-- A set returns NULL, stays inside of what is allocated, and leaves what the keys have and how many they are. -/
def Untouched (m : MapBase α vSize) (r? : Option (Option (List U8) × MapBase α vSize)) : Prop :=
  ∃ m', r? = some (none, m') ∧ (∀ key, m'.get key = m.get key) ∧ m'.nodeCount = m.nodeCount

theorem Holds.lt_grown (h : Holds m f) :
    m.buckets.length < (if m.bucketCount < 32 then (32 : U32) else m.bucketCount <<< 1).toNat := by
  have hsize := h.size
  have hcount := bucketCount_toNat h.size
  have h32 : (32 : U32).toNat = 32 := rfl
  split
  · rename_i hsmall
    rwa [BitVec.lt_def, hcount] at hsmall
  · rename_i hlarge
    rw [BitVec.lt_def, hcount] at hlarge
    rw [BitVec.toNat_shiftLeft, hcount, Nat.shiftLeft_eq]
    omega

/-- Clearing buckets that there are not goes past the array. -/
theorem Holds.makeRoomWith_false (h : Holds m f) (hfull : m.bucketCount ≤ m.nodeCount) :
    m.makeRoomWith false = if m.buckets = [] then some (false, m) else none := by
  have hclear : m.clearBuckets (if m.bucketCount < 32 then 32 else m.bucketCount <<< 1) = none :=
    if_neg (Nat.not_le.mpr h.lt_grown)
  rw [makeRoomWith, if_pos hfull, resizeWith, hclear]
  rfl

/-- A set whose allocations fail leaves a map as it is just when it is the node that there is no memory for, or there are
    no buckets yet. -/
theorem setWith_untouched {initSize : U32} {ops : List (MapOp α)} (hinit : init initSize = some m₀) (h : Reaches m₀ ops m)
    (hnew : m.getRef key = some none) {alloc reAlloc : Bool} (hfails : m.Fails alloc reAlloc) :
    m.Untouched (m.setWith alloc reAlloc key value) ↔
      alloc = false ∨ m.buckets = [] ∧ nodeSize vSize key < 2 ^ 32 := by
  obtain ⟨f, hholds⟩ := h.exists_holds hinit
  cases alloc with
  | false =>
    refine iff_of_true ⟨m, ?_, fun key => rfl, rfl⟩ (.inl rfl)
    rw [setWith, hnew]
    rfl
  | true =>
    obtain ⟨hfull, rfl⟩ := hfails.resolve_left Bool.noConfusion
    have hset : m.setWith true false key value = (newNode vSize key value).bind fun _ =>
        if m.buckets = [] then some (none, m) else none := by
      rw [setWith, hnew, hholds.makeRoomWith_false hfull]
      by_cases hnil : m.buckets = []
      · simp only [if_pos hnil]
        rfl
      · simp only [if_neg hnil]
        rfl
    rw [hset]
    constructor
    · rintro ⟨m', hm', -⟩
      obtain ⟨node, hnode, hm'⟩ := Option.bind_eq_some_iff.mp hm'
      split at hm'
      · rename_i hnil
        exact .inr ⟨hnil, (newNode_some hnode).2.2.2⟩
      · cases hm'
    · rintro (hfalse | ⟨hnil, hsize⟩)
      · cases hfalse
      · have hlen : key.length < 2 ^ 31 := by
          by_contra hlong
          rw [MapBase.getRef, hashString, if_neg hlong] at hnew
          cases hnew
        obtain ⟨node, hnode, -⟩ := newNode_eq hlen hsize value
        refine ⟨m, ?_, fun key => rfl, rfl⟩
        rw [hnode, Option.bind_some, if_pos hnil]

theorem setWith_untouched_first :
    ({} : MapBase Nat 8).Untouched (({} : MapBase Nat 8).setWith true false (ascii ['a']) 1) :=
  have hreach : Reaches ({} : MapBase Nat 8) [] {} := .nil
  have hinit : init 0 = some ({} : MapBase Nat 8) := rfl
  (setWith_untouched hinit hreach (by decide +kernel) (.inr ⟨by decide, rfl⟩)).mpr (.inr ⟨rfl, by decide⟩)

/-- Without memory for more buckets, a set of a second key clears 32 buckets where there is one. -/
theorem bucket_cleared_outside : ∃ m₀ m : MapBase Nat 8, init 1 = some m₀ ∧ Reaches m₀ [.set (ascii ['a']) 1] m ∧
    m.getRef (ascii ['b']) = some none ∧ m.Fails true false ∧ ¬m.Untouched (m.setWith true false (ascii ['b']) 2) := by
  obtain ⟨m₀, m, hinit, hm, href, hfull, hset⟩ : ∃ m₀ m : MapBase Nat 8, init 1 = some m₀ ∧
      m₀.apply (.set (ascii ['a']) 1) = some m ∧ m.getRef (ascii ['b']) = some none ∧ m.bucketCount ≤ m.nodeCount ∧
      m.setWith true false (ascii ['b']) 2 = none := by
    have hall : ((init 1 : Option (MapBase Nat 8)).bind (·.apply (.set (ascii ['a']) 1))).all (fun m =>
        m.getRef (ascii ['b']) = some none ∧ m.bucketCount ≤ m.nodeCount ∧
          m.setWith true false (ascii ['b']) 2 = none) ∧
        ((init 1 : Option (MapBase Nat 8)).bind (·.apply (.set (ascii ['a']) 1))).isSome := by decide +kernel
    obtain ⟨m, hbind⟩ := Option.isSome_iff_exists.mp hall.2
    obtain ⟨m₀, hinit, hm⟩ := Option.bind_eq_some_iff.mp hbind
    rw [hbind] at hall
    obtain ⟨href, hfull, hset⟩ := of_decide_eq_true hall.1
    exact ⟨m₀, m, hinit, hm, href, hfull, hset⟩
  refine ⟨m₀, m, hinit, Reaches.nil.snoc (by decide) hm, href, .inr ⟨hfull, rfl⟩, ?_⟩
  rintro ⟨m', hm', -⟩
  rw [hset] at hm'
  cases hm'

end Cyntatic.MapBase
