import Mathlib.Data.Set.Card
import Mathlib.Data.List.Perm.Basic
import Cyntatic.Compiler.Token
import Cyntatic.Util.Map

/-! A map behaves as a finite map as long as no string of the same hash that a key starts stands before the key in its
    chain, and no size wraps. -/

namespace Cyntatic

/-! ### Strings -/

/-- Bytes of a string, none of which ends it. -/
def NulFree (s : List U8) : Prop := 0 ∉ s

instance (s : List U8) : Decidable (NulFree s) := inferInstanceAs (Decidable (0 ∉ s))

theorem strncmp_succ {s t : List U8} {n : Nat} : strncmp s t (n + 1) = 0 ↔
    s.headD 0 = t.headD 0 ∧ (s.headD 0 = 0 ∨ strncmp s.tail t.tail n = 0) := by
  rw [strncmp]
  split
  · rename_i hne
    refine iff_of_false (fun heq => hne (BitVec.eq_of_toNat_eq ?_)) fun h => hne h.1
    omega
  · rename_i heq
    rw [not_not] at heq
    split
    · rename_i hz
      exact iff_of_true rfl ⟨heq, .inl hz⟩
    · rename_i hz
      exact ⟨fun h => ⟨heq, .inr h⟩, fun h => h.2.resolve_left hz⟩

theorem strncmp_eq_zero {s t : List U8} (ht : NulFree t) : strncmp s t t.length = 0 ↔ t <+: s := by
  induction t generalizing s with
  | nil => exact iff_of_true rfl (List.nil_prefix)
  | cons c t ih =>
    have hc : c ≠ 0 := fun h => ht (h ▸ List.mem_cons_self)
    have htail : NulFree t := fun h => ht (List.mem_cons_of_mem c h)
    rw [List.length_cons, strncmp_succ, List.headD_cons, List.tail_cons]
    cases s with
    | nil => exact iff_of_false (fun h => hc h.1.symm) (by simp)
    | cons d s =>
      rw [List.headD_cons, List.tail_cons, List.cons_prefix_cons, ih htail]
      refine ⟨fun h => ⟨h.1.symm, h.2.resolve_left fun hd => hc (h.1 ▸ hd)⟩, fun h => ⟨h.1.symm, .inr h.2⟩⟩

theorem strncmp_self (s : List U8) : strncmp s s s.length = 0 := by
  induction s with
  | nil => rfl
  | cons c s ih => exact strncmp_succ.mpr ⟨rfl, .inr ih⟩

namespace MapBase
variable {α : Type} {vSize : Nat} {m m' : MapBase α vSize} {key : List U8} {node : MapNode α}

/-! ### Buckets -/

/-- All nodes, bucket after bucket. -/
def nodes (m : MapBase α vSize) : List (MapNode α) := m.buckets.flatten

/-- One bucket, and what is around it. -/
theorem nodes_modify {n : Nat} (hn : n < m.buckets.length) : ∃ xs ys, m.nodes = xs ++ m.buckets[n] ++ ys ∧
    ∀ (g : List (MapNode α) → List (MapNode α)) (count : U32),
      nodes ({ buckets := m.buckets.modify n g, nodeCount := count } : MapBase α vSize) = xs ++ g m.buckets[n] ++ ys := by
  refine ⟨(m.buckets.take n).flatten, (m.buckets.drop (n + 1)).flatten, ?_, fun g count => ?_⟩
  · unfold nodes
    conv_lhs => rw [← List.take_append_drop n m.buckets, List.drop_eq_getElem_cons hn]
    simp only [List.flatten_append, List.flatten_cons, List.append_assoc]
  · unfold nodes
    simp only [List.modify_eq_take_cons_drop hn, List.flatten_append, List.flatten_cons, List.append_assoc]

theorem bucketCount_toNat (hm : 8 * m.buckets.length < 2 ^ 32) : m.bucketCount.toNat = m.buckets.length := by
  rw [bucketCount, BitVec.toNat_ofNat, Nat.mod_eq_of_lt (by omega)]

theorem bucketIdx_lt (hm : 8 * m.buckets.length < 2 ^ 32) (hpos : 0 < m.buckets.length) (hash : U32) :
    m.bucketIdx hash < m.buckets.length := by
  have hle : (hash &&& (m.bucketCount - 1)).toNat ≤ (m.bucketCount - 1).toNat := by
    rw [BitVec.toNat_and]
    exact Nat.and_le_right
  have hsub : (m.bucketCount - 1).toNat = m.buckets.length - 1 := by
    rw [BitVec.toNat_sub_of_le, bucketCount_toNat hm]
    · rfl
    · rw [BitVec.le_def, bucketCount_toNat hm]
      exact hpos
  rw [bucketIdx]
  omega

/-- Every node is in the bucket of its hash. -/
def InPlace (m : MapBase α vSize) : Prop := ∀ i, ∀ node ∈ m.buckets.getD i [], m.bucketIdx node.hash = i

theorem InPlace.modify (h : InPlace m) {n : Nat} {g : List (MapNode α) → List (MapNode α)} {count : U32}
    (hg : ∀ node ∈ g (m.buckets.getD n []), m.bucketIdx node.hash = n) :
    InPlace ({ buckets := m.buckets.modify n g, nodeCount := count } : MapBase α vSize) := by
  rintro i node hnode
  have hidx : bucketIdx ({ buckets := m.buckets.modify n g, nodeCount := count } : MapBase α vSize) node.hash =
      m.bucketIdx node.hash := by
    simp only [bucketIdx, bucketCount, List.length_modify]
  rw [hidx]
  rw [List.getD_eq_getElem?_getD, List.getElem?_modify] at hnode
  by_cases hni : n = i
  · subst hni
    cases hb : m.buckets[n]? with
    | none => simp [hb] at hnode
    | some bucket =>
      refine hg node ?_
      rw [List.getD_eq_getElem?_getD, hb]
      simpa [hb] using hnode
  · refine h i node ?_
    rw [List.getD_eq_getElem?_getD]
    simpa [hni] using hnode

theorem mem_nodes_of_getD {i : Nat} (h : node ∈ m.buckets.getD i []) : node ∈ m.nodes := by
  rw [List.getD_eq_getElem?_getD] at h
  cases hb : m.buckets[i]? with
  | none => simp [hb] at h
  | some bucket => exact List.mem_flatten.mpr ⟨bucket, List.mem_of_getElem? hb, by simpa [hb] using h⟩

theorem InPlace.mem_bucket (h : InPlace m) (hnode : node ∈ m.nodes) : node ∈ m.buckets.getD (m.bucketIdx node.hash) [] := by
  obtain ⟨bucket, hbucket, hmem⟩ := List.mem_flatten.mp hnode
  obtain ⟨i, hi, rfl⟩ := List.getElem_of_mem hbucket
  have hget : m.buckets.getD i [] = m.buckets[i] := by simp [List.getD_eq_getElem?_getD, hi]
  rw [h i node (hget ▸ hmem), hget]
  exact hmem

/-! ### The nodes of a finite map -/

/-- The nodes have the values of the keys. -/
def Entries (f : List U8 → Option α) (nodes : List (MapNode α)) : Prop :=
  ∀ key value, f key = some value ↔ ∃ node ∈ nodes, node.key = key ∧ node.value = value

variable {f : List U8 → Option α} {xs ys ns ns' : List (MapNode α)} {value : α}

theorem Entries.perm (h : Entries f ns) (hp : ns.Perm ns') : Entries f ns' := by
  intro key value
  rw [h key value]
  simp only [hp.mem_iff]

theorem Entries.eq_none (h : Entries f ns) (hk : ∀ node ∈ ns, node.key ≠ key) : f key = none := by
  cases hf : f key with
  | none => rfl
  | some value =>
    obtain ⟨node, hnode, heq, -⟩ := (h key value).mp hf
    exact absurd heq (hk node hnode)

theorem Entries.cons (h : Entries f ns) (hk : ∀ x ∈ ns, x.key ≠ node.key) :
    Entries (Function.update f node.key (some node.value)) (node :: ns) := by
  intro key value
  simp only [List.mem_cons, exists_eq_or_imp]
  by_cases hkey : key = node.key
  · subst hkey
    rw [Function.update_self, Option.some.injEq]
    refine ⟨fun hv => .inl ⟨rfl, hv⟩, fun hv => ?_⟩
    rcases hv with ⟨-, hv⟩ | ⟨x, hx, heq, -⟩
    · exact hv
    · exact absurd heq (hk x hx)
  · rw [Function.update_of_ne hkey, h key value]
    refine ⟨.inr, fun hv => hv.resolve_left fun hv => hkey hv.1.symm⟩

theorem Entries.erase (h : Entries f (node :: ns)) (hk : ∀ x ∈ ns, x.key ≠ node.key) :
    Entries (Function.update f node.key none) ns := by
  intro key value
  by_cases hkey : key = node.key
  · subst hkey
    rw [Function.update_self]
    refine iff_of_false (by simp) ?_
    rintro ⟨x, hx, heq, -⟩
    exact hk x hx heq
  · rw [Function.update_of_ne hkey, h key value]
    simp only [List.mem_cons, exists_eq_or_imp]
    refine ⟨fun hv => hv.resolve_left fun hv => hkey hv.1.symm, .inr⟩

/-! ### Maps that hold the values of their keys -/

/-- A map with the values of its keys. -/
structure Holds (m : MapBase α vSize) (f : List U8 → Option α) : Prop where
  size : 8 * m.buckets.length < 2 ^ 32
  room : m.nodes.length ≤ m.buckets.length
  count : m.nodeCount.toNat = m.nodes.length
  place : InPlace m
  hash : ∀ node ∈ m.nodes, hashString node.key = some node.hash
  nodup : (m.nodes.map (·.key)).Nodup
  entries : Entries f m.nodes

/-- The chain that a key is looked for in. -/
def chain (m : MapBase α vSize) (key : List U8) : List (MapNode α) :=
  match hashString key with
  | some hash => m.buckets.getD (m.bucketIdx hash) []
  | none => []

/-- No node before that of the key has a string of the same hash that the key starts. -/
def Clear (m : MapBase α vSize) (key : List U8) : Prop :=
  ∀ node ∈ (m.chain key).takeWhile (·.key ≠ key), key <+: node.key → hashString node.key ≠ hashString key

theorem findIdx?_congr_of_first {β : Type} {p q : β → Bool} {l : List β} (hpq : ∀ x ∈ l, q x → p x)
    (hfirst : ∀ x ∈ l.takeWhile (!q ·), p x = false) : l.findIdx? p = l.findIdx? q := by
  induction l with
  | nil => rfl
  | cons x l ih =>
    rw [List.findIdx?_cons, List.findIdx?_cons]
    by_cases hq : q x = true
    · rw [if_pos hq, if_pos (hpq x List.mem_cons_self hq)]
    · have hx : (x :: l).takeWhile (!q ·) = x :: l.takeWhile (!q ·) := by simp [hq]
      rw [hx] at hfirst
      have hp := hfirst x List.mem_cons_self
      rw [if_neg hq, if_neg (by simp [hp]), ih (fun y hy => hpq y (List.mem_cons_of_mem x hy))
        fun y hy => hfirst y (List.mem_cons_of_mem x hy)]

theorem getRef_of_hash {hash : U32} (hhash : hashString key = some hash) :
    m.getRef key = some (if 0 < m.bucketCount then ((m.buckets.getD (m.bucketIdx hash) []).findIdx? fun node =>
      node.hash = hash ∧ strncmp node.key key key.length = 0).map (m.bucketIdx hash, ·) else none) := by
  rw [MapBase.getRef, hhash, Option.bind_eq_bind, Option.bind_some]
  split
  · rfl
  · rfl

/-- A key that is not in the chain of its hash is nowhere. -/
theorem Holds.absent (h : Holds m f) {hash : U32} (hhash : hashString key = some hash)
    (hbucket : ∀ node ∈ m.buckets.getD (m.bucketIdx hash) [], node.key ≠ key) : ∀ node ∈ m.nodes, node.key ≠ key := by
  rintro node hnode rfl
  obtain rfl := Option.some.inj (hhash.symm.trans (h.hash node hnode))
  exact hbucket node (h.place.mem_bucket hnode) rfl

theorem Holds.bucketCount_pos (h : Holds m f) : 0 < m.bucketCount ↔ 0 < m.buckets.length := by
  rw [BitVec.lt_def, bucketCount_toNat h.size]
  rfl

theorem Holds.getD_bucketIdx (h : Holds m f) (hpos : 0 < m.bucketCount) (hash : U32) :
    ∃ hn : m.bucketIdx hash < m.buckets.length,
      m.buckets.getD (m.bucketIdx hash) [] = m.buckets[m.bucketIdx hash] := by
  have hlt := bucketIdx_lt h.size (h.bucketCount_pos.mp hpos) hash
  exact ⟨hlt, by simp [List.getD_eq_getElem?_getD, hlt]⟩

theorem Holds.nodes_eq_nil (h : Holds m f) (hpos : ¬0 < m.bucketCount) : m.nodes = [] := by
  have hzero : m.buckets = [] := by
    refine List.eq_nil_of_length_eq_zero ?_
    exact Nat.eq_zero_of_not_pos fun hlen => hpos (h.bucketCount_pos.mpr hlen)
  rw [nodes, hzero, List.flatten_nil]

/-- A key is found at its own node. -/
theorem Holds.getRef (h : Holds m f) (hnul : NulFree key) (hlen : key.length < 2 ^ 31) (hclear : Clear m key) :
    (m.getRef key = some none ∧ ∀ node ∈ m.nodes, node.key ≠ key) ∨
      ∃ n i, ∃ hn : n < m.buckets.length, ∃ hi : i < m.buckets[n].length,
        m.getRef key = some (some (n, i)) ∧ m.buckets[n][i].key = key := by
  obtain ⟨hash, hhash⟩ : ∃ hash, hashString key = some hash := ⟨_, if_pos hlen⟩
  have hfind : (m.buckets.getD (m.bucketIdx hash) []).findIdx?
      (fun node => node.hash = hash ∧ strncmp node.key key key.length = 0) =
      (m.buckets.getD (m.bucketIdx hash) []).findIdx? (·.key = key) := by
    refine findIdx?_congr_of_first (fun node hnode hkey => ?_) fun node hnode => ?_
    · obtain rfl := of_decide_eq_true hkey
      have hsame := h.hash node (mem_nodes_of_getD hnode)
      rw [hhash, Option.some.injEq] at hsame
      exact decide_eq_true ⟨hsame.symm, strncmp_self node.key⟩
    · have hmem := mem_nodes_of_getD ((List.takeWhile_sublist _).subset hnode)
      have hne := hclear node (by simpa [chain, hhash] using hnode)
      refine decide_eq_false fun hand => hne ((strncmp_eq_zero hnul).mp hand.2) ?_
      rw [hhash, h.hash node hmem, hand.1]
  rw [getRef_of_hash hhash, hfind]
  by_cases hpos : 0 < m.bucketCount
  · obtain ⟨hlt, hbucket⟩ := h.getD_bucketIdx hpos hash
    rw [if_pos hpos]
    cases hidx : (m.buckets.getD (m.bucketIdx hash) []).findIdx? (·.key = key) with
    | none =>
      refine .inl ⟨rfl, h.absent hhash fun node hnode => ?_⟩
      exact of_decide_eq_false (List.findIdx?_eq_none_iff.mp hidx node hnode)
    | some i =>
      obtain ⟨hi, hkey, -⟩ := List.findIdx?_eq_some_iff_getElem.mp hidx
      refine .inr ⟨_, i, hlt, hbucket ▸ hi, rfl, ?_⟩
      simpa only [hbucket, decide_eq_true_eq] using hkey
  · rw [if_neg hpos]
    refine .inl ⟨rfl, fun node hnode => ?_⟩
    rw [h.nodes_eq_nil hpos] at hnode
    cases hnode

/-- A string that starts no key of its hash is not found. -/
theorem get_eq_none (hnul : NulFree key) (hlen : key.length < 2 ^ 31)
    (h : ∀ node ∈ m.nodes, hashString key = some node.hash → ¬key <+: node.key) : m.get key = some none := by
  obtain ⟨hash, hhash⟩ : ∃ hash, hashString key = some hash := ⟨_, if_pos hlen⟩
  have hfind : (m.buckets.getD (m.bucketIdx hash) []).findIdx?
      (fun node => node.hash = hash ∧ strncmp node.key key key.length = 0) = none := by
    refine List.findIdx?_eq_none_iff.mpr fun node hnode => decide_eq_false fun hand => ?_
    exact h node (mem_nodes_of_getD hnode) (hand.1 ▸ hhash) ((strncmp_eq_zero hnul).mp hand.2)
  rw [MapBase.get, getRef_of_hash hhash, hfind, Option.map_none, ite_self]
  rfl

/-- A lookup comes to an end for every string that has a hash. -/
theorem get_none_iff : m.get key = none ↔ 2 ^ 31 ≤ key.length := by
  rw [MapBase.get]
  by_cases hlen : key.length < 2 ^ 31
  · obtain ⟨hash, hhash⟩ : ∃ hash, hashString key = some hash := ⟨_, if_pos hlen⟩
    refine iff_of_false (fun h => ?_) (Nat.not_le.mpr hlen)
    rw [getRef_of_hash hhash, Option.bind_eq_bind, Option.bind_some] at h
    split at h <;> cases h
  · have hnone : hashString key = none := if_neg hlen
    refine iff_of_true ?_ (Nat.le_of_not_lt hlen)
    rw [getRef, hnone]
    rfl

/-- What is found is the value of a node. -/
theorem mem_of_get {v : α} (h : m.get key = some (some v)) : ∃ node ∈ m.nodes, node.value = v := by
  rw [MapBase.get] at h
  cases href : m.getRef key with
  | none =>
    rw [href] at h
    cases h
  | some at? =>
    rw [href, Option.bind_eq_bind, Option.bind_some] at h
    cases at? with
    | none => cases h
    | some ni =>
      have hvalue : ((m.buckets.getD ni.1 [])[ni.2]?).map (·.value) = some v := Option.some.inj h
      obtain ⟨node, hnode, hv⟩ := Option.map_eq_some_iff.mp hvalue
      exact ⟨node, mem_nodes_of_getD (List.mem_of_getElem? hnode), hv⟩

theorem Holds.get (h : Holds m f) (hnul : NulFree key) (hlen : key.length < 2 ^ 31) (hclear : Clear m key) :
    m.get key = some (f key) := by
  rw [MapBase.get]
  rcases h.getRef hnul hlen hclear with ⟨href, hnone⟩ | ⟨n, i, hn, hi, href, hkey⟩
  · rw [href, h.entries.eq_none hnone]
    rfl
  · have hmem : m.buckets[n][i] ∈ m.nodes := List.mem_flatten.mpr ⟨_, List.getElem_mem hn, List.getElem_mem hi⟩
    rw [href, (h.entries key _).mpr ⟨_, hmem, hkey, rfl⟩]
    simp [List.getD_eq_getElem?_getD, hn, hi]

/-- One node, and what becomes of the nodes when it changes or goes. -/
theorem nodes_at {n i : Nat} (hn : n < m.buckets.length) (hi : i < m.buckets[n].length) (count : U32) :
    ∃ rest, m.nodes.Perm (m.buckets[n][i] :: rest) ∧
      (∀ g, (nodes ({ buckets := m.buckets.modify n (·.modify i g), nodeCount := count } : MapBase α vSize)).Perm
        (g m.buckets[n][i] :: rest)) ∧
      (nodes ({ buckets := m.buckets.modify n (·.eraseIdx i), nodeCount := count } : MapBase α vSize)).Perm rest := by
  obtain ⟨xs, ys, hnodes, hmod⟩ := nodes_modify hn
  refine ⟨xs ++ m.buckets[n].eraseIdx i ++ ys, ?_, fun g => ?_, ?_⟩
  · rw [hnodes]
    have hperm := (List.getElem_cons_eraseIdx_perm hi).symm
    exact ((hperm.append_left xs).append_right ys).trans (List.perm_middle.append_right ys)
  · rw [hmod, List.modify_eq_take_cons_drop hi, List.eraseIdx_eq_take_drop_succ]
    have hperm : (m.buckets[n].take i ++ g m.buckets[n][i] :: m.buckets[n].drop (i + 1)).Perm
        (g m.buckets[n][i] :: (m.buckets[n].take i ++ m.buckets[n].drop (i + 1))) := List.perm_middle
    exact ((hperm.append_left xs).append_right ys).trans (List.perm_middle.append_right ys)
  · rw [hmod]

theorem addNode_length (node : MapNode α) : (m.addNode node).buckets.length = m.buckets.length := List.length_modify ..

theorem addNode_perm (hm : 8 * m.buckets.length < 2 ^ 32) (hpos : 0 < m.buckets.length) (node : MapNode α) (count : U32) :
    (nodes ({ m.addNode node with nodeCount := count } : MapBase α vSize)).Perm (node :: m.nodes) := by
  obtain ⟨xs, ys, hnodes, hmod⟩ := nodes_modify (bucketIdx_lt hm hpos node.hash)
  have hadd := hmod (node :: ·) count
  rw [hnodes]
  change (nodes ({ m.addNode node with nodeCount := count } : MapBase α vSize)) = _ at hadd
  rw [hadd]
  exact List.perm_middle.append_right ys

theorem InPlace.addNode (h : InPlace m) (node : MapNode α) (count : U32) :
    InPlace ({ m.addNode node with nodeCount := count } : MapBase α vSize) := by
  refine h.modify fun x hx => ?_
  rcases List.mem_cons.mp hx with rfl | hx
  · rfl
  · exact h _ x hx

theorem chainAll_perm (m : MapBase α vSize) : m.chainAll.Perm m.nodes := by
  have hfold : ∀ (bs : List (List (MapNode α))) (ns : List (MapNode α)),
      (bs.foldl (fun nodes bucket => bucket.foldl (fun nodes node => node :: nodes) nodes) ns).Perm (bs.flatten ++ ns) := by
    intro bs
    induction bs with
    | nil => exact fun ns => List.Perm.refl ns
    | cons b bs ih =>
      intro ns
      refine (ih _).trans ?_
      change (bs.flatten ++ b.foldl (fun nodes node => node :: nodes) ns).Perm _
      rw [List.foldl_flip_cons_eq_append', List.flatten_cons, List.append_assoc]
      have hb := (List.reverse_perm b).append_right ns
      refine (hb.append_left bs.flatten).trans ?_
      rw [← List.append_assoc, ← List.append_assoc]
      exact List.perm_append_comm.append_right ns
  refine (hfold m.buckets.reverse []).trans ?_
  rw [List.append_nil]
  exact (List.reverse_perm m.buckets).flatten

/-- Adding nodes one after the other. -/
theorem foldl_addNode (hm : 8 * m.buckets.length < 2 ^ 32) (hpos : 0 < m.buckets.length) (h : InPlace m)
    (ns : List (MapNode α)) : (ns.foldl addNode m).buckets.length = m.buckets.length ∧ InPlace (ns.foldl addNode m) ∧
      (ns.foldl addNode m).nodes.Perm (ns ++ m.nodes) := by
  induction ns generalizing m with
  | nil => exact ⟨rfl, h, List.Perm.refl _⟩
  | cons node ns ih =>
    have hlen := addNode_length (m := m) node
    obtain ⟨hl, hp, hns⟩ := ih (hlen ▸ hm) (hlen ▸ hpos) (h.addNode node m.nodeCount)
    refine ⟨hl.trans hlen, hp, hns.trans ?_⟩
    exact ((addNode_perm hm hpos node m.nodeCount).append_left ns).trans List.perm_middle

/-- The buckets of a map that has grown. -/
theorem resize_perm {n : U32} (hpos : 0 < n) (h : m.resize n = some m') : 8 * m'.buckets.length < 2 ^ 32 ∧
    m'.buckets.length = n.toNat ∧ InPlace m' ∧ m'.nodes.Perm m.nodes := by
  unfold resize at h
  split at h
  · rename_i hn
    obtain rfl := Option.some.inj h
    have hempty : ∀ i, ((List.replicate n.toNat []).getD i [] : List (MapNode α)) = [] := by
      intro i
      rw [List.getD_eq_getElem?_getD, List.getElem?_replicate]
      split <;> rfl
    have hplace : InPlace ({ m with buckets := List.replicate n.toNat [] } : MapBase α vSize) := by
      rintro i node hnode
      rw [hempty] at hnode
      cases hnode
    obtain ⟨hl, hp, hns⟩ := foldl_addNode (m := { m with buckets := List.replicate n.toNat [] })
      (by rwa [List.length_replicate]) (by rwa [List.length_replicate]) hplace m.chainAll
    rw [List.length_replicate] at hl
    refine ⟨by rwa [hl], hl, hp, hns.trans ?_⟩
    have hnil : nodes ({ m with buckets := List.replicate n.toNat [] } : MapBase α vSize) = [] := by simp [nodes]
    rw [hnil, List.append_nil]
    exact chainAll_perm m
  · cases h

/-! ### Calls -/

/-- The size of a node. -/
def nodeSize (vSize : Nat) (key : List U8) : Nat := 24 + (key.length + 1 + (2 ^ 64 + 8 - (key.length + 1)) % 8) + vSize

/-- A set of a key that the map does not have. -/
def IsNew (m : MapBase α vSize) (op : MapOp α) : Prop :=
  (∃ value, op = .set op.key value) ∧ ∀ node ∈ m.nodes, node.key ≠ op.key

/-- The key is no longer than an `int` counts and nothing stands in its way; and there is room for a node that is new,
    also in the buckets if these are full. -/
structure Fits (m : MapBase α vSize) (op : MapOp α) : Prop where
  length : op.key.length < 2 ^ 31
  clear : Clear m op.key
  node : IsNew m op → nodeSize vSize op.key < 2 ^ 32
  buckets : IsNew m op → m.nodes.length = m.buckets.length → 16 * m.buckets.length < 2 ^ 32

/-- The removal of a node. -/
theorem Holds.erase (h : Holds m f) {n i : Nat} (hn : n < m.buckets.length) (hi : i < m.buckets[n].length) :
    Holds ({ buckets := m.buckets.modify n (·.eraseIdx i), nodeCount := m.nodeCount - 1 } : MapBase α vSize)
      (Function.update f m.buckets[n][i].key none) := by
  obtain ⟨rest, hnodes, -, herase⟩ := nodes_at hn hi (m.nodeCount - 1)
  have hcount := h.count
  have hlength := hnodes.length_eq
  have hnodup := (hnodes.map (·.key)).nodup_iff.mp h.nodup
  rw [List.map_cons, List.nodup_cons] at hnodup
  have hsize := h.size
  have hroom := h.room
  have hone : (1 : U32) ≤ m.nodeCount := by
    rw [BitVec.le_def, hcount, hlength]
    exact Nat.succ_le_succ (Nat.zero_le _)
  rw [List.length_cons] at hlength
  constructor
  · rwa [List.length_modify]
  · rw [List.length_modify, herase.length_eq]
    omega
  · rw [herase.length_eq, BitVec.toNat_sub_of_le hone, hcount, hlength]
    rfl
  · exact h.place.modify fun node hnode => h.place n node ((List.eraseIdx_sublist _ _).subset hnode)
  · exact fun node hnode => h.hash node (hnodes.mem_iff.mpr (List.mem_cons_of_mem _ (herase.mem_iff.mp hnode)))
  · exact (herase.map (·.key)).nodup_iff.mpr hnodup.2
  · refine Entries.perm ?_ herase.symm
    refine (h.entries.perm hnodes).erase fun x hx heq => hnodup.1 (List.mem_map.mpr ⟨x, hx, heq⟩)

theorem Holds.remove (h : Holds m f) (hnul : NulFree key) (hlen : key.length < 2 ^ 31) (hclear : Clear m key) :
    ∃ m', m.remove key = some m' ∧ Holds m' (Function.update f key none) := by
  rw [MapBase.remove]
  rcases h.getRef hnul hlen hclear with ⟨href, hnone⟩ | ⟨n, i, hn, hi, href, hkey⟩
  · rw [href, Option.bind_eq_bind, Option.bind_some]
    refine ⟨m, rfl, ?_⟩
    rwa [← h.entries.eq_none hnone, Function.update_eq_self]
  · rw [href, Option.bind_eq_bind, Option.bind_some]
    exact ⟨_, rfl, hkey ▸ h.erase hn hi⟩

/-- A set of a key that the map has. -/
theorem Holds.replace (h : Holds m f) {n i : Nat} (hn : n < m.buckets.length) (hi : i < m.buckets[n].length) (value : α) :
    Holds ({ m with buckets := m.buckets.modify n (·.modify i fun node => { node with value }) } : MapBase α vSize)
      (Function.update f m.buckets[n][i].key (some value)) := by
  obtain ⟨rest, hnodes, hmod, -⟩ := nodes_at hn hi m.nodeCount
  specialize hmod fun node => { node with value }
  have hlength := hnodes.length_eq.trans hmod.length_eq.symm
  have hnodup := (hnodes.map (·.key)).nodup_iff.mp h.nodup
  have hkeys := List.nodup_cons.mp hnodup
  constructor
  · exact (List.length_modify ..).symm ▸ h.size
  · exact (List.length_modify ..).symm ▸ hlength ▸ h.room
  · exact h.count.trans hlength
  · refine h.place.modify fun node hnode => ?_
    obtain ⟨j, hj, rfl⟩ := List.getElem_of_mem hnode
    rw [List.length_modify] at hj
    rw [List.getElem_modify]
    have hplace := h.place n _ (List.getElem_mem hj)
    split
    · exact hplace
    · exact hplace
  · rintro node hnode
    rcases List.mem_cons.mp (hmod.mem_iff.mp hnode) with rfl | hnode
    · exact h.hash m.buckets[n][i] (hnodes.mem_iff.mpr List.mem_cons_self)
    · exact h.hash node (hnodes.mem_iff.mpr (List.mem_cons_of_mem _ hnode))
  · exact (hmod.map (·.key)).nodup_iff.mpr hnodup
  · refine Entries.perm ?_ hmod.symm
    have hne : ∀ x ∈ rest, x.key ≠ m.buckets[n][i].key := fun x hx heq => hkeys.1 (List.mem_map.mpr ⟨x, hx, heq⟩)
    have hcons := @Entries.cons _ { m.buckets[n][i] with value } _ _ ((h.entries.perm hnodes).erase hne) hne
    rwa [Function.update_idem] at hcons

/-- A node that is new, in buckets with room for it. -/
theorem Holds.grow (h : Holds m f) (hm' : 8 * m'.buckets.length < 2 ^ 32) (hplace : InPlace m') (hnodes : m'.nodes.Perm m.nodes)
    (hroom : m.nodes.length < m'.buckets.length) (hhash : hashString node.key = some node.hash)
    (hnew : ∀ x ∈ m.nodes, x.key ≠ node.key) :
    Holds ({ m'.addNode node with nodeCount := m.nodeCount + 1 } : MapBase α vSize)
      (Function.update f node.key (some node.value)) := by
  have hadd := (addNode_perm hm' (Nat.zero_lt_of_lt hroom) node (m.nodeCount + 1)).trans (hnodes.cons node)
  have hlength := addNode_length (m := m') node
  constructor
  · exact hlength ▸ hm'
  · rw [hadd.length_eq]
    exact hlength ▸ hroom
  · rw [hadd.length_eq, BitVec.toNat_add, h.count, List.length_cons]
    exact Nat.mod_eq_of_lt (by change m.nodes.length + 1 < 2 ^ 32; omega)
  · exact hplace.addNode node _
  · rintro x hx
    rcases List.mem_cons.mp (hadd.mem_iff.mp hx) with rfl | hx
    · exact hhash
    · exact h.hash x hx
  · refine (hadd.map (·.key)).nodup_iff.mpr (List.nodup_cons.mpr ⟨?_, h.nodup⟩)
    rintro hmem
    obtain ⟨x, hx, heq⟩ := List.mem_map.mp hmem
    exact hnew x hx heq
  · exact (h.entries.cons hnew).perm hadd.symm

theorem newNode_eq (hlen : key.length < 2 ^ 31) (hsize : nodeSize vSize key < 2 ^ 32) (value : α) :
    ∃ node, newNode vSize key value = some node ∧ node.key = key ∧ node.value = value ∧
      hashString node.key = some node.hash := by
  have hhash : hashString key = some _ := if_pos hlen
  unfold newNode
  rw [hhash]
  exact ⟨_, if_pos hsize, rfl, rfl, hhash⟩

/-- Buckets with room for one more node. -/
theorem Holds.makeRoom (h : Holds m f) (hfits : m.nodes.length = m.buckets.length → 16 * m.buckets.length < 2 ^ 32) :
    ∃ m', m.makeRoom = some m' ∧ 8 * m'.buckets.length < 2 ^ 32 ∧ InPlace m' ∧ m'.nodes.Perm m.nodes ∧
      m.nodes.length < m'.buckets.length := by
  have hroom := h.room
  have hbucket := bucketCount_toNat h.size
  unfold MapBase.makeRoom
  split
  · rename_i hfull
    rw [BitVec.le_def, h.count, hbucket] at hfull
    specialize hfits (Nat.le_antisymm hroom hfull)
    obtain ⟨n, hn, hpos, hsize, hlt⟩ : ∃ n, (if m.bucketCount < 32 then (32 : U32) else m.bucketCount <<< 1) = n ∧ 0 < n ∧
        8 * n.toNat < 2 ^ 32 ∧ m.nodes.length < n.toNat := by
      refine ⟨_, rfl, ?_⟩
      split
      · rename_i hsmall
        rw [BitVec.lt_def, hbucket] at hsmall
        exact ⟨by decide, by decide, Nat.lt_of_le_of_lt hroom hsmall⟩
      · rename_i hlarge
        have h32 : 32 ≤ m.buckets.length := by
          rw [BitVec.lt_def, hbucket] at hlarge
          exact Nat.le_of_not_lt hlarge
        have hshift : (m.bucketCount <<< 1).toNat = 2 * m.buckets.length := by
          rw [BitVec.toNat_shiftLeft, hbucket, Nat.shiftLeft_eq]
          omega
        rw [BitVec.lt_def, hshift]
        refine ⟨?_, ?_, ?_⟩
        · exact Nat.mul_pos (by decide) (Nat.lt_of_lt_of_le (by decide) h32)
        · omega
        · omega
    rw [hn]
    obtain ⟨m', hm'⟩ : ∃ m', m.resize n = some m' := ⟨_, if_pos hsize⟩
    obtain ⟨hsize', hlen, hplace, hperm⟩ := resize_perm hpos hm'
    exact ⟨m', hm', hsize', hplace, hperm, hlen ▸ hlt⟩
  · rename_i hfull
    rw [BitVec.le_def, h.count, hbucket, Nat.not_le] at hfull
    exact ⟨m, rfl, h.size, h.place, List.Perm.refl _, hfull⟩

theorem Holds.set (h : Holds m f) (hnul : NulFree key) (hfits : Fits m (.set key value)) :
    ∃ m', m.set key value = some m' ∧ Holds m' (Function.update f key (some value)) := by
  rw [MapBase.set]
  rcases h.getRef hnul hfits.length hfits.clear with ⟨href, hnone⟩ | ⟨n, i, hn, hi, href, hkey⟩
  · have hnew : IsNew m (.set key value) := ⟨⟨value, rfl⟩, hnone⟩
    have hlen : key.length < 2 ^ 31 := hfits.length
    have hsize : nodeSize vSize key < 2 ^ 32 := hfits.node hnew
    obtain ⟨node, hnode, rfl, rfl, hhash⟩ := newNode_eq hlen hsize value
    obtain ⟨r, hr, hsize, hplace, hperm, hroom⟩ := h.makeRoom (hfits.buckets hnew)
    rw [href]
    change ∃ m', ((newNode vSize node.key node.value).bind fun node => m.makeRoom.bind fun r =>
      some { r.addNode node with nodeCount := m.nodeCount + 1 }) = some m' ∧ _
    rw [hnode, Option.bind_some, hr]
    exact ⟨_, rfl, h.grow hsize hplace hperm hroom hhash hnone⟩
  · rw [href, Option.bind_eq_bind, Option.bind_some]
    exact ⟨_, rfl, hkey ▸ h.replace hn hi value⟩

/-- A call does to the map what it does to the values of the keys. -/
theorem Holds.apply {op : MapOp α} (h : Holds m f) (hnul : NulFree op.key) (hfits : Fits m op) :
    ∃ m', m.apply op = some m' ∧ Holds m' (op.after f) := by
  cases op with
  | set key value => exact h.set hnul hfits
  | remove key => exact h.remove hnul hfits.length hfits.clear
  | get key =>
    refine ⟨m, ?_, h⟩
    have hget : m.get key = some (f key) := h.get hnul hfits.length hfits.clear
    rw [MapBase.apply, hget]
    rfl

theorem Holds.nodeCount (h : Holds m f) : m.nodeCount.toNat = {key | f key ≠ none}.ncard := by
  have hkeys : {key | f key ≠ none} = ((m.nodes.map (·.key)).toFinset : Set (List U8)) := by
    ext key
    simp only [Set.mem_ofPred_eq, Option.ne_none_iff_exists', List.coe_toFinset, List.mem_map]
    constructor
    · rintro ⟨value, hvalue⟩
      obtain ⟨node, hnode, hkey, -⟩ := (h.entries key value).mp hvalue
      exact ⟨node, hnode, hkey⟩
    · rintro ⟨node, hnode, hkey⟩
      exact ⟨node.value, (h.entries key _).mpr ⟨node, hnode, hkey, rfl⟩⟩
  rw [hkeys, Set.ncard_coe_finset, List.toFinset_card_of_nodup h.nodup, List.length_map, h.count]

/-! ### Runs -/

/-- A map after some calls, each of which fits. -/
inductive Run (m : MapBase α vSize) : List (MapOp α) → MapBase α vSize → Prop
  | nil : Run m [] m
  | snoc {ops : List (MapOp α)} {op : MapOp α} {m' m'' : MapBase α vSize} (h : Run m ops m') (hnul : NulFree op.key)
      (hfits : Fits m' op) (hop : m'.apply op = some m'') : Run m (ops ++ [op]) m''

theorem holds_init {initSize : U32} (h : init initSize = some m) : Holds m fun _ => none := by
  unfold init resize at h
  split at h
  · rename_i hsize
    obtain rfl := Option.some.inj h
    have hnil : ({ buckets := List.replicate initSize.toNat [] } : MapBase α vSize).nodes = [] := by simp [nodes]
    change Holds ({ buckets := List.replicate initSize.toNat [] } : MapBase α vSize) _
    constructor
    · exact List.length_replicate.symm ▸ hsize
    · rw [hnil]
      exact Nat.zero_le _
    · rw [hnil]
      rfl
    · rintro i node hnode
      have hmem := mem_nodes_of_getD hnode
      rw [hnil] at hmem
      cases hmem
    · rw [hnil]
      exact fun node hnode => absurd hnode List.not_mem_nil
    · rw [hnil]
      exact List.nodup_nil
    · rw [hnil]
      intro key value
      simp
  · cases h

theorem Run.holds {ops : List (MapOp α)} {f : List U8 → Option α} (h : Run m ops m') (hm : Holds m f) :
    Holds m' (ops.foldl MapOp.after f) := by
  induction h with
  | nil => exact hm
  | snoc h hnul hfits hop ih =>
    obtain ⟨m'', hm'', hholds⟩ := ih.apply hnul hfits
    obtain rfl := Option.some.inj (hop.symm.trans hm'')
    rwa [List.foldl_append]

end MapBase

end Cyntatic
