import Cyntatic.Library.Bits
import Cyntatic.Compiler.Pools
import Mathlib.Data.List.Nodup
import Mathlib.Data.List.Perm.Basic
import Mathlib.Tactic.IntervalCases
import Mathlib.Tactic.NormNum

/-! # Pools

What the pool allocator hands out: segments of its pools that are large enough and apart from each other. The last
segment of a pool does not fit into the storage of the pool. -/

namespace Cyntatic
open Library

/-! ### Size classes -/

theorem toNat_np2 {v : U32} (h : 2 ≤ v.toNat) : (np2 v).toNat = 2 ^ ((v.toNat - 1).log2 + 1) % 2 ^ 32 := by
  have hx : (v - 1).toNat = v.toNat - 1 := by
    rw [BitVec.toNat_sub_of_le (by rw [BitVec.le_def]; change 1 ≤ _; omega)]
    rfl
  have hspread := ((((spread_one (v.toNat - 1)).double).double).double).double.double
  have hy := hspread.eq (by omega) (by have := v.isLt; omega)
  unfold np2
  simp only [BitVec.toNat_add, BitVec.toNat_or, BitVec.toNat_ushiftRight, hx]
  rw [show (1 : U32).toNat = 1 from rfl]
  simp only [Nat.reduceAdd] at hy
  rw [hy, Nat.sub_add_cancel Nat.one_le_two_pow]

theorem toNat_n21_np2 {v : U32} (h : 2 ≤ v.toNat) (hlt : (v.toNat - 1).log2 < 31) :
    (n21 (np2 v)).toNat = (v.toNat - 1).log2 + 1 := by
  have hnp : (np2 v).toNat = 2 ^ ((v.toNat - 1).log2 + 1) := by
    rw [toNat_np2 h, Nat.mod_eq_of_lt (Nat.pow_lt_pow_right (by decide) (by omega))]
  have hne : np2 v ≠ 0 := by
    intro h0
    rw [h0] at hnp
    exact absurd hnp (Nat.ne_of_lt (Nat.two_pow_pos _))
  rw [n21, if_neg hne, hnp, Nat.log2_two_pow, BitVec.toNat_ofNat, Nat.mod_eq_of_lt (by omega)]

/-- A size is at most that of its pool, and more than that of the pool before. -/
theorem poolIndex_spec {v : U32} {i : Fin 8} (h : poolIndex v = some i) :
    v.toNat ≤ 2 ^ (i.val + 4) ∧ 2 ^ (i.val + 3) < max 16 v.toNat := by
  obtain ⟨w, hw, hmax⟩ : ∃ w : U32, (if v < 16 then 16 else v) = w ∧ w.toNat = max 16 v.toNat := by
    refine ⟨_, rfl, ?_⟩
    have h16 : (16 : U32).toNat = 16 := rfl
    split
    · rename_i hlt
      rw [BitVec.lt_def] at hlt
      omega
    · rename_i hge
      rw [BitVec.lt_def] at hge
      omega
  rw [poolIndex, sizeClass, hw] at h
  have hlo := Nat.log2_self_le (n := w.toNat - 1) (by omega)
  have hhi := Nat.lt_log2_self (n := w.toNat - 1)
  have h3 : 3 ≤ (w.toNat - 1).log2 := (Nat.le_log2 (by omega)).mpr (by omega)
  have hlt := w.isLt
  -- in the last class the power of two wraps around to zero, for which there is no pool
  have h31 : (w.toNat - 1).log2 < 31 := by
    have h32 : (w.toNat - 1).log2 < 32 := (Nat.log2_lt (by omega)).mpr (by omega)
    refine Nat.lt_of_le_of_ne (by omega) fun heq => ?_
    have hz : np2 w = 0 := by
      rw [← BitVec.toNat_inj, toNat_np2 (by omega), heq]
      rfl
    rw [hz, dif_neg (by decide)] at h
    cases h
  have hn21 := toNat_n21_np2 (by omega) h31
  have hidx : (n21 (np2 w) - 4).toNat = (w.toNat - 1).log2 - 3 := by
    rw [BitVec.toNat_sub_of_le (by rw [BitVec.le_def, hn21]; change 4 ≤ _; omega), hn21]
    change _ - 4 = _
    omega
  split at h
  · have hi := congrArg Fin.val (Option.some.inj h)
    change (n21 (np2 w) - 4).toNat = i.val at hi
    rw [hidx] at hi
    rw [show i.val + 4 = (w.toNat - 1).log2 + 1 by omega, show i.val + 3 = (w.toNat - 1).log2 by omega]
    omega
  · cases h

/-! ### Segments -/

/-- The slot of a segment that is handed out: the memory with its metadata. -/
def Segment.slot (x : Segment) : Nat := x.mem - metadataSize

/-- The pool of a segment. -/
def Segment.pool? (x : Segment) : Option (Fin 8) := poolIndex (x.size + 16)

/-- The slots in a pool that are handed out. -/
def slotsOf (i : Fin 8) : List Segment → List Nat
  | [] => []
  | x :: live => if x.pool? = some i then x.slot :: slotsOf i live else slotsOf i live

theorem slotsOf_perm {i : Fin 8} {live live' : List Segment} (h : live.Perm live') : (slotsOf i live).Perm (slotsOf i live') := by
  induction h with
  | nil => exact .nil
  | cons x _ ih =>
    unfold slotsOf
    split
    · exact ih.cons _
    · exact ih
  | swap x y l =>
    simp only [slotsOf]
    split <;> split
    · exact .swap ..
    · exact .refl _
    · exact .refl _
    · exact .refl _
  | trans _ _ ih ih' => exact ih.trans ih'

theorem mem_slotsOf {i : Fin 8} {x : Segment} {live : List Segment} (hx : x ∈ live) (hi : x.pool? = some i) :
    x.slot ∈ slotsOf i live := by
  induction live with
  | nil => cases hx
  | cons y live ih =>
    unfold slotsOf
    rcases List.mem_cons.mp hx with rfl | hx
    · rw [if_pos hi]
      exact List.mem_cons_self ..
    · split
      · exact List.mem_cons_of_mem _ (ih hx)
      · exact ih hx

/-- In every pool the free slots and those that are handed out are the slots of the pool. -/
def Placed (data : Fin 8 → Nat) (free : Fin 8 → List Nat) (live : List Segment) : Prop :=
  ∀ i, (free i ++ slotsOf i live).Perm (segments (data i) i)

namespace Placed
variable {data : Fin 8 → Nat} {free : Fin 8 → List Nat} {live live' : List Segment} {x y : Segment} {i : Fin 8}

theorem perm (h : Placed data free live) (hp : live.Perm live') : Placed data free live' :=
  fun i => ((slotsOf_perm hp).append_left (free i)).symm.trans (h i)

/-- A free slot is handed out. -/
theorem take {rest : List Nat} (h : Placed data free live) (hi : x.pool? = some i) (hfree : free i = x.slot :: rest) :
    Placed data (Function.update free i rest) (x :: live) := by
  intro j
  rw [slotsOf]
  by_cases hj : j = i
  · subst hj
    rw [Function.update_self, if_pos hi]
    have hp := h j
    rw [hfree] at hp
    exact List.perm_middle.trans hp
  · rw [Function.update_of_ne hj, if_neg fun hx => hj (Option.some.inj (hx.symm.trans hi))]
    exact h j

/-- A slot is given back. -/
theorem give (h : Placed data free (x :: live)) (hi : x.pool? = some i) :
    Placed data (Function.update free i (x.slot :: free i)) live := by
  intro j
  have hp := h j
  rw [slotsOf] at hp
  by_cases hj : j = i
  · subst hj
    rw [if_pos hi] at hp
    rw [Function.update_self]
    exact List.perm_middle.symm.trans hp
  · rw [if_neg fun hx => hj (Option.some.inj (hx.symm.trans hi))] at hp
    rw [Function.update_of_ne hj]
    exact hp

/-- Only the slot and the pool of a segment matter. -/
theorem resize (h : Placed data free (x :: live)) (hslot : y.slot = x.slot) (hpool : y.pool? = x.pool?) :
    Placed data free (y :: live) := by
  intro j
  have hp := h j
  rw [slotsOf] at hp ⊢
  rw [hslot, hpool]
  exact hp

end Placed

/-! ### Runs -/

/-- The size of a call does not wrap around when the size of the metadata is added. -/
def PoolCall.Fits : PoolCall → Prop
  | .alloc size | .reAlloc _ size => size.toNat + metadataSize ≤ 2 ^ 32
  | .dealloc _ => True

namespace Pools
variable {data : Fin 8 → Nat} {A B C : Pools} {x : Segment} {size : U32}

/-- A segment that is handed out has a pool and is not empty. -/
structure Handed (x : Segment) : Prop where
  nowrap : (x.size + 16).toNat = x.size.toNat + 16
  pos : 0 < x.size.toNat
  pool : ∃ i, x.pool? = some i
  slot : x.mem = x.slot + metadataSize

/-- What holds in every state of a run. -/
structure Inv (data : Fin 8 → Nat) (A : Pools) : Prop where
  storage : A.data = data
  placed : Placed data A.free A.live
  handed : ∀ x ∈ A.live, Handed x

theorem toNat_add_metadata (hsize : size.toNat + metadataSize ≤ 2 ^ 32) (hraw : size + 16 ≠ 0) :
    (size + 16).toNat = size.toNat + 16 := by
  have h16 : (16 : U32).toNat = 16 := rfl
  change size.toNat + 16 ≤ 2 ^ 32 at hsize
  rw [← BitVec.toNat_inj.ne, BitVec.toNat_add, h16] at hraw
  change _ ≠ 0 at hraw
  rw [BitVec.toNat_add, h16]
  omega

theorem poolAlloc_cases {ret : Option Nat} (h : A.poolAlloc size = some (ret, B)) :
    ret = none ∧ B = A ∨ ∃ i slot rest, size ≠ 0 ∧ poolIndex size = some i ∧ A.free i = slot :: rest ∧ ret = some slot ∧
      B = { A with free := Function.update A.free i rest } := by
  unfold poolAlloc at h
  split at h
  · cases h
    exact .inl ⟨rfl, rfl⟩
  · rename_i hsize
    obtain ⟨i, hi, h⟩ := Option.bind_eq_some_iff.mp h
    split at h
    · cases h
      exact .inl ⟨rfl, rfl⟩
    · rename_i slot rest hfree
      cases h
      exact .inr ⟨i, slot, rest, fun h0 => hsize (.inl h0), hi, hfree, rfl, rfl⟩

theorem metadata?_spec {mem : Nat} (h : A.metadata? mem = some x) : x ∈ A.live ∧ x.mem = mem :=
  ⟨List.mem_of_find?_eq_some h, by simpa using List.find?_some h⟩

/-- A new segment of a run. -/
theorem handed_new {i : Fin 8} (slot : Nat) (hsize : size.toNat + metadataSize ≤ 2 ^ 32) (hpos : size ≠ 0)
    (hraw : size + 16 ≠ 0) (hi : poolIndex (size + 16) = some i) : Handed ⟨slot + metadataSize, size⟩ where
  nowrap := toNat_add_metadata hsize hraw
  pos := Nat.pos_of_ne_zero fun h => hpos (BitVec.toNat_inj.mp h)
  pool := ⟨i, hi⟩
  slot := by
    change slot + metadataSize = slot + metadataSize - metadataSize + metadataSize
    rw [Nat.add_sub_cancel]

theorem Handed.raw_ne_zero {i : Fin 8} (hx : Handed x) (hi : x.pool? = some i) (hi' : poolIndex (size + 16) = some i) :
    size + 16 ≠ 0 := by
  have h1 := (poolIndex_spec hi).1
  have h2 := (poolIndex_spec hi').2
  rw [hx.nowrap] at h1
  have hpos := hx.pos
  intro h0
  rw [h0] at h2
  change _ < 16 at h2
  rw [Nat.pow_add] at h1 h2
  omega

theorem Inv.alloc {ret : Option Nat} (hA : Inv data A) (hsize : size.toNat + metadataSize ≤ 2 ^ 32)
    (h : A.alloc size = some (ret, B)) : Inv data B := by
  unfold Pools.alloc at h
  split at h
  · cases h
    exact hA
  · rename_i hpos
    obtain ⟨⟨r, C⟩, hr, hret⟩ := Option.bind_eq_some_iff.mp h
    obtain ⟨rfl, rfl⟩ | ⟨i, slot, rest, hraw, hi, hfree, rfl, rfl⟩ := poolAlloc_cases hr
    · cases hret
      exact hA
    · cases hret
      have hnew := handed_new slot hsize hpos hraw hi
      refine ⟨hA.storage, hA.placed.take hi ?_, List.forall_mem_cons.mpr ⟨hnew, hA.handed⟩⟩
      rw [hfree]
      exact congrArg (· :: rest) (Nat.add_sub_cancel ..).symm

theorem Inv.dealloc {mem : Option Nat} (hA : Inv data A) (h : A.dealloc mem = some B) : Inv data B := by
  cases mem with
  | none =>
    cases h
    exact hA
  | some mem =>
    obtain ⟨x, hx, hrest⟩ := Option.bind_eq_some_iff.mp h
    obtain ⟨C, hC, hB⟩ := Option.bind_eq_some_iff.mp hrest
    obtain ⟨i, hi, hfree⟩ := Option.bind_eq_some_iff.mp hC
    cases hB
    cases hfree
    obtain ⟨hmem, rfl⟩ := metadata?_spec hx
    exact ⟨hA.storage, (hA.placed.perm (List.perm_cons_erase hmem)).give hi, fun y hy => hA.handed y (List.mem_of_mem_erase hy)⟩

theorem Inv.reAlloc {mem ret : Option Nat} (hA : Inv data A) (hsize : size.toNat + metadataSize ≤ 2 ^ 32)
    (h : A.reAlloc mem size = some (ret, B)) : Inv data B := by
  cases mem with
  | none => exact hA.alloc hsize h
  | some mem =>
    unfold Pools.reAlloc at h
    simp only at h
    split at h
    · cases h
    · rename_i hpos
      obtain ⟨x, hx, hrest⟩ := Option.bind_eq_some_iff.mp h
      obtain ⟨⟨r, C⟩, hC, hret⟩ := Option.bind_eq_some_iff.mp hrest
      obtain ⟨hmem, rfl⟩ := metadata?_spec hx
      have hx' := hA.handed x hmem
      have hplaced := hA.placed.perm (List.perm_cons_erase hmem)
      have herase (y : Segment) (hy : y ∈ A.live.erase x) : Handed y := hA.handed y (List.mem_of_mem_erase hy)
      unfold poolReAlloc at hC
      split at hC
      · -- the same size class: the segment stays where it is
        rename_i hclass
        cases hC
        cases hret
        obtain ⟨i, hi⟩ := hx'.pool
        have hi' : poolIndex (size + 16) = some i := by
          rw [poolIndex, hclass]
          exact hi
        have hnew := handed_new x.slot hsize hpos (hx'.raw_ne_zero hi hi') hi'
        refine ⟨hA.storage, hplaced.resize ?_ (hi'.trans hi.symm), List.forall_mem_cons.mpr ⟨hnew, herase⟩⟩
        exact Nat.add_sub_cancel ..
      · obtain ⟨⟨r', D⟩, hD, hmoved⟩ := Option.bind_eq_some_iff.mp hC
        obtain ⟨rfl, rfl⟩ | ⟨i, slot, rest, hraw, hi, hfree, rfl, rfl⟩ := poolAlloc_cases hD
        · cases hmoved
          cases hret
          exact hA
        · -- a new segment is taken before the old one is given back
          obtain ⟨E, hE, hgiven⟩ := Option.bind_eq_some_iff.mp hmoved
          obtain ⟨j, hj, hupdate⟩ := Option.bind_eq_some_iff.mp hE
          cases hgiven
          cases hupdate
          cases hret
          have hnew := handed_new slot hsize hpos hraw hi
          have htake := @Placed.take _ _ _ ⟨slot + metadataSize, size⟩ _ rest hplaced hi (by
            rw [hfree]
            exact congrArg (· :: rest) (Nat.add_sub_cancel ..).symm)
          exact ⟨hA.storage, (htake.perm (.swap ..)).give hj, List.forall_mem_cons.mpr ⟨hnew, herase⟩⟩

theorem segments_nodup (b : Nat) (i : Fin 8) : (segments b i).Nodup := by
  refine List.Nodup.map (fun k k' h => ?_) List.nodup_range
  have hpos : 0 < segmentSize i := Nat.add_pos_right _ (by decide)
  exact Nat.eq_of_mul_eq_mul_right hpos (Nat.add_left_cancel h)

theorem inv_init (data : Fin 8 → Nat) : Inv data (init data) where
  storage := rfl
  placed i := by
    change ((segments (data i) i).reverse ++ []).Perm _
    rw [List.append_nil]
    exact List.reverse_perm _
  handed x hx := by cases hx

theorem Run.inv {calls : List PoolCall} (h : Run (init data) calls A) (hfits : ∀ c ∈ calls, c.Fits) : Inv data A := by
  induction h with
  | nil => exact inv_init data
  | @snoc calls call B C _ hc ih =>
    rw [List.forall_mem_append] at hfits
    have hB := ih hfits.1
    have hcall := hfits.2 call (List.mem_singleton_self call)
    cases call with
    | alloc size =>
      obtain ⟨⟨r, D⟩, hr, rfl⟩ := Option.map_eq_some_iff.mp hc
      exact hB.alloc hcall hr
    | reAlloc mem size =>
      obtain ⟨⟨r, D⟩, hr, rfl⟩ := Option.map_eq_some_iff.mp hc
      exact hB.reAlloc hcall hr
    | dealloc mem => exact hB.dealloc hc

end Pools

/-! ### The storage -/

/-- Which segments end before the storage of their pool does. -/
theorem end_le_iff {i : Fin 8} {k r : Nat} (hk : k < segmentCount i) (hr : 0 < r) (hlo : 2 ^ (i.val + 3) < max 16 (r + 16))
    (hhi : r + 16 ≤ 2 ^ (i.val + 4)) :
    8 + k * segmentSize i + 16 + r ≤ storageSize ↔ k + 1 < segmentCount i ∨ i = 7 ∧ r ≤ 1768 := by
  obtain ⟨n, hn⟩ := i
  simp only [segmentCount, segmentSize, storageSize, poolBlockSize, metadataSize, Fin.ext_iff] at *
  interval_cases n <;> norm_num at * <;> omega

/-- A segment is in the storage of its pool, with its metadata. -/
def Segment.Inside (data : Fin 8 → Nat) (x : Segment) : Prop :=
  ∃ i, x.pool? = some i ∧ data i ≤ x.slot ∧ x.mem + x.size.toNat ≤ data i + storageSize

/-- Two segments have no byte in common, with their metadata. -/
def Segment.Clear (x y : Segment) : Prop := x.mem + x.size.toNat ≤ y.slot ∨ y.mem + y.size.toNat ≤ x.slot

/-- A segment is segment `k` of pool `i`, which is large enough for it. -/
structure Segment.In (data : Fin 8 → Nat) (x : Segment) (i : Fin 8) (k : Nat) : Prop where
  pool : x.pool? = some i
  lt : k < segmentCount i
  mem : x.mem = segmentAt (data i) i k + metadataSize
  size : x.size.toNat + metadataSize ≤ segmentSize i

theorem pairwise_slot {live : List Segment} (h : ∀ i, (slotsOf i live).Nodup) :
    live.Pairwise fun x y => ∀ i, x.pool? = some i → y.pool? = some i → x.slot ≠ y.slot := by
  induction live with
  | nil => exact .nil
  | cons x live ih =>
    refine .cons (fun y hy i hx hi heq => ?_) (ih fun i => ?_)
    · have hn := h i
      rw [slotsOf, if_pos hx, List.nodup_cons, heq] at hn
      exact hn.1 (mem_slotsOf hy hi)
    · have hn := h i
      rw [slotsOf] at hn
      split at hn
      · exact (List.nodup_cons.mp hn).2
      · exact hn

namespace Pools
variable {data : Fin 8 → Nat} {A : Pools} {x y : Segment} {i : Fin 8}

theorem Inv.mem_segments (hA : Inv data A) (hx : x ∈ A.live) (hi : x.pool? = some i) : ∃ k, x.In data i k := by
  have hmem := (hA.placed i).subset (List.mem_append_right _ (mem_slotsOf hx hi))
  obtain ⟨k, hk, hslot⟩ := List.mem_map.mp hmem
  have hhanded := hA.handed x hx
  have hle := (poolIndex_spec hi).1
  rw [hhanded.nowrap] at hle
  refine ⟨k, hi, List.mem_range.mp hk, by rw [hhanded.slot, hslot], ?_⟩
  rw [segmentSize, metadataSize]
  omega

theorem Inv.inside_iff (hA : Inv data A) (hx : x ∈ A.live) {k : Nat} (hin : x.In data i k) :
    x.Inside data ↔ k + 1 < segmentCount i ∨ i = 7 ∧ x.size.toNat ≤ 1768 := by
  have hhanded := hA.handed x hx
  have hspec := poolIndex_spec hin.pool
  rw [hhanded.nowrap] at hspec
  rw [← end_le_iff hin.lt hhanded.pos hspec.2 hspec.1]
  have hmem := hin.mem
  have hslot := hhanded.slot
  rw [segmentAt, metadataSize] at hmem
  rw [metadataSize] at hslot
  constructor
  · rintro ⟨j, hj, -, hend⟩
    obtain rfl := Option.some.inj (hj.symm.trans hin.pool)
    omega
  · intro hend
    exact ⟨i, hin.pool, by omega, by omega⟩

/-- Segments of one pool are apart, and so are those in the storage of two pools. -/
theorem Inv.clear (hdata : ∀ i j, i ≠ j → data i + storageSize ≤ data j ∨ data j + storageSize ≤ data i) (hA : Inv data A)
    (hx : x ∈ A.live) (hy : y ∈ A.live) (hne : ∀ i, x.pool? = some i → y.pool? = some i → x.slot ≠ y.slot)
    (hix : x.Inside data) (hiy : y.Inside data) : x.Clear y := by
  obtain ⟨i, hi, hlo, hend⟩ := hix
  obtain ⟨j, hj, hlo', hend'⟩ := hiy
  by_cases hij : i = j
  · subst hij
    obtain ⟨k, hk⟩ := hA.mem_segments hx hi
    obtain ⟨k', hk'⟩ := hA.mem_segments hy hj
    have hxs := (hA.handed x hx).slot
    have hys := (hA.handed y hy).slot
    have hslot := hne i hi hj
    have hxm := hk.mem
    have hym := hk'.mem
    have hxz := hk.size
    have hyz := hk'.size
    rw [segmentAt] at hxm hym
    have hkk : k ≠ k' := by
      rintro rfl
      omega
    -- the segment after another one starts where that one ends, or later
    rcases Nat.lt_or_gt_of_ne hkk with hlt | hgt
    · have hmul := Nat.mul_le_mul_right (segmentSize i) (Nat.succ_le_of_lt hlt)
      rw [Nat.succ_mul] at hmul
      exact .inl (by omega)
    · have hmul := Nat.mul_le_mul_right (segmentSize i) (Nat.succ_le_of_lt hgt)
      rw [Nat.succ_mul] at hmul
      exact .inr (by omega)
  · rcases hdata i j hij with h | h
    · exact .inl (by omega)
    · exact .inr (by omega)

/-- What is handed out in a run are segments of the pools that are large enough, each in the storage of its pool unless it
    is the last one there (in the last pool that one has room for 1768 bytes); those in the storage are apart. -/
theorem run_segments (hdata : ∀ i j, i ≠ j → data i + storageSize ≤ data j ∨ data j + storageSize ≤ data i)
    {calls : List PoolCall} (h : Run (init data) calls A) (hfits : ∀ c ∈ calls, c.Fits) :
    (∀ x ∈ A.live, ∃ i k, x.In data i k ∧ (x.Inside data ↔ k + 1 < segmentCount i ∨ i = 7 ∧ x.size.toNat ≤ 1768)) ∧
      A.live.Pairwise fun x y => x.Inside data → y.Inside data → x.Clear y := by
  have hA := h.inv hfits
  constructor
  · intro x hx
    obtain ⟨i, hi⟩ := (hA.handed x hx).pool
    obtain ⟨k, hk⟩ := hA.mem_segments hx hi
    exact ⟨i, k, hk, hA.inside_iff hx hk⟩
  · have hnodup (i : Fin 8) : (slotsOf i A.live).Nodup :=
      (((hA.placed i).nodup_iff.mpr (segments_nodup _ _)).of_append_right)
    refine (pairwise_slot hnodup).imp_of_mem fun {x y} hx hy hne hix hiy => ?_
    exact hA.clear hdata hx hy hne hix hiy

theorem run_of_foldlM {calls : List PoolCall} {A B : Pools} (h : calls.foldlM Pools.apply A = some B) : Run A calls B := by
  induction calls using List.reverseRecOn generalizing B with
  | nil =>
    cases h
    exact .nil
  | append_singleton calls call ih =>
    rw [List.foldlM_append] at h
    obtain ⟨C, hC, hlast⟩ := Option.bind_eq_some_iff.mp h
    rw [List.foldlM_cons] at hlast
    obtain ⟨D, hD, hnil⟩ := Option.bind_eq_some_iff.mp hlast
    cases hnil
    exact .snoc (ih hC) hD

/-- Storage one after the other. -/
def storageAt (i : Fin 8) : Nat := 40000 * i

/-- The pools after calls that are evaluated. -/
theorem exists_run (calls : List PoolCall) (live : List Segment)
    (h : (calls.foldlM Pools.apply (init storageAt)).map (·.live) = some live) :
    ∃ A, Run (init storageAt) calls A ∧ A.live = live := by
  obtain ⟨A, hA, hlive⟩ := Option.map_eq_some_iff.mp h
  exact ⟨A, run_of_foldlM hA, hlive⟩

theorem run_segments_two : ∃ A, Run (init storageAt) [.alloc 20, .alloc 20] A ∧
    A.live = [⟨112664, 20⟩, ⟨112744, 20⟩] ∧ (⟨112664, 20⟩ : Segment).Inside storageAt := by
  obtain ⟨A, hA, hlive⟩ := exists_run [.alloc 20, .alloc 20] [⟨112664, 20⟩, ⟨112744, 20⟩]
    (by decide +kernel)
  have hdata : ∀ i j, i ≠ j → storageAt i + storageSize ≤ storageAt j ∨ storageAt j + storageSize ≤ storageAt i := by decide
  have hsound := run_segments hdata hA (by
    intro c hc
    simp only [List.mem_cons, List.not_mem_nil, or_false, or_self] at hc
    rw [hc]
    exact (by decide : (20 : U32).toNat + metadataSize ≤ 2 ^ 32))
  refine ⟨A, hA, hlive, ?_⟩
  obtain ⟨i, k, hin, hinside⟩ := hsound.1 ⟨112664, 20⟩ (by rw [hlive]; exact List.mem_cons_self ..)
  have hpool : (⟨112664, 20⟩ : Segment).pool? = some 2 := by decide
  obtain rfl := Option.some.inj (hpool.symm.trans hin.pool)
  have hmem := hin.mem
  rw [segmentAt] at hmem
  have hcount : segmentCount 2 = 410 := by decide
  have hsize : segmentSize 2 = 80 := by decide
  have hat : storageAt 2 = 80000 := by decide
  rw [hsize, hat, metadataSize] at hmem
  exact hinside.mpr (.inl (by rw [hcount]; simp only at hmem; omega))

/-- The first byte that is asked for lies past the end of the storage. A size between those of the last pool and 4096 has no
    pool, and the sum of a large size and the metadata wraps around. -/
theorem segment_outside :
    (∃ A, Run (init storageAt) [.alloc 1] A ∧ A.live = [⟨72760, 1⟩] ∧ storageAt 1 + storageSize = 72752 ∧
      (⟨72760, 1⟩ : Segment).pool? = some 1 ∧ ¬(⟨72760, 1⟩ : Segment).Inside storageAt) ∧
    (init storageAt).apply (.alloc 2033) = none ∧
    ∃ A, Run (init storageAt) [.alloc 0xFFFFFFF8] A ∧ A.live = [⟨32760, 0xFFFFFFF8⟩] ∧
      (⟨32760, 0xFFFFFFF8⟩ : Segment).pool? = some 0 ∧ segmentSize 0 = 32 := by
  obtain ⟨A, hA, hlive⟩ := exists_run [.alloc 1] [⟨72760, 1⟩] (by decide +kernel)
  obtain ⟨B, hB, hlive'⟩ := exists_run [.alloc 0xFFFFFFF8] [⟨32760, 0xFFFFFFF8⟩] (by decide +kernel)
  have hpool : (⟨72760, 1⟩ : Segment).pool? = some 1 := by decide
  have hend : storageAt 1 + storageSize = 72752 := by decide
  refine ⟨⟨A, hA, hlive, hend, hpool, ?_⟩, rfl, B, hB, hlive', by decide, by decide⟩
  rintro ⟨i, hi, -, h⟩
  obtain rfl := Option.some.inj (hpool.symm.trans hi)
  rw [hend] at h
  exact absurd h (by decide)

end Pools

end Cyntatic
