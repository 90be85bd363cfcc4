import Cyntatic.Util.Vector

/-! # Vectors

The length of a vector is at most its capacity, and its capacity at most what is allocated, as long as no reservation
makes the capacity smaller than the length. -/

namespace Cyntatic

/-! ### Powers of two -/

theorem int?_eq_some {x y : Int} : int? x = some y ↔ -2 ^ 31 ≤ x ∧ x < 2 ^ 31 ∧ y = x := by
  unfold int?
  split
  · rename_i h
    rw [Option.some.injEq]
    exact ⟨fun heq => ⟨h.1, h.2, heq.symm⟩, fun h' => h'.2.2.symm⟩
  · rename_i h
    constructor
    · intro h'
      cases h'
    · intro h'
      exact absurd ⟨h'.1, h'.2.1⟩ h

/-- Setting bits of a number that is not negative makes it no smaller. -/
theorem toInt_le_or_shift {v : U32} {n : Nat} (h : v.msb = false) :
    (v ||| v.sshiftRight n).msb = false ∧ v.toInt ≤ (v ||| v.sshiftRight n).toInt := by
  have hmsb : (v ||| v.sshiftRight n).msb = false := by
    rw [BitVec.msb_or, h, BitVec.msb_sshiftRight, h]
    rfl
  refine ⟨hmsb, ?_⟩
  rw [BitVec.toInt_eq_toNat_of_msb h, BitVec.toInt_eq_toNat_of_msb hmsb, BitVec.toNat_or]
  exact Int.ofNat_le.mpr Nat.left_le_or

theorem toInt_le_smear {v : U32} (h : v.msb = false) : v.toInt ≤ (smear v).toInt := by
  obtain ⟨h1, l1⟩ := toInt_le_or_shift (n := 1) h
  obtain ⟨h2, l2⟩ := toInt_le_or_shift (n := 2) h1
  obtain ⟨h3, l3⟩ := toInt_le_or_shift (n := 4) h2
  obtain ⟨h4, l4⟩ := toInt_le_or_shift (n := 8) h3
  obtain ⟨-, l5⟩ := toInt_le_or_shift (n := 16) h4
  exact l1.trans (l2.trans (l3.trans (l4.trans l5)))

theorem le_round2pow2 {n m : Int} (hn : 0 ≤ n) (h : round2pow2 n = some m) : n ≤ m := by
  obtain ⟨v, hv, h⟩ := Option.bind_eq_some_iff.mp h
  obtain ⟨-, hlt, rfl⟩ := int?_eq_some.mp hv
  obtain ⟨-, -, rfl⟩ := int?_eq_some.mp h
  rcases eq_or_lt_of_le hn with rfl | hpos
  · decide
  · have hint : (BitVec.ofInt 32 (n - 1)).toInt = n - 1 := by
      rw [BitVec.toInt_ofInt]
      exact Int.bmod_eq_of_le (by omega) (by omega)
    have hmsb : (BitVec.ofInt 32 (n - 1)).msb = false := by
      rw [BitVec.msb_eq_toInt, hint]
      simp only [decide_eq_false_iff_not]
      omega
    have hle := toInt_le_smear hmsb
    omega

namespace Vector
variable {α : Type} {entrySize : Nat} {v w : Vector α entrySize}

/-! ### What the calls do -/

/-- The capacity is allocated. -/
structure Allocated (v : Vector α entrySize) : Prop where
  len_nonneg : 0 ≤ v.len
  capacity_le : v.capacity ≤ v.data.length

/-- The length is at most the capacity, and the capacity at most what is allocated. -/
structure Bounded (v : Vector α entrySize) : Prop extends Allocated v where
  len_le : v.len ≤ v.capacity

theorem length_reAlloc {n : Int} {data : List (Option α)} (h : v.reAlloc n = some data) : (data.length : Int) = n.toNat := by
  obtain ⟨size, -, h⟩ := Option.bind_eq_some_iff.mp h
  split at h
  · cases h
  · cases h
    rw [List.length_append, List.length_take, List.length_replicate]
    omega

theorem store_spec {i : Int} {xs : List (Option α)} (h : v.store i xs = some w) :
    0 ≤ i ∧ w.data.length = v.data.length ∧ w.len = v.len ∧ w.capacity = v.capacity := by
  unfold store at h
  split at h
  · rename_i hi
    cases h
    refine ⟨hi.1, ?_, rfl, rfl⟩
    simp only [List.length_append, List.length_take, List.length_drop]
    omega
  · cases h

theorem load_spec {i n : Int} {xs : List (Option α)} (h : v.load i n = some xs) : 0 ≤ i ∧ 0 ≤ n := by
  unfold load at h
  split at h
  · rename_i hi
    exact ⟨hi.1, hi.2.1⟩
  · cases h

theorem reserve_spec {n : Int} (h : v.reserve n = some w) :
    w.len = v.len ∧ (n ≤ v.capacity - v.len ∧ w = v ∨
      v.capacity - v.len < n ∧ w.capacity = n ∧ (w.data.length : Int) = (n + v.len).toNat) := by
  obtain ⟨room, hroom, h⟩ := Option.bind_eq_some_iff.mp h
  obtain ⟨needed, hneeded, h⟩ := Option.bind_eq_some_iff.mp h
  obtain ⟨-, -, rfl⟩ := int?_eq_some.mp hroom
  obtain ⟨-, -, rfl⟩ := int?_eq_some.mp hneeded
  split at h
  · rename_i hpos
    obtain ⟨total, htotal, h⟩ := Option.bind_eq_some_iff.mp h
    obtain ⟨data, hdata, h⟩ := Option.bind_eq_some_iff.mp h
    cases h
    obtain ⟨-, -, rfl⟩ := int?_eq_some.mp htotal
    refine ⟨rfl, .inr ⟨by omega, rfl, ?_⟩⟩
    rw [length_reAlloc hdata]
    omega
  · cases h
    exact ⟨rfl, .inl ⟨by omega, rfl⟩⟩

theorem Allocated.reserve {n : Int} (hv : v.Allocated) (h : v.reserve n = some w) : w.Allocated := by
  obtain ⟨hlen, ⟨-, rfl⟩ | ⟨-, hcap, hdata⟩⟩ := reserve_spec h
  · exact hv
  · have h0 := hv.len_nonneg
    exact ⟨by rw [hlen]; exact h0, by omega⟩

/-- A reservation keeps the bounds exactly when it leaves the capacity alone or makes it large enough. -/
theorem Bounded.reserve_iff {n : Int} (hv : v.Bounded) (h : v.reserve n = some w) :
    w.Bounded ↔ n ≤ v.capacity - v.len ∨ v.len ≤ n := by
  have hw := hv.toAllocated.reserve h
  obtain ⟨hlen, ⟨hn, rfl⟩ | ⟨hn, hcap, -⟩⟩ := reserve_spec h
  · exact ⟨fun _ => .inl hn, fun _ => hv⟩
  · constructor
    · intro hb
      have := hb.len_le
      exact .inr (by omega)
    · intro hor
      exact ⟨hw, by omega⟩

theorem Allocated.expand {n : Nat} (hv : v.Allocated) (h : v.expand n = some w) : w.Bounded := by
  obtain ⟨len, hlen, h⟩ := Option.bind_eq_some_iff.mp h
  obtain ⟨u, hu, h⟩ := Option.bind_eq_some_iff.mp h
  cases h
  obtain ⟨-, -, rfl⟩ := int?_eq_some.mp hlen
  have h0 := hv.len_nonneg
  have hc := hv.capacity_le
  obtain ⟨-, ⟨hn, rfl⟩ | ⟨hn, hcap, hdata⟩⟩ := reserve_spec hu
  · exact ⟨⟨by simp only; omega, hc⟩, by simp only; omega⟩
  · exact ⟨⟨by simp only; omega, by simp only; omega⟩, by simp only; omega⟩

/-- Room for one more entry. -/
theorem Bounded.expandEntry (hv : v.Bounded) (h : v.expandEntry = some w) :
    w.Bounded ∧ w.len = v.len ∧ w.len + 1 ≤ w.capacity := by
  obtain ⟨next, hnext, h⟩ := Option.bind_eq_some_iff.mp h
  obtain ⟨-, -, rfl⟩ := int?_eq_some.mp hnext
  have h0 := hv.len_nonneg
  have hle := hv.len_le
  split at h
  · obtain ⟨n, hn, h⟩ := Option.bind_eq_some_iff.mp h
    obtain ⟨data, hdata, h⟩ := Option.bind_eq_some_iff.mp h
    cases h
    have hlen := length_reAlloc hdata
    have hroom : v.len + 1 ≤ n ∧ 0 ≤ n := by
      unfold nextCapacity at hn
      split at hn
      · cases hn
        omega
      · obtain ⟨-, -, rfl⟩ := int?_eq_some.mp hn
        omega
    exact ⟨⟨⟨h0, by simp only; omega⟩, by simp only; omega⟩, rfl, hroom.1⟩
  · rename_i hroom
    cases h
    exact ⟨hv, rfl, by omega⟩

theorem append_spec {x : α} (h : v.append x = some w) :
    w.data.length = v.data.length ∧ w.len = v.len + 1 ∧ w.capacity = v.capacity := by
  obtain ⟨u, hu, h⟩ := Option.bind_eq_some_iff.mp h
  obtain ⟨len, hlen, h⟩ := Option.bind_eq_some_iff.mp h
  cases h
  obtain ⟨-, -, rfl⟩ := int?_eq_some.mp hlen
  obtain ⟨-, hd, hl, hc⟩ := store_spec hu
  exact ⟨hd, by simp only; omega, hc⟩

theorem foldlM_append_spec {arr : List α} (h : arr.foldlM append v = some w) :
    w.data.length = v.data.length ∧ w.len = v.len + arr.length ∧ w.capacity = v.capacity := by
  induction arr generalizing v with
  | nil =>
    cases h
    exact ⟨rfl, (Int.add_zero _).symm, rfl⟩
  | cons x arr ih =>
    obtain ⟨u, hu, h⟩ := Option.bind_eq_some_iff.mp h
    obtain ⟨hd, hl, hc⟩ := append_spec hu
    obtain ⟨hd', hl', hc'⟩ := ih h
    refine ⟨hd'.trans hd, ?_, hc'.trans hc⟩
    rw [hl', hl, List.length_cons]
    omega

theorem Allocated.appendfLoop {nul : α} {out : List α} {fuel : Nat} (hv : v.Allocated)
    (h : appendfLoop nul out fuel v = some w) : w.Bounded := by
  induction fuel generalizing v with
  | zero => cases h
  | succ fuel ih =>
    obtain ⟨u, hu, h⟩ := Option.bind_eq_some_iff.mp h
    obtain ⟨-, hd, hl, hc⟩ := store_spec hu
    have hu' : u.Allocated := ⟨by rw [hl]; exact hv.len_nonneg, by rw [hc, hd]; exact hv.capacity_le⟩
    split at h
    · obtain ⟨t, ht, h⟩ := Option.bind_eq_some_iff.mp h
      exact ih (hu'.reserve ht) h
    · exact hu'.expand h

/-! ### The calls keep the bounds -/

namespace Bounded

theorem push {x : α} (hv : v.Bounded) (h : v.push x = some w) : w.Bounded := by
  obtain ⟨u, hu, happ⟩ := Option.bind_eq_some_iff.mp h
  obtain ⟨hb, -, hroom⟩ := hv.expandEntry hu
  obtain ⟨hd, hl, hc⟩ := append_spec happ
  have h0 := hb.len_nonneg
  have hle := hb.capacity_le
  exact ⟨⟨by omega, by omega⟩, by omega⟩

theorem pop {x : Option α} (hv : v.Bounded) (h : v.pop = some (x, w)) : w.Bounded := by
  obtain ⟨xs, hxs, hrest⟩ := Option.bind_eq_some_iff.mp h
  obtain ⟨y, -, hw⟩ := Option.bind_eq_some_iff.mp hrest
  cases hw
  have hpos := (load_spec hxs).1
  have hle := hv.len_le
  exact ⟨⟨hpos, hv.capacity_le⟩, by simp only; omega⟩

theorem pushArr {arr : List α} (hv : v.Bounded) (h : v.pushArr arr = some w) : w.Bounded := by
  obtain ⟨n, hn, hrest⟩ := Option.bind_eq_some_iff.mp h
  obtain ⟨u, hu, happ⟩ := Option.bind_eq_some_iff.mp hrest
  obtain ⟨m, hm, hres⟩ := Option.bind_eq_some_iff.mp hu
  obtain ⟨-, -, hn⟩ := int?_eq_some.mp hn
  have h0 := hv.len_nonneg
  have hround := le_round2pow2 (by omega) hm
  have hb := (hv.reserve_iff hres).mpr (.inr (by omega))
  obtain ⟨hd, hl, hc⟩ := foldlM_append_spec happ
  -- the rounded length is reserved
  have hroom : v.len + arr.length ≤ u.capacity := by
    obtain ⟨-, ⟨hle, rfl⟩ | ⟨-, hcap, -⟩⟩ := reserve_spec hres
    · omega
    · omega
  have hle := hb.capacity_le
  have hlen := (reserve_spec hres).1
  exact ⟨⟨by omega, by omega⟩, by omega⟩

theorem insert {i : Int} {x : α} (hv : v.Bounded) (h : v.insert i x = some w) : w.Bounded := by
  obtain ⟨u, hu, hrest⟩ := Option.bind_eq_some_iff.mp h
  obtain ⟨xs, -, hmove⟩ := Option.bind_eq_some_iff.mp hrest
  obtain ⟨u', hu', hset⟩ := Option.bind_eq_some_iff.mp hmove
  obtain ⟨u'', hu'', hnext⟩ := Option.bind_eq_some_iff.mp hset
  obtain ⟨len, hlen, hw⟩ := Option.bind_eq_some_iff.mp hnext
  cases hw
  obtain ⟨hb, -, hroom⟩ := hv.expandEntry hu
  obtain ⟨-, hd, hl, hc⟩ := store_spec hu'
  obtain ⟨-, hd', hl', hc'⟩ := store_spec hu''
  obtain ⟨-, -, rfl⟩ := int?_eq_some.mp hlen
  have h0 := hb.len_nonneg
  have hle := hb.capacity_le
  exact ⟨⟨by simp only; omega, by simp only; omega⟩, by simp only; omega⟩

theorem splice {start count : Int} (hcount : 0 ≤ count) (hv : v.Bounded) (h : v.splice start count = some w) : w.Bounded := by
  obtain ⟨xs, hxs, hrest⟩ := Option.bind_eq_some_iff.mp h
  obtain ⟨u, hu, hw⟩ := Option.bind_eq_some_iff.mp hrest
  cases hw
  have hload := load_spec hxs
  obtain ⟨hs, hd, hl, hc⟩ := store_spec hu
  have hle := hv.len_le
  have hcap := hv.capacity_le
  exact ⟨⟨by simp only; omega, by simp only; omega⟩, by simp only; omega⟩

theorem truncate {l : Int} (hl : 0 ≤ l) (hv : v.Bounded) : (v.truncate l).Bounded := by
  have hle := hv.len_le
  unfold Vector.truncate
  split
  · exact ⟨⟨hl, hv.capacity_le⟩, by simp only; omega⟩
  · exact hv

theorem appendf {nul : α} {fmtLen fuel : Nat} {out : List α} (hv : v.Bounded)
    (h : v.appendf nul fmtLen out fuel = some w) : w.Bounded := by
  rw [Vector.appendf] at h
  obtain ⟨n, -, hrest⟩ := Option.bind_eq_some_iff.mp h
  obtain ⟨u, hu, hout⟩ := Option.bind_eq_some_iff.mp hrest
  obtain ⟨k, -, hloop⟩ := Option.bind_eq_some_iff.mp hout
  obtain ⟨m, -, hres⟩ := Option.bind_eq_some_iff.mp hu
  exact (hv.toAllocated.reserve hres).appendfLoop hloop

end Bounded

/-! ### Runs -/

/-- A reservation leaves the capacity alone, or makes it large enough. -/
def Fits (v : Vector α entrySize) : VectorOp α → Prop
  | .reserve n => n ≤ v.capacity - v.len ∨ v.len ≤ n
  | .reserve0 n => ∀ m, round2pow2 n = some m → m ≤ v.capacity - v.len ∨ v.len ≤ m
  | _ => True

/-- A call keeps the bounds exactly when its reservation fits. -/
theorem Bounded.apply_iff {op : VectorOp α} (hv : v.Bounded) (h : v.apply op = some w) : w.Bounded ↔ v.Fits op := by
  cases op with
  | reserve n => exact hv.reserve_iff h
  | reserve0 n =>
    obtain ⟨m, hm, hres⟩ := Option.bind_eq_some_iff.mp h
    rw [hv.reserve_iff hres]
    constructor
    · intro hor m' hm'
      obtain rfl := Option.some.inj (hm.symm.trans hm')
      exact hor
    · exact fun hfit => hfit m hm
  | push x => exact iff_of_true (hv.push h) trivial
  | pop =>
    obtain ⟨⟨x, u⟩, hpop, rfl⟩ := Option.map_eq_some_iff.mp h
    exact iff_of_true (hv.pop hpop) trivial
  | pushArr arr => exact iff_of_true (hv.pushArr h) trivial
  | expand n => exact iff_of_true (hv.toAllocated.expand h) trivial
  | insert i x => exact iff_of_true (hv.insert h) trivial
  | splice start count => exact iff_of_true (hv.splice (Int.natCast_nonneg count) h) trivial
  | truncate l =>
    obtain rfl := Option.some.inj h
    exact iff_of_true (hv.truncate (Int.natCast_nonneg l)) trivial
  | appendf nul fmtLen out fuel => exact iff_of_true (hv.appendf h) trivial

theorem run_of_foldlM {ops : List (VectorOp α)} (h : ops.foldlM apply v = some w) : Run v ops w := by
  induction ops using List.reverseRecOn generalizing w with
  | nil =>
    cases h
    exact .nil
  | append_singleton ops op ih =>
    rw [List.foldlM_append] at h
    obtain ⟨u, hu, hop⟩ := Option.bind_eq_some_iff.mp h
    rw [List.foldlM_cons] at hop
    obtain ⟨u', hu', hnil⟩ := Option.bind_eq_some_iff.mp hop
    cases hnil
    exact .snoc (ih hu) hu'

/-- Eight characters, and a reservation of one more. -/
def sealOps : List (VectorOp U8) := List.replicate 8 (.push 0) ++ [.reserve 1]

end Vector

end Cyntatic
