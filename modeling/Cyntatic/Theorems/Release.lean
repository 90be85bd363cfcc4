import Cyntatic.Theorems.Buffers

/-! Releasing a buffer: the block that is left has room for the character that ends it, unless the buffer has filled all
    that is allocated. -/

namespace Cyntatic.Buffer

variable {v : Buffer}

/-- A block has the contents of a buffer, and after them the character that ends them. -/
def Sealed (v : Buffer) (r? : Option (List (Option U8) × Buffer)) : Prop :=
  ∃ mem w, r? = some (mem, w) ∧ v.len.toNat < mem.length ∧ mem.take (v.len.toNat + 1) = v.contents ++ [some 0]

theorem Built.reached (h : Built v) : Reached v := by
  induction h with
  | @init v n h =>
    rcases lt_or_ge n 0 with hneg | hpos
    · obtain ⟨-, ⟨-, rfl⟩ | ⟨hlt, -⟩⟩ := Vector.reserve_spec h
      · exact .init
      · exact absurd hlt (by change ¬(0 : Int) - 0 < n; omega)
    · obtain ⟨k, rfl⟩ := Int.eq_ofNat_of_zero_le hpos
      exact .call .init (show Vector.apply ({} : Buffer) (.reserve k) = some v from h)
  | appendStr _ hop ih => exact .call ih (show Vector.apply _ (.pushArr _) = _ from hop)
  | appendC _ hop ih => exact .call ih (show Vector.apply _ (.push _) = _ from hop)

theorem Built.bounded (h : Built v) : Vector.Bounded v := by
  induction h with
  | @init v n h =>
    have hempty : Vector.Bounded ({} : Buffer) := ⟨⟨Int.le_refl 0, Int.le_refl 0⟩, Int.le_refl 0⟩
    refine (hempty.reserve_iff h).mpr ?_
    change n ≤ (0 : Int) - 0 ∨ (0 : Int) ≤ n
    omega
  | appendStr _ hop ih => exact ih.pushArr hop
  | appendC _ hop ih => exact ih.push hop

theorem Sound.len_toNat (hs : v.Sound) : (BitVec.ofInt 32 v.len).toNat = v.len.toNat := by
  have h1 := hs.len_nonneg
  have h2 := hs.len_le
  have h5 := hs.allocated
  rw [BitVec.toNat_ofInt]
  omega

theorem Sound.succ_toNat (hs : v.Sound) : (BitVec.ofInt 32 v.len + 1).toNat = v.len.toNat + 1 := by
  have h2 := hs.len_le
  have h5 := hs.allocated
  have hone : (1 : U32).toNat = 1 := rfl
  rw [BitVec.toNat_add, hs.len_toNat, hone]
  omega

/-- What ends the contents of a block that starts with them. -/
theorem sealed_iff (hv : v.Sound) {mem : List (Option U8)} {w : Buffer}
    (hmem : v.len < mem.length → mem.take v.len.toNat = v.contents) :
    v.Sealed ((setNul mem (BitVec.ofInt 32 v.len)).map (·, w)) ↔ v.len < mem.length := by
  have h1 := hv.len_nonneg
  rw [setNul, hv.len_toNat]
  constructor
  · rintro ⟨mem', w', h, -, -⟩
    split at h
    · omega
    · cases h
  · intro hlt
    rw [if_pos (by omega)]
    refine ⟨_, w, rfl, by rw [List.length_set]; omega, ?_⟩
    rw [List.take_succ_eq_append_getElem (by rw [List.length_set]; omega), List.getElem_set_self,
      List.take_set_of_le (Nat.le_refl _), hmem hlt]

theorem release_eq (v : Buffer) (compact : Bool) : v.release compact = (setNul
    (if (compact && 16 < BitVec.ofInt 32 v.capacity - BitVec.ofInt 32 v.len) || BitVec.ofInt 32 v.len = 0 then
      reAllocBlock v.data (BitVec.ofInt 32 v.len + 1) else v.data) (BitVec.ofInt 32 v.len)).map (·, {}) :=
  Option.map_eq_bind.symm

theorem relocate_eq (v : Buffer) (same : Bool) : v.relocate same =
    (setNul (relocateBlock v.data same (BitVec.ofInt 32 v.len + 1)) (BitVec.ofInt 32 v.len)).map (·, {}) :=
  Option.map_eq_bind.symm

theorem Built.release_sealed (h : Built v) (compact : Bool) :
    v.Sealed (v.release compact) ↔ v.len = 0 ∨ v.len < v.data.length := by
  have hs := h.reached.sound
  have hle := h.bounded.len_le
  have hcap := hs.capacity_le
  have h1 := hs.len_nonneg
  have h5 := hs.allocated
  have hlen := hs.len_toNat
  have hzero : BitVec.ofInt 32 v.len = 0 ↔ v.len = 0 := by
    constructor
    · intro heq
      rw [heq] at hlen
      have : (0 : U32).toNat = 0 := rfl
      omega
    · intro heq
      rw [heq]
      rfl
  rw [release_eq]
  split
  · rename_i hmove
    refine iff_of_true ((sealed_iff hs fun _ => ?_).mpr ?_) ?_
    · rw [reAllocBlock, hs.succ_toNat, List.take_append_of_le_length, List.take_take, Nat.min_eq_left (Nat.le_succ _)]
      · rfl
      · rw [List.length_take]
        have := hs.len_le
        omega
    · rw [reAllocBlock, hs.succ_toNat, List.length_append, List.length_take, List.length_replicate]
      omega
    · rcases Bool.or_eq_true_iff.mp hmove with hspare | hempty
      · have hgt := of_decide_eq_true (Bool.and_eq_true_iff.mp hspare).2
        rw [BitVec.lt_def, BitVec.toNat_sub, hlen, BitVec.toNat_ofInt] at hgt
        have : (16 : U32).toNat = 16 := rfl
        omega
      · exact .inl (hzero.mp (of_decide_eq_true hempty))
  · rename_i hstay
    rw [sealed_iff hs fun _ => rfl, or_iff_right]
    intro hempty
    refine hstay (Bool.or_eq_true_iff.mpr (.inr (decide_eq_true (hzero.mpr hempty))))

theorem Sound.relocate_sealed (hs : v.Sound) (same : Bool) : v.Sealed (v.relocate same) ↔ v.len < v.data.length := by
  have h1 := hs.len_nonneg
  rw [relocate_eq, relocateBlock]
  split
  · exact sealed_iff hs fun _ => rfl
  · rename_i hmove
    have hpos : 0 < v.data.length := List.length_pos_of_ne_nil fun h => hmove (.inl h)
    rw [sealed_iff hs, List.length_take, hs.succ_toNat]
    · omega
    · intro hlt
      rw [List.length_take, hs.succ_toNat] at hlt
      rw [List.take_take, hs.succ_toNat, Nat.min_eq_left (by omega)]
      rfl

/-- A buffer is released with room for the character that ends it just when it is empty or does not fill its block, and
    relocated so just when it does not fill its block. -/
theorem release_relocate_sealed (h : Built v) (compact same : Bool) :
    (v.Sealed (v.release compact) ↔ v.len = 0 ∨ v.len < v.data.length) ∧
      (v.Sealed (v.relocate same) ↔ v.len < v.data.length) :=
  ⟨h.release_sealed compact, h.reached.sound.relocate_sealed same⟩

theorem eight_built : Built eight := .init (show Vector.reserve ({} : Buffer) 8 = some eight from rfl)

theorem release_relocate_sealed_eight : eight.Sealed (eight.release true) ∧ eight.Sealed (eight.relocate false) :=
  ⟨(release_relocate_sealed eight_built true false).1.mpr (.inl rfl),
    (release_relocate_sealed eight_built true false).2.mpr (by decide)⟩

/-- Eight characters fill a buffer, and what ends them is written after its block. -/
theorem full_released : ∃ v : Buffer, Built v ∧ v.len = 8 ∧ v.data.length = 8 ∧
    ∀ compact same, ¬v.Sealed (v.release compact) ∧ ¬v.Sealed (v.relocate same) := by
  obtain ⟨v, hv, hlen, hdata⟩ : ∃ v : Buffer, eight.pushArr [1, 2, 3, 4, 5, 6, 7, 8] = some v ∧ v.len = 8 ∧
      v.data.length = 8 := ⟨_, rfl, rfl, rfl⟩
  have hbuilt := Built.appendStr eight_built hv
  refine ⟨v, hbuilt, hlen, hdata, fun compact same => ⟨?_, ?_⟩⟩
  · rw [hbuilt.release_sealed]
    omega
  · rw [hbuilt.reached.sound.relocate_sealed]
    omega

end Cyntatic.Buffer
