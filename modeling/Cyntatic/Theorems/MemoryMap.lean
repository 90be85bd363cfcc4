import Cyntatic.Theorems.StartUp

/-! # The memory map

Where `VM_init_` puts the data, the heap and the stack, and what it writes there. -/

namespace Cyntatic
open Library

/-- The space of the heap descriptors, which lie below the memory: `bk` of `VM_init_`. -/
def heapArea (nhbs : U32) : U32 := (alignWord (37 + 16 * nhbs.setWidth 64)).setWidth 32

/-- The space of the stack: `ss` of `VM_init_`, rounded up. -/
def stackArea (ss : U32) : U32 := cynAlign (ss + 8) 8

/-! ### Rounding up -/

theorem alignWord_toNat (s : U64) : (alignWord s).toNat = (s.toNat + 7) % 2 ^ 64 / 8 * 8 := by
  have hround : alignWord s = ((s + 7) >>> 3) <<< 3 := and_not_mask (s + 7) 3
  have hdiv := Nat.div_mul_le_self ((s.toNat + 7) % 2 ^ 64) 8
  have hlt := Nat.mod_lt (s.toNat + 7) (show 0 < 2 ^ 64 by decide)
  rw [hround, BitVec.toNat_shiftLeft, BitVec.toNat_ushiftRight, BitVec.toNat_add, Nat.shiftRight_eq_div_pow,
    Nat.shiftLeft_eq]
  exact Nat.mod_eq_of_lt (lt_of_le_of_lt hdiv hlt)

theorem heapArea_toNat (nhbs : U32) : (heapArea nhbs).toNat = Heap.roundUp (37 + 16 * nhbs.toNat) 8 % 2 ^ 32 := by
  have hlt := nhbs.isLt
  have hsum : (37 + 16 * nhbs.setWidth 64 : U64).toNat = 37 + 16 * nhbs.toNat := by bv_omega
  rw [heapArea, BitVec.toNat_setWidth, alignWord_toNat, hsum, Nat.mod_eq_of_lt (show 37 + 16 * nhbs.toNat + 7 < 2 ^ 64 by omega)]
  rfl

theorem stackArea_toNat (ss : U32) : (stackArea ss).toNat = ((ss.toNat + 8) % 2 ^ 32 + 7) % 2 ^ 32 / 8 * 8 := by
  rw [stackArea, cynAlign_toNat (k := 3) _ rfl, BitVec.toNat_add]
  rfl

/-! ### The regions -/

/-- The memory that `VM_memory_init` describes, over a memory with other bytes. -/
def Memory.initial (ram : Memory) (ptr mem : U64) (nhbs ss db : U32) : Memory :=
  let size : U32 := (alignWord (mem + (db + heapArea nhbs).setWidth 64) - (heapArea nhbs).setWidth 64).setWidth 32
  { ram with
    base := ptr + (heapArea nhbs).setWidth 64
    size := size
    sb := size - stackArea ss
    hb := db
    hlm := size - stackArea ss - 8 }

/-- The data at the bottom, the heap above it and the stack at the top, and no number that describes them is wrapped. -/
structure Memory.Mapped (ram : Memory) (mem : U64) (nhbs ss db : U32) : Prop where
  bk : (heapArea nhbs).toNat = Heap.roundUp (37 + 16 * nhbs.toNat) 8
  offset : (db + heapArea nhbs).toNat = db.toNat + Heap.roundUp (37 + 16 * nhbs.toNat) 8
  stack : (stackArea ss).toNat = Heap.roundUp (ss.toNat + 8) 8
  size : ram.size.toNat + Heap.roundUp (37 + 16 * nhbs.toNat) 8 =
    Heap.roundUp (mem.toNat + (db.toNat + Heap.roundUp (37 + 16 * nhbs.toNat) 8)) 8
  sb : ram.sb.toNat + Heap.roundUp (ss.toNat + 8) 8 = ram.size.toNat
  hlm : ram.hlm.toNat + 8 = ram.sb.toNat
  hb : ram.hb = db
  hb_le_hlm : ram.hb.toNat ≤ ram.hlm.toNat
  hlm_lt_sb : ram.hlm.toNat < ram.sb.toNat
  sb_lt_size : ram.sb.toNat < ram.size.toNat
  room : ss.toNat ≤ ram.size.toNat - ram.sb.toNat

/-- The sizes asked for: the memory has room for the data, the stack and two words, and can be numbered. -/
structure MapFits (mem : U64) (nhbs ss db : U32) : Prop where
  offset : db.toNat + Heap.roundUp (37 + 16 * nhbs.toNat) 8 < 2 ^ 32
  size : Heap.roundUp (mem.toNat + db.toNat) 8 < 2 ^ 32
  room : db.toNat + 8 + Heap.roundUp (ss.toNat + 8) 8 ≤ Heap.roundUp (mem.toNat + db.toNat) 8

section
variable {ram : Memory} {ptr mem : U64} {nhbs ss db : U32}

/-- The numbers that describe the regions, with what wraps in them. -/
theorem Memory.initial_toNat (ram : Memory) (ptr mem : U64) (nhbs ss db : U32) :
    (ram.initial ptr mem nhbs ss db).size.toNat = (2 ^ 64 - (heapArea nhbs).toNat +
      (((mem.toNat + (db.toNat + (heapArea nhbs).toNat) % 2 ^ 32) % 2 ^ 64 + 7) % 2 ^ 64 / 8 * 8)) % 2 ^ 64 % 2 ^ 32 ∧
    (ram.initial ptr mem nhbs ss db).sb.toNat =
      (2 ^ 32 - (stackArea ss).toNat + (ram.initial ptr mem nhbs ss db).size.toNat) % 2 ^ 32 ∧
    (ram.initial ptr mem nhbs ss db).hlm.toNat = (2 ^ 32 - 8 + (ram.initial ptr mem nhbs ss db).sb.toNat) % 2 ^ 32 := by
  refine ⟨?_, BitVec.toNat_sub .., BitVec.toNat_sub ..⟩
  unfold Memory.initial
  dsimp only
  rw [BitVec.toNat_setWidth, BitVec.toNat_sub, VmM.toNat_setWidth_off, alignWord_toNat, BitVec.toNat_add mem, VmM.toNat_setWidth_off,
    BitVec.toNat_add]

theorem roundUp_add_roundUp (m n : Nat) : Heap.roundUp (m + Heap.roundUp n 8) 8 = Heap.roundUp m 8 + Heap.roundUp n 8 := by
  unfold Heap.roundUp
  omega

theorem MapFits.mapped (h : MapFits mem nhbs ss db) : (ram.initial ptr mem nhbs ss db).Mapped mem nhbs ss db := by
  obtain ⟨hoffset, hsize, hroom⟩ := h
  obtain ⟨hmsize, hmsb, hmhlm⟩ := ram.initial_toNat ptr mem nhbs ss db
  have hbk := heapArea_toNat nhbs
  rw [Nat.mod_eq_of_lt (Nat.lt_of_add_left_lt hoffset)] at hbk
  have hoff : (db + heapArea nhbs).toNat = (db.toNat + (heapArea nhbs).toNat) % 2 ^ 32 := BitVec.toNat_add ..
  rw [hbk, Nat.mod_eq_of_lt hoffset] at hoff
  have hss : ss.toNat + 8 + 7 < 2 ^ 32 := by
    unfold Heap.roundUp at hroom hsize
    omega
  have hstack := stackArea_toNat ss
  rw [Nat.mod_eq_of_lt (show ss.toNat + 8 < 2 ^ 32 by omega), Nat.mod_eq_of_lt hss] at hstack
  have hstack : (stackArea ss).toNat = Heap.roundUp (ss.toNat + 8) 8 := hstack
  have hle : ss.toNat + 8 ≤ Heap.roundUp (ss.toNat + 8) 8 := by
    unfold Heap.roundUp
    omega
  have htotal : ((mem.toNat + (db.toNat + Heap.roundUp (37 + 16 * nhbs.toNat) 8)) % 2 ^ 64 + 7) % 2 ^ 64 / 8 * 8 =
      Heap.roundUp (mem.toNat + db.toNat) 8 + Heap.roundUp (37 + 16 * nhbs.toNat) 8 := by
    rw [← roundUp_add_roundUp, Nat.add_assoc]
    generalize Heap.roundUp (37 + 16 * nhbs.toNat) 8 = bk at *
    unfold Heap.roundUp at *
    rw [Nat.mod_eq_of_lt (by omega), Nat.mod_eq_of_lt (by omega)]
  rw [hbk, Nat.mod_eq_of_lt hoffset, htotal] at hmsize
  rw [hstack] at hmsb
  have hsz : (ram.initial ptr mem nhbs ss db).size.toNat = Heap.roundUp (mem.toNat + db.toNat) 8 := by omega
  have hsb : (ram.initial ptr mem nhbs ss db).sb.toNat + Heap.roundUp (ss.toNat + 8) 8 =
      (ram.initial ptr mem nhbs ss db).size.toNat := by omega
  have hhlm : (ram.initial ptr mem nhbs ss db).hlm.toNat + 8 = (ram.initial ptr mem nhbs ss db).sb.toNat := by omega
  refine ⟨hbk, hoff, hstack, ?_, hsb, hhlm, rfl, ?_, by omega, by omega, by omega⟩
  · rw [hsz, ← Nat.add_assoc, roundUp_add_roundUp]
  · change db.toNat ≤ _
    omega

theorem Memory.Mapped.fits (h : ram.Mapped mem nhbs ss db) : MapFits mem nhbs ss db := by
  have hsize := h.size
  rw [← Nat.add_assoc, roundUp_add_roundUp] at hsize
  have hle := h.hb_le_hlm
  rw [h.hb] at hle
  refine ⟨h.offset ▸ BitVec.isLt _, Nat.add_right_cancel hsize ▸ BitVec.isLt _, ?_⟩
  rw [← Nat.add_right_cancel hsize, ← h.sb, ← h.hlm]
  omega

theorem Memory.Mapped.withBytes (h : ram.Mapped mem nhbs ss db) (bytes : Nat → U8) :
    ({ ram with bytes := bytes } : Memory).Mapped mem nhbs ss db := { h with }

end

namespace VmM
open Prog

variable {vm vm' : Vm} {code : Code} {ptr mem : U64} {nhbs ss db top : U32}

/-! ### What is written -/

/-- One byte of the mark at the boundary of the stack. -/
def markStack (top : U32) (i : Nat) : VmM Unit := do store (← VmM.mem (top - BitVec.ofNat 32 i)) [0xA3]

/-- Marked bytes. -/
def Marked (top : U32) (is : List Nat) (k : Nat) : Prop := ∃ i ∈ is, (top - BitVec.ofNat 32 i).toNat = k

instance (top : U32) (is : List Nat) (k : Nat) : Decidable (Marked top is k) := inferInstanceAs (Decidable (∃ i ∈ is, _ = k))

theorem store_one (ram : Memory) (off : Nat) (b : U8) :
    ram.store off [b] = { ram with bytes := fun k => if off = k then b else ram.bytes k } := by
  refine congrArg (fun bytes => ({ ram with bytes := bytes } : Memory)) (funext fun k => ?_)
  rcases Nat.lt_trichotomy k off with hlt | rfl | hgt
  · rw [if_neg (Nat.ne_of_gt hlt)]
    exact Memory.bytes_store_of_lt hlt
  · rw [if_pos rfl]
    exact @Memory.bytes_store ram k 0 [b] Nat.one_pos
  · rw [if_neg (Nat.ne_of_lt hgt)]
    exact Memory.bytes_store_of_le hgt

theorem markStack_ram {i : Nat} {u : Unit} (h : (markStack top i).Returns vm u vm') :
    vm'.ram = { vm.ram with bytes := fun k => if (top - BitVec.ofNat 32 i).toNat = k then 0xA3 else vm.ram.bytes k } := by
  simp only [markStack, returns_bind, mem_returns, store_returns] at h
  obtain ⟨_, _, ⟨-, rfl, rfl⟩, -, rfl⟩ := h
  rw [toNat_setWidth_off]
  exact store_one ..

theorem markStacks_ram {is : List Nat} {u : Unit} (h : (is.forM (markStack top)).Returns vm u vm') :
    vm'.ram = { vm.ram with bytes := fun k => if Marked top is k then 0xA3 else vm.ram.bytes k } := by
  induction is generalizing vm with
  | nil =>
    obtain rfl := (returns_pure.mp h).2
    refine congrArg (fun bytes => ({ vm'.ram with bytes := bytes } : Memory)) (funext fun k => ?_)
    exact (if_neg fun ⟨_, hi, _⟩ => absurd hi List.not_mem_nil).symm
  | cons i is ih =>
    obtain ⟨_, mid, hone, hrest⟩ := returns_bind.mp h
    rw [ih hrest, markStack_ram hone]
    refine congrArg (fun bytes => ({ vm.ram with bytes := bytes } : Memory)) (funext fun k => ?_)
    dsimp only
    by_cases hi : (top - BitVec.ofNat 32 i).toNat = k
    · rw [if_pos hi, ite_self, if_pos ⟨i, List.mem_cons_self, hi⟩]
    · have hiff : Marked top (i :: is) k ↔ Marked top is k := by
        constructor
        · rintro ⟨j, hj, hk⟩
          rcases List.mem_cons.mp hj with rfl | hj
          · exact absurd hk hi
          · exact ⟨j, hj, hk⟩
        · rintro ⟨j, hj, hk⟩
          exact ⟨j, List.mem_cons_of_mem _ hj, hk⟩
      rw [if_neg hi, if_congr hiff rfl rfl]

/-- The memory that `VM_init_` leaves. -/
theorem init_ram {u : Unit} (h : (init code ptr mem nhbs ss).Returns vm u vm') (hdb : code.db? = some db) :
    ∃ header, code.slice? 0 db.toNat = some header ∧
      vm'.ram = { vm.ram.initial ptr mem nhbs ss db with
        bytes := fun k => if Marked (stackArea ss) (List.range 8) k then 0xA3 else
          ((vm.ram.initial ptr mem nhbs ss db).store 0 header).bytes k } := by
  simp only [init, memoryInit, heapInit, returns_bind, returns_ofOption, returns_modify, returns_get] at h
  obtain ⟨_, _, ⟨hdb', rfl⟩, _, _, rfl, _, _, rfl, _, _, ⟨_, _, ⟨rfl, rfl⟩, heap, _, ⟨-, rfl⟩, rfl⟩, header, _, ⟨hheader, rfl⟩, _, mid,
    hstore, hloop⟩ := h
  obtain rfl := Option.some.inj (hdb.symm.trans hdb')
  refine ⟨header, hheader, (markStacks_ram hloop).trans ?_⟩
  rw [(store_returns.mp hstore).2]
  rfl

theorem init_maps {u : Unit} (h : (init code ptr mem nhbs ss).Returns vm u vm') (hdb : code.db? = some db)
    (hfits : MapFits mem nhbs ss db) : vm'.ram.Mapped mem nhbs ss db := by
  obtain ⟨header, -, hram⟩ := init_ram h hdb
  rw [hram]
  exact hfits.mapped.withBytes _

/-- The regions are apart and in order exactly when there is room for the data and the stack. -/
theorem init_mapped_iff {u : Unit} (h : (init code ptr mem nhbs ss).Returns vm u vm') (hdb : code.db? = some db) :
    vm'.ram.Mapped mem nhbs ss db ↔ MapFits mem nhbs ss db :=
  ⟨Memory.Mapped.fits, init_maps h hdb⟩

/-- An image that is only a header. -/
def headerImage : Code := ⟨leBytes 8 (16 : U64) ++ leBytes 4 (16 : U32) ++ leBytes 4 (16 : U32), by decide⟩

theorem init_mapped_kilobyte : ∃ vm', (init headerImage 0 1024 256 64).Returns emptyStackVm () vm' ∧
    (vm'.ram.Mapped 1024 256 64 16 ↔ MapFits 1024 256 64 16) := by
  obtain ⟨_, vm', h, -⟩ := exists_of_passes (m := init headerImage 0 1024 256 64) (s := emptyStackVm) (p := fun _ _ => true)
    (by decide +kernel)
  exact ⟨vm', h, init_mapped_iff h (by decide +kernel)⟩

/-- Without memory for more than the data, the heap ends below its start. -/
theorem no_room_for_stack : ∃ vm', (init headerImage 0 0 256 0).Returns emptyStackVm () vm' ∧ ¬vm'.ram.Mapped 0 256 0 16 := by
  obtain ⟨_, vm', h, hp⟩ := exists_of_passes (m := init headerImage 0 0 256 0) (s := emptyStackVm)
    (p := fun _ vm' => vm'.ram.hlm.toNat < vm'.ram.hb.toNat) (by decide +kernel)
  exact ⟨vm', h, fun hmap => absurd hmap.hb_le_hlm (Nat.not_le.mpr (of_decide_eq_true hp))⟩

/-! ### The data -/

theorem marked_iff (hstack : (stackArea ss).toNat = Heap.roundUp (ss.toNat + 8) 8) (k : Nat) :
    Marked (stackArea ss) (List.range 8) k ↔
      Heap.roundUp (ss.toNat + 8) 8 ≤ k + 7 ∧ k ≤ Heap.roundUp (ss.toNat + 8) 8 := by
  have hle : 8 ≤ Heap.roundUp (ss.toNat + 8) 8 := by
    unfold Heap.roundUp
    omega
  rw [← hstack] at *
  have hsub {i : Nat} (hi : i < 8) : (stackArea ss - BitVec.ofNat 32 i).toNat = (stackArea ss).toNat - i := by bv_omega
  constructor
  · rintro ⟨i, hi, rfl⟩
    rw [hsub (List.mem_range.mp hi)]
    have := List.mem_range.mp hi
    omega
  · rintro ⟨hlow, hhigh⟩
    refine ⟨(stackArea ss).toNat - k, List.mem_range.mpr (by omega), ?_⟩
    rw [hsub (by omega)]
    omega

/-- The data is loaded exactly when the image has the bytes of the mark where the mark is put. -/
theorem init_loads_iff {u : Unit} (h : (init code ptr mem nhbs ss).Returns vm u vm') (hdb : code.db? = some db)
    (hmap : vm'.ram.Mapped mem nhbs ss db) :
    code.slice? 0 db.toNat = some (vm'.ram.slice 0 db.toNat) ↔ ∀ k < db.toNat, Heap.roundUp (ss.toNat + 8) 8 ≤ k + 7 →
      k ≤ Heap.roundUp (ss.toNat + 8) 8 → code.at? k = some 0xA3 := by
  obtain ⟨header, hheader, hram⟩ := init_ram h hdb
  rw [hheader, Option.some.injEq]
  obtain ⟨hlen, rfl⟩ : 0 + db.toNat ≤ code.len ∧ (code.bytes.drop 0).take db.toNat = header := by
    unfold Code.slice? at hheader
    split at hheader
    · exact ⟨‹_›, Option.some.inj hheader⟩
    · cases hheader
  rw [Nat.zero_add] at hlen
  have hheaderLen : ((code.bytes.drop 0).take db.toNat).length = db.toNat := by
    rw [List.length_take, List.drop_zero]
    exact Nat.min_eq_left hlen
  have hat {k : Nat} (hk : k < db.toNat) : code.at? k = ((code.bytes.drop 0).take db.toNat)[k]? := by
    rw [Code.at?, List.getElem?_take_of_lt hk, List.drop_zero]
  have hbytes {k : Nat} (hk : k < db.toNat) : ((vm'.ram.slice 0 db.toNat)[k]? = if Marked (stackArea ss) (List.range 8) k then
      some 0xA3 else code.at? k) := by
    have hk' := hheaderLen.symm ▸ hk
    have hcopy := @Memory.bytes_store (vm.ram.initial ptr mem nhbs ss db) 0 _ _ hk'
    rw [Nat.zero_add] at hcopy
    rw [Memory.getElem?_slice, if_pos hk, Nat.zero_add, hat hk, hram]
    dsimp only
    rw [hcopy, List.getElem?_eq_getElem hk']
    exact (apply_ite some ..)
  constructor
  · intro heq k hk hlow hhigh
    rw [hat hk, heq, hbytes hk, if_pos ((marked_iff hmap.stack k).mpr ⟨hlow, hhigh⟩)]
  · intro hmarks
    refine List.ext_getElem? fun k => ?_
    rcases Nat.lt_or_ge k db.toNat with hk | hk
    · rw [hbytes hk, ← hat hk]
      by_cases hmark : Marked (stackArea ss) (List.range 8) k
      · obtain ⟨hlow, hhigh⟩ := (marked_iff hmap.stack k).mp hmark
        rw [if_pos hmark, hmarks k hk hlow hhigh]
      · rw [if_neg hmark]
    · rw [List.getElem?_eq_none (hheaderLen.symm ▸ hk), List.getElem?_eq_none (by rw [Memory.length_slice]; exact hk)]

theorem init_loads_header : ∃ vm', (init headerImage 0 1024 256 64).Returns emptyStackVm () vm' ∧
    (headerImage.slice? 0 16 = some (vm'.ram.slice 0 16) ↔ ∀ k < 16, Heap.roundUp 72 8 ≤ k + 7 → k ≤ Heap.roundUp 72 8 →
      headerImage.at? k = some 0xA3) := by
  obtain ⟨_, vm', h, -⟩ := exists_of_passes (m := init headerImage 0 1024 256 64) (s := emptyStackVm) (p := fun _ _ => true)
    (by decide +kernel)
  have hdb : headerImage.db? = some 16 := by decide +kernel
  exact ⟨vm', h, init_loads_iff h hdb (init_maps h hdb ⟨by decide, by decide, by decide⟩)⟩

/-- With a stack of less than a word the mark is in the copy of the header. -/
theorem header_overwritten : ∃ vm', (init headerImage 0 1024 256 0).Returns emptyStackVm () vm' ∧ vm'.ram.Mapped 1024 256 0 16 ∧
    headerImage.slice? 0 16 ≠ some (vm'.ram.slice 0 16) := by
  obtain ⟨_, vm', h, hp⟩ := exists_of_passes (m := init headerImage 0 1024 256 0) (s := emptyStackVm)
    (p := fun _ vm' => headerImage.slice? 0 16 ≠ some (vm'.ram.slice 0 16)) (by decide +kernel)
  exact ⟨vm', h, init_maps h (by decide +kernel) ⟨by decide, by decide, by decide⟩, of_decide_eq_true hp⟩

end VmM

end Cyntatic
