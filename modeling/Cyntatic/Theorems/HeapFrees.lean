import Cyntatic.Theorems.HeapRuns

/-! # Descriptors and frees

No call loses a descriptor, whatever the sizes and addresses. In a heap that is tiled the addresses of the live
blocks are distinct and the free list is determined by what it covers, so double frees are rejected and the order of
two frees does not matter. -/

namespace Cyntatic
open Library

/-! ### Counting descriptors -/

namespace HeapLists

/-- The number of descriptors on the three lists. -/
def count (L : HeapLists) : Nat := L.free.length + L.used.length + L.fresh.length

variable {L : HeapLists}

theorem length_merge (cur prev : Block) (l : List Block) : (merge cur prev l).length + (released prev l).length = l.length + 1 := by
  induction l generalizing cur prev with
  | nil => rfl
  | cons c l ih =>
    unfold merge released
    split
    · rw [List.length_cons, List.length_cons, ← Nat.add_assoc, ih]
    · rw [List.length_cons, List.length_cons, Nat.add_right_comm, ih]

theorem length_compactBlocks (l : List Block) : (compactBlocks l).length + (releasedBlocks l).length = l.length := by
  cases l with
  | nil => rfl
  | cons b l => exact length_merge b b l

theorem count_release (L : HeapLists) (b : Block) : (L.release b).count = L.count + 1 := by
  have h := length_compactBlocks (insertBlock b L.free)
  have hins : (insertBlock b L.free).length = L.free.length + 1 := List.orderedInsert_length ..
  simp only [count, release, List.length_append, List.length_reverse]
  omega

theorem AllocStep.count {n : U32} {r : Option Block × HeapLists} (h : AllocStep L n r) : r.2.count = L.count := by
  cases h with
  | top b l m hfree =>
    simp only [HeapLists.count, hfree, List.length_append, List.length_cons]
    omega
  | whole b l m hfree =>
    simp only [HeapLists.count, hfree, List.length_append, List.length_cons]
    omega
  | split b l m k fresh hfree hfind hsize hfresh hsth =>
    rw [count_release]
    simp only [HeapLists.count, hfree, hfresh, List.length_append, List.length_cons]
    omega
  | fresh k fresh hfind hfresh hlmt =>
    simp only [HeapLists.count, hfresh, List.length_cons]
    omega
  | none => rfl

theorem count_dealloc (L : HeapLists) (mem : U32) : (L.dealloc mem).2.count = L.count := by
  have hsplit : L.usedBefore mem ++ L.usedAt mem = L.used := List.takeWhile_append_dropWhile
  unfold dealloc
  split
  · rfl
  · split
    · rename_i b rest hused
      have hlen := congrArg List.length hsplit
      rw [hused, List.length_append, List.length_cons] at hlen
      rw [count_release]
      simp only [count, List.length_append]
      omega
    · rfl

/-- A block that is handed out is put in front of the used blocks. -/
theorem AllocStep.used {L' : HeapLists} {n : U32} {b : Block} (h : AllocStep L n (some b, L')) : L'.used = b :: L.used := by
  cases h <;> rfl

theorem AllocStep.of_none {L' : HeapLists} {n : U32} (h : AllocStep L n (Option.none, L')) : L' = L := by
  cases h
  rfl

/-- What `VM_free` finds. -/
theorem dealloc_cases (L : HeapLists) (mem : U32) :
    (L.dealloc mem = (false, L) ∧ (mem = 0 ∨ ∀ b ∈ L.used, b.addr ≠ mem)) ∨
    ∃ l b m, mem ≠ 0 ∧ L.used = l ++ b :: m ∧ b.addr = mem ∧ (∀ c ∈ l, c.addr ≠ mem) ∧
      L.dealloc mem = (true, { L with used := l ++ m }.release b) := by
  have hsplit : L.usedBefore mem ++ L.usedAt mem = L.used := List.takeWhile_append_dropWhile
  unfold dealloc
  split
  · exact .inl ⟨rfl, .inl ‹_›⟩
  · rename_i hmem
    rcases hused : L.usedAt mem with _ | ⟨b, rest⟩
    · refine .inl ⟨rfl, .inr fun b hb he => ?_⟩
      have hall := List.dropWhile_eq_nil_iff.mp hused b hb
      simp only [Bool.not_eq_true', decide_eq_false_iff_not] at hall
      exact hall he.symm
    · refine .inr ⟨L.usedBefore mem, b, rest, hmem, by rw [← hsplit, hused], ?_, fun c hc he => ?_, rfl⟩
      · have hfind : L.used.find? (fun b => decide (mem = b.addr)) = (L.usedAt mem).head? :=
          List.find?_eq_head?_dropWhile_not ..
        rw [hused] at hfind
        have hb := List.find?_some hfind
        exact (of_decide_eq_true hb).symm
      · have hc := List.mem_takeWhile_imp hc
        simp only [Bool.not_eq_true', decide_eq_false_iff_not] at hc
        exact hc he.symm

end HeapLists

namespace Heap
open HeapLists

/-- The three lists of descriptors. -/
structure Lists (h : Heap) (free used fresh : List Nat) : Prop where
  free : Chain h.next h.free free none
  used : Chain h.next h.used used none
  fresh : Chain h.next h.fresh fresh none

/-- A block is live afterwards, with its address and size. -/
structure Keeps (h h' : Heap) (b : Nat) : Prop where
  used : b ∈ h'.usedBlocks
  addr : h'.addr b = h.addr b
  size : h'.size b = h.size b

variable {h h' : Heap} {L L' : HeapLists}

theorem Rep.lists (R : Rep h L []) : h.Lists (L.free.map Block.id) (L.used.map Block.id) L.fresh :=
  ⟨R.free, R.used, R.fresh⟩

theorem Rep.keeps (R : Rep h L []) (R' : Rep h' L' []) {b : Block} (hb : b ∈ L.used) (hb' : b ∈ L'.used) :
    h.Keeps h' b.id where
  used := R'.usedBlocks_eq ▸ List.mem_map_of_mem hb'
  addr := (R'.addr b (by simp [hb'])).trans (R.addr b (by simp [hb])).symm
  size := (R'.size b (by simp [hb'])).trans (R.size b (by simp [hb])).symm

/-- A call of `VM_alloc` keeps the live blocks. -/
theorem Rep.alloc_keeps (R : Rep h L []) (n : U32) : ∃ block a h', h.allocHeapBlock n = some (block, h') ∧
    h.alloc n = some (a, h') ∧ (∀ b ∈ L.used.map Block.id, block ≠ some b ∧ h.Keeps h' b) ∧
    (block = none → a = 0 ∧ h'.Lists (L.free.map Block.id) (L.used.map Block.id) L.fresh ∧ h'.top = h.top) := by
  obtain ⟨h', ha, R'⟩ := R.allocHeapBlock n
  have hstep := L.allocBlock_step (cynAlign n L.aln)
  have halloc : ∃ a, h.alloc n = some (a, h') ∧ ((L.allocBlock (cynAlign n L.aln)).1 = none → a = 0) := by
    rw [Heap.alloc, ha]
    rcases L.allocBlock (cynAlign n L.aln) with ⟨_ | b, L'⟩
    · exact ⟨0, rfl, fun _ => rfl⟩
    · exact ⟨_, rfl, by simp⟩
  obtain ⟨a, halloc, hzero⟩ := halloc
  refine ⟨_, a, h', ha, halloc, ?_⟩
  rcases hb : L.allocBlock (cynAlign n L.aln) with ⟨_ | b, L'⟩
  · rw [hb] at R' hstep hzero
    obtain rfl := hstep.of_none
    refine ⟨fun c hc => ⟨by simp, ?_⟩, fun _ => ⟨hzero rfl, R'.lists, R'.top.trans R.top.symm⟩⟩
    obtain ⟨c, hused, rfl⟩ := List.mem_map.mp hc
    exact R.keeps R' hused hused
  · rw [hb] at R' hstep
    refine ⟨fun c hc => ⟨?_, ?_⟩, by simp⟩
    · have hnodup := R'.apart.2.1
      rw [hstep.used, List.map_cons, List.nodup_cons] at hnodup
      rintro ⟨⟩
      exact hnodup.1 hc
    · obtain ⟨c, hused, rfl⟩ := List.mem_map.mp hc
      exact R.keeps R' hused (hstep.used ▸ List.mem_cons_of_mem _ hused)

/-- A call of `VM_free` keeps the other live blocks. -/
theorem Rep.dealloc_keeps (R : Rep h L []) (a : U32) : ∃ r h', h.dealloc a = some (r, h') ∧
    (r = false ↔ a = 0 ∨ ∀ b ∈ L.used.map Block.id, h.addr b ≠ a) ∧
    (r = true → ∃ f ∈ L.used.map Block.id, h.addr f = a ∧ ∀ b ∈ L.used.map Block.id, b ≠ f → h.Keeps h' b) ∧
    (r = false → h'.Lists (L.free.map Block.id) (L.used.map Block.id) L.fresh ∧ h'.top = h.top ∧
      ∀ b ∈ L.used.map Block.id, h.Keeps h' b) := by
  obtain ⟨h', hd, R'⟩ := R.dealloc a
  have haddr (b : Block) (hb : b ∈ L.used) : h.addr b.id = b.addr := R.addr b (by simp [hb])
  refine ⟨_, h', hd, ?_⟩
  rcases L.dealloc_cases a with ⟨hres, hnone⟩ | ⟨l, b, m, ha, hused, hb, -, hres⟩
  · rw [hres] at R' ⊢
    refine ⟨iff_of_true rfl (hnone.imp_right fun hnone c hc => ?_), by simp, fun _ => ⟨R'.lists, R'.top.trans R.top.symm, ?_⟩⟩
    · obtain ⟨c, hused, rfl⟩ := List.mem_map.mp hc
      rw [haddr c hused]
      exact hnone c hused
    · intro c hc
      obtain ⟨c, hused, rfl⟩ := List.mem_map.mp hc
      exact R.keeps R' hused hused
  · rw [hres] at R' ⊢
    have hmem : b ∈ L.used := hused ▸ List.mem_append_right _ List.mem_cons_self
    refine ⟨iff_of_false (by simp) ?_, fun _ => ⟨b.id, List.mem_map_of_mem hmem, ?_, fun c hc hne => ?_⟩, by simp⟩
    · rintro (hz | hall)
      · exact ha hz
      · exact hall b.id (List.mem_map_of_mem hmem) ((haddr b hmem).trans hb)
    · exact (haddr b hmem).trans hb
    · obtain ⟨c, hcused, rfl⟩ := List.mem_map.mp hc
      refine R.keeps R' hcused ?_
      change c ∈ l ++ m
      rw [hused, List.mem_append, List.mem_cons] at hcused
      rcases hcused with hc | rfl | hc
      · exact List.mem_append_left _ hc
      · exact absurd rfl hne
      · exact List.mem_append_right _ hc

section Claims
variable {hb hlm blocks sth : U32} {aln : U8} {next : Nat → Option Nat} {size addr : Nat → U32} {h₀ : Heap}

/-- In every run the three lists hold each descriptor once, and a call changes no live block but the one that it hands
    out or frees. -/
theorem run_conserves (h₀_eq : Heap.init hb hlm blocks sth aln next size addr = some h₀) (hr : Run (fun _ _ => True) h₀ h) :
    ∃ free used fresh, h.Lists free used fresh ∧ (free ++ used ++ fresh).Perm (List.range blocks.toNat) ∧
      (∀ n, ∃ block a h', h.allocHeapBlock n = some (block, h') ∧ h.alloc n = some (a, h') ∧
        (∀ b ∈ used, block ≠ some b ∧ h.Keeps h' b) ∧
        (block = none → a = 0 ∧ h'.Lists free used fresh ∧ h'.top = h.top)) ∧
      ∀ a, ∃ r h', h.dealloc a = some (r, h') ∧ (r = false ↔ a = 0 ∨ ∀ b ∈ used, h.addr b ≠ a) ∧
        (r = true → ∃ f ∈ used, h.addr f = a ∧ ∀ b ∈ used, b ≠ f → h.Keeps h' b) ∧
        (r = false → h'.Lists free used fresh ∧ h'.top = h.top ∧ ∀ b ∈ used, h.Keeps h' b) := by
  have hinit : (HeapLists.init hb hlm blocks sth aln).count = blocks.toNat := by
    have hne : blocks ≠ 0 := by
      rintro rfl
      cases h₀_eq
    have hpos : 0 < blocks.toNat := Nat.pos_of_ne_zero fun hz => hne (BitVec.eq_of_toNat_eq hz)
    have hsub : (blocks - 1).toNat = blocks.toNat - 1 := BitVec.toNat_sub_of_le (by rw [BitVec.le_def]; exact hpos)
    simp only [HeapLists.count, HeapLists.init, List.length_nil, List.length_range, hsub]
    omega
  obtain ⟨L, R, hcount⟩ := hr.lists (P := fun L => L.count = blocks.toNat) h₀_eq hinit
    (fun h L n _ hc _ => by
      rw [L.alloc_snd]
      exact (L.allocBlock_step _).count.trans hc)
    fun L mem hc => (L.count_dealloc mem).trans hc
  refine ⟨_, _, _, R.lists, ?_, R.alloc_keeps, R.dealloc_keeps⟩
  have hids := R.ids
  have hlen := R.length_eq
  rw [List.map_nil, List.append_nil] at hids
  rw [List.length_nil, Nat.add_zero] at hlen
  rwa [← hlen.symm.trans hcount]

/-- The heap after two requests. -/
theorem run_conserves_two : ∃ free used fresh, smallHeapTwo.Lists free used fresh ∧
    (free ++ used ++ fresh).Perm (List.range 5) := by
  have hone : Run (fun _ _ => True) smallHeap smallHeapOne := .alloc (a := 16) .init trivial (show smallHeap.alloc 40 = _ from rfl)
  have htwo : Run (fun _ _ => True) smallHeap smallHeapTwo := .alloc (a := 56) hone trivial (show smallHeapOne.alloc 24 = _ from rfl)
  obtain ⟨free, used, fresh, hlists, hperm, -⟩ := run_conserves smallHeap_eq htwo
  exact ⟨free, used, fresh, hlists, hperm⟩

end Claims

/-! ### Double frees -/

/-- An empty request makes no empty block: the first free block is taken as it is, or there is nothing to hand out. -/
def EmptyHarmless (h : Heap) : Prop :=
  match h.free with
  | some b => h.isTop 0 b = false ∧ (h.fresh = none ∨ h.size b < h.sth)
  | none => h.fresh = none ∨ h.lmt < h.top

/-- `top` plus the rounded size is an address, and the request makes no empty block. -/
def NoEmptyBlock (h : Heap) (size : U32) : Prop :=
  h.top.toNat + roundUp size.toNat h.aln.toNat ≤ 2 ^ 32 - 1 ∧ (1 ≤ size.toNat ∨ h.EmptyHarmless)

end Heap

namespace HeapLists

/-- No block was ever handed out, since the heap starts above its limit. -/
structure Idle (hb hlm : U32) (L : HeapLists) : Prop where
  free : L.free = []
  used : L.used = []
  top : L.top = hb
  lmt : L.lmt = hlm
  lt : hlm < hb

variable {hb hlm : U32} {L : HeapLists} {n : U32} {r : Option Block × HeapLists}

theorem Idle.allocStep (I : Idle hb hlm L) (hw : NoWrap L n) (h : AllocStep L n r) : r = (none, L) := by
  have hfree := I.free
  cases h with
  | top b l m hb => simp [hb] at hfree
  | whole b l m hb => simp [hb] at hfree
  | split b l m k fresh hb => simp [hb] at hfree
  | fresh k fresh hfind hfresh hlmt =>
    have hn := hw.fresh hfind (by simp [hfresh]) hlmt
    have hlt := I.lt
    rw [I.top, I.lmt, BitVec.le_def, BitVec.toNat_add, Nat.mod_eq_of_lt (I.top ▸ hn)] at hlmt
    rw [BitVec.lt_def] at hlt
    omega
  | none => rfl

theorem Idle.dealloc (I : Idle hb hlm L) (mem : U32) : L.dealloc mem = (false, L) := by
  rcases L.dealloc_cases mem with ⟨hres, -⟩ | ⟨l, b, m, -, hused, -⟩
  · exact hres
  · simp [I.used] at hused

/-- The state of the heap in runs without empty blocks. -/
def Sound (hb hlm sth : U32) (aln : U8) (L : HeapLists) : Prop :=
  L.Params hlm sth aln ∧ (Tiled hb.toNat L [] ∨ Idle hb hlm L)

variable {sth : U32} {aln : U8}

theorem sound_init {blocks : U32} : Sound hb hlm sth aln (HeapLists.init hb hlm blocks sth aln) := by
  refine ⟨⟨rfl, rfl, rfl⟩, ?_⟩
  by_cases hle : hb ≤ hlm
  · exact .inl (Heap.tiled_init hle)
  · exact .inr ⟨rfl, rfl, rfl, rfl, BitVec.not_le.mp hle⟩

theorem Sound.dealloc (S : Sound hb hlm sth aln L) (mem : U32) : Sound hb hlm sth aln (L.dealloc mem).2 := by
  refine ⟨S.1.dealloc mem, S.2.imp (fun T => T.dealloc mem) fun I => ?_⟩
  rw [I.dealloc mem]
  exact I

/-- A request of at least one byte that wraps nowhere. -/
theorem Sound.allocStep (S : Sound hb hlm sth aln L) (hsth : 0 < sth) (hpos : r.1 ≠ none → 0 < n.toNat) (hw : NoWrap L n)
    (h : AllocStep L n r) : Tiled hb.toNat r.2 [] ∨ Idle hb hlm r.2 := by
  obtain ⟨⟨-, hs, -⟩, T | I⟩ := S
  · by_cases hr : r.1 = none
    · obtain ⟨_, L'⟩ := r
      obtain rfl : _ = none := hr
      rw [h.of_none]
      exact .inl T
    · exact .inl (T.allocStep (hpos hr) (by rwa [hs]) hw h)
  · rw [I.allocStep hw h]
    exact .inr I

theorem used_distinct {m : Nat} (T : Tiled m L []) : L.used.Pairwise fun b c => b.addr ≠ c.addr := by
  have hall := pairwise_disjoint T.cover_le
  rw [List.append_nil, List.map_append, List.pairwise_append] at hall
  refine (List.pairwise_map.mp hall.1).imp_of_mem fun {b c} hb hc hdisj he => ?_
  have hb' := T.size_pos b (by simp [hb])
  have hc' := T.size_pos c (by simp [hc])
  have hor := hdisj.le_or_le hb' hc'
  simp only [Span.stop, Block.span, he] at hor hb' hc'
  omega

theorem Sound.used_distinct (S : Sound hb hlm sth aln L) : L.used.Pairwise fun b c => b.addr ≠ c.addr := by
  rcases S.2 with T | I
  · exact HeapLists.used_distinct T
  · rw [I.used]
    exact .nil

end HeapLists

namespace Heap
open HeapLists

theorem cynAlign_zero (aln : U8) : cynAlign 0 aln = 0 := by
  rw [cynAlign, zero_add]
  exact BitVec.and_not_self _

variable {hb hlm sth : U32} {aln : U8} {n : U32} {k : Nat}

/-- A request that fits below `2 ^ 32` above `top`. -/
theorem Rep.noWrap_sound (R : Rep h L []) (S : L.Sound hb hlm sth aln) (haln : aln.toNat = 2 ^ k)
    (hpos : 1 ≤ n.toNat) (hfit : h.top.toNat + roundUp n.toNat h.aln.toNat ≤ 2 ^ 32 - 1) :
    n.toNat ≤ (cynAlign n L.aln).toNat ∧ NoWrap L (cynAlign n L.aln) := by
  have haln' : L.aln.toNat = 2 ^ k := by rw [S.1.2.2, haln]
  rcases S.2 with T | I
  · exact R.noWrap T haln' ⟨hpos, hfit⟩
  · rw [R.top, R.aln] at hfit
    obtain ⟨hsum, hround⟩ := cynAlign_eq_roundUp haln' (show roundUp n.toNat L.aln.toNat < 2 ^ 32 by omega)
    refine ⟨le_cynAlign haln' hsum, ⟨fun b hb => ?_, fun _ _ _ => by omega⟩⟩
    simp [I.free] at hb

/-- An empty request that makes no empty block. -/
theorem Rep.allocStep_empty (R : Rep h L []) (T : Tiled hb.toNat L []) (hok : h.EmptyHarmless)
    {r : Option Block × HeapLists} (hstep : AllocStep L 0 r) : Tiled hb.toNat r.2 [] := by
  have hfree := R.free.eq_head?
  have hfresh := R.fresh.eq_head?
  have hfind : L.free.find? (L.fits 0) = L.free.head? := by
    cases L.free with
    | nil => rfl
    | cons b l =>
      refine List.find?_cons_of_pos ?_
      rw [fits, Bool.or_eq_true]
      exact .inr (decide_eq_true (Nat.zero_le _))
  have hhead {b : Block} (hf : L.free.find? (L.fits 0) = some b) :
      L.isTop 0 b = false ∧ (L.fresh = [] ∨ b.size < L.sth) := by
    rw [hfind] at hf
    rw [List.head?_map, hf] at hfree
    have hb : b ∈ L.free := List.mem_of_head? hf
    unfold EmptyHarmless at hok
    simp only [hfree, Option.map_some, R.isTop hb, R.size b (by simp [hb]), R.sth, hfresh] at hok
    exact ⟨hok.1, hok.2.imp_left List.head?_eq_none_iff.mp⟩
  cases hstep with
  | top b l m _ hf htop =>
    rw [(hhead hf).1] at htop
    cases htop
  | whole b l m hb => exact T.takeWhole hb
  | split b l m k fresh _ hf _ hk hle =>
    rcases (hhead hf).2 with hnil | hlt
    · simp [hnil] at hk
    · rw [sub_zero] at hle
      exact absurd hle (BitVec.not_le.mpr hlt)
  | fresh k fresh hf hk hlmt =>
    rw [hfind, List.head?_eq_none_iff] at hf
    rw [hf] at hfree
    unfold EmptyHarmless at hok
    simp only [hfree, List.map_nil, List.head?_nil, hfresh, hk, List.head?_cons, R.top, R.lmt, reduceCtorEq,
      false_or] at hok
    rw [add_zero] at hlmt
    exact absurd hlmt (BitVec.not_le.mpr hok)
  | none => exact T

/-- A request that keeps the heap without empty blocks. -/
theorem Rep.alloc_noEmptyBlock (R : Rep h L []) (S : L.Sound hb hlm sth aln) (hsth : 0 < sth) (haln : aln.toNat = 2 ^ k)
    (hok : h.NoEmptyBlock n) : (L.alloc n).2.Sound hb hlm sth aln := by
  refine ⟨S.1.alloc n, ?_⟩
  have hstep := L.allocBlock_step (cynAlign n L.aln)
  rw [L.alloc_snd]
  obtain ⟨hfit, hpos⟩ := hok
  by_cases hn : 1 ≤ n.toNat
  · obtain ⟨hle, hw⟩ := R.noWrap_sound S haln hn hfit
    exact S.allocStep hsth (fun _ => by omega) hw hstep
  · obtain rfl : n = 0 := BitVec.eq_of_toNat_eq (show n.toNat = 0 by omega)
    rw [cynAlign_zero] at hstep ⊢
    rcases S.2 with T | I
    · exact .inl (R.allocStep_empty T (hpos.resolve_left hn) hstep)
    · have hw : NoWrap L 0 := ⟨fun b _ => b.addr.isLt, fun _ _ _ => L.top.isLt⟩
      rw [I.allocStep hw hstep]
      exact .inr I

/-- No live block has an address, and none gets it as long as `VM_alloc` does not return it. -/
theorem Run.not_live {a : U32} {h₀ : Heap} {L₀ : HeapLists} (R₀ : Rep h₀ L₀ []) (hinit : ∀ b ∈ L₀.used, b.addr ≠ a)
    (hr : Run (fun h n => ∀ h', h.alloc n ≠ some (a, h')) h₀ h) : ∃ L, Rep h L [] ∧ ∀ b ∈ L.used, b.addr ≠ a := by
  refine hr.lists_of R₀ hinit (fun h L n R hL hok => ?_) fun L mem hL => ?_
  · obtain ⟨h', hc, -⟩ := R.alloc n
    have hne : (L.alloc n).1 ≠ a := fun he => hok h' (he ▸ hc)
    have hstep := L.allocBlock_step (cynAlign n L.aln)
    unfold HeapLists.alloc at hne ⊢
    rcases hb : L.allocBlock (cynAlign n L.aln) with ⟨_ | b, L'⟩
    · rw [hb] at hstep
      rwa [hstep.of_none]
    · rw [hb] at hstep hne
      change ∀ c ∈ L'.used, c.addr ≠ a
      rw [hstep.used, List.forall_mem_cons]
      exact ⟨hne, hL⟩
  · rcases L.dealloc_cases mem with ⟨hres, -⟩ | ⟨l, b, m, -, hused, -, -, hres⟩
    · rwa [hres]
    · rw [hres]
      refine fun c hc => hL c ?_
      rw [hused]
      exact List.mem_append.mpr ((List.mem_append.mp hc).imp_right (List.mem_cons_of_mem _))

section Claims
variable {blocks : U32} {next : Nat → Option Nat} {size addr : Nat → U32} {h₀ : Heap}

/-- Without empty blocks the live blocks have distinct addresses, and what was freed is not freed again before it is
    handed out again. -/
theorem run_frees_once (h₀_eq : Heap.init hb hlm blocks sth aln next size addr = some h₀) (hsth : 0 < sth)
    (haln : ∃ k, aln.toNat = 2 ^ k) (hr : Run NoEmptyBlock h₀ h) :
    h.usedBlocks.Pairwise (fun b c => h.addr b ≠ h.addr c) ∧
    ∀ a h₁ h₂, h.dealloc a = some (true, h₁) → Run (fun h n => ∀ h', h.alloc n ≠ some (a, h')) h₁ h₂ →
      ∃ h₃, h₂.dealloc a = some (false, h₃) := by
  obtain ⟨k, haln⟩ := haln
  obtain ⟨L, R, S⟩ := hr.lists h₀_eq sound_init (fun h L n R S hok => R.alloc_noEmptyBlock S hsth haln hok)
    fun L mem S => S.dealloc mem
  have hdistinct := S.used_distinct
  constructor
  · rw [R.usedBlocks_eq, List.pairwise_map]
    refine hdistinct.imp_of_mem fun hb hc hne => ?_
    rwa [R.addr _ (by simp [hb]), R.addr _ (by simp [hc])]
  · intro a h₁ h₂ hfree hrest
    obtain ⟨h₁', hfree', R₁⟩ := R.dealloc a
    rw [hfree, Option.some.injEq, Prod.mk.injEq] at hfree'
    obtain ⟨htrue, rfl⟩ := hfree'
    rcases L.dealloc_cases a with ⟨hres, -⟩ | ⟨l, b, m, -, hused, hb, hl, hres⟩
    · simp [hres] at htrue
    · rw [hres] at R₁
      have hgone : ∀ c ∈ l ++ m, c.addr ≠ a := by
        rw [hused, List.pairwise_append, List.pairwise_cons] at hdistinct
        intro c hc
        rcases List.mem_append.mp hc with hc | hc
        · exact hl c hc
        · rw [← hb]
          exact (hdistinct.2.1.1 c hc).symm
      obtain ⟨L₂, R₂, hdead⟩ := hrest.not_live R₁ hgone
      obtain ⟨h₃, hd, -⟩ := R₂.dealloc a
      refine ⟨h₃, ?_⟩
      rcases L₂.dealloc_cases a with ⟨hres₂, -⟩ | ⟨l₂, b₂, m₂, -, hused₂, hb₂, -, -⟩
      · rwa [hres₂] at hd
      · exact absurd hb₂ (hdead b₂ (hused₂ ▸ List.mem_append_right _ List.mem_cons_self))

/-- A block that was handed out and freed. -/
theorem run_frees_once_freed : smallHeapOne.dealloc 16 = some (true, ((smallHeapOne.dealloc 16).get rfl).2) ∧
    ∃ h₃, ((smallHeapOne.dealloc 16).get rfl).2.dealloc 16 = some (false, h₃) := by
  have hone : Run NoEmptyBlock smallHeap smallHeapOne :=
    .alloc (a := 16) .init (show smallHeap.NoEmptyBlock 40 from ⟨by decide, .inl (by decide)⟩)
      (show smallHeap.alloc 40 = _ from rfl)
  exact ⟨rfl, (run_frees_once smallHeap_eq (by decide) ⟨3, rfl⟩ hone).2 16 _ _ rfl .init⟩

/-- Two empty requests get the same address, and `VM_free` accepts it twice. -/
theorem freed_twice : ∃ h h₁ h₂, Run (fun h n => h.top.toNat + roundUp n.toNat h.aln.toNat ≤ 2 ^ 32 - 1) smallHeap h ∧
    ¬h.usedBlocks.Pairwise (fun b c => h.addr b ≠ h.addr c) ∧ h.dealloc 16 = some (true, h₁) ∧
    h₁.dealloc 16 = some (true, h₂) :=
  ⟨_, _, _, .alloc (a := 16) (.alloc (a := 16) .init (show _ by decide) (show smallHeap.alloc 0 = _ from rfl))
    (show _ by decide) (show (((smallHeap.alloc 0).get rfl).2).alloc 0 = _ from rfl), by decide, rfl, rfl⟩

end Claims

end Heap

/-! ### Frees in any order -/

namespace HeapLists

/-- `VM_free` of several addresses, one after the other. -/
def freeAll (L : HeapLists) : List U32 → HeapLists
  | [] => L
  | a :: as => (L.dealloc a).2.freeAll as

variable {hb : Nat} {L L' : HeapLists}

theorem used_dealloc (h : L.used.Pairwise fun b c => b.addr ≠ c.addr) (a : U32) :
    (L.dealloc a).2.used = L.used.filter fun b => b.addr ≠ a ∨ b.addr = 0 := by
  rcases L.dealloc_cases a with ⟨hres, hnone⟩ | ⟨l, b, m, ha, hused, hb, hl, hres⟩
  · rw [hres]
    refine (List.filter_eq_self.mpr fun b hb => decide_eq_true ?_).symm
    rcases hnone with rfl | hnone
    · exact (Decidable.em (b.addr = 0)).symm
    · exact .inl (hnone b hb)
  · rw [hres]
    change l ++ m = _
    rw [hused, List.pairwise_append, List.pairwise_cons] at h
    have hgone : ¬(b.addr ≠ a ∨ b.addr = 0) := by
      rintro (hne | hz)
      · exact hne hb
      · exact ha (hb.symm.trans hz)
    rw [hused, List.filter_append, List.filter_cons_of_neg (by rw [decide_eq_true_iff]; exact hgone),
      List.filter_eq_self.mpr fun c hc => decide_eq_true (.inl (hl c hc)),
      List.filter_eq_self.mpr fun c hc => decide_eq_true (.inl (hb ▸ (h.2.1.1 c hc).symm))]

theorem top_dealloc (L : HeapLists) (a : U32) : (L.dealloc a).2.top = L.top := by
  rcases L.dealloc_cases a with ⟨hres, -⟩ | ⟨l, b, m, -, -, -, -, hres⟩ <;> rw [hres]
  rfl

/-- What several calls of `VM_free` leave is determined by the set of their addresses. -/
theorem Tiled.freeAll (T : Tiled hb L []) (as : List U32) : Tiled hb (L.freeAll as) [] ∧ (L.freeAll as).top = L.top ∧
    (L.freeAll as).count = L.count ∧ (L.freeAll as).used = L.used.filter fun b => b.addr ∉ as ∨ b.addr = 0 := by
  induction as generalizing L with
  | nil => exact ⟨T, rfl, rfl, by simp [HeapLists.freeAll]⟩
  | cons a as ih =>
    obtain ⟨hT, htop, hcount, hused⟩ := ih (T.dealloc a)
    refine ⟨hT, htop.trans (L.top_dealloc a), hcount.trans (L.count_dealloc a), ?_⟩
    rw [HeapLists.freeAll, hused, used_dealloc (used_distinct T), List.filter_filter]
    refine List.filter_congr fun b _ => ?_
    simp only [← Bool.decide_and, decide_eq_decide, List.mem_cons, not_or]
    tauto

/-- The free list of a tiled heap is determined by its used blocks and by `top`. -/
theorem Tiled.free_eq (T : Tiled hb L []) (T' : Tiled hb L' []) (hused : L.used = L'.used) (htop : L.top = L'.top) :
    L.free.map Block.span = L'.free.map Block.span := by
  refine eq_of_cover ?_ ?_ (List.pairwise_map.mpr T.apart) (List.pairwise_map.mpr T'.apart) fun x => ?_
  · exact List.forall_mem_map.mpr fun b hb => T.size_pos b (by simp [hb])
  · exact List.forall_mem_map.mpr fun b hb => T'.size_pos b (by simp [hb])
  · have h := (T.cover_eq x).trans (htop ▸ T'.cover_eq x).symm
    simp only [cover, List.append_nil, List.map_append, cover_append, hused] at h
    omega

theorem Tiled.free_of_used_nil (T : Tiled hb L []) (hused : L.used = []) : L.free.map Block.span =
    if L.top.toNat = hb then [] else [⟨hb, L.top.toNat - hb⟩] := by
  have hle := T.hb_le
  have hcover (x : Nat) : Library.cover (L.free.map Block.span) x = if hb ≤ x ∧ x < L.top.toNat then 1 else 0 := by
    have h := T.cover_eq x
    rwa [cover, hused, List.nil_append, List.append_nil] at h
  have hpos : ∀ s ∈ L.free.map Block.span, 0 < s.size :=
    List.forall_mem_map.mpr fun b hb => T.size_pos b (by simp [hb])
  split
  · refine eq_of_cover hpos (by simp) (List.pairwise_map.mpr T.apart) .nil fun x => ?_
    rw [hcover x, cover_nil]
    split <;> omega
  · refine eq_of_cover hpos (fun s hs => ?_) (List.pairwise_map.mpr T.apart) (List.pairwise_singleton ..) fun x => ?_
    · obtain rfl := List.mem_singleton.mp hs
      dsimp only
      omega
    · have hhit := Span.hit_cases ⟨hb, L.top.toNat - hb⟩ x
      rw [hcover x, cover_cons, cover_nil]
      dsimp only at hhit
      split <;> omega

variable {n : U32} {r : Option Block × HeapLists}

/-- Handing out memory leaves `top` above `hb`. -/
theorem Tiled.lt_top (T : Tiled hb L []) (hpos : 0 < n.toNat) (hw : NoWrap L n) (h : AllocStep L n r) :
    (r.1 ≠ none ∨ hb < L.top.toNat) → hb < r.2.top.toNat := by
  intro hor
  have hfree (b : Block) (hb' : b ∈ L.free) : hb ≤ b.addr.toNat ∧ b.addr.toNat < L.top.toNat := by
    have hin := T.inside b (by simp [hb'])
    have hsize := T.size_pos b (by simp [hb'])
    refine ⟨hin.1, T.covered_lt _ ?_⟩
    have hhit := b.span.hit_cases b.addr.toNat
    have hle := hit_le_cover (x := b.addr.toNat)
      (List.mem_map_of_mem (f := Block.span) (show b ∈ L.used ++ L.free ++ [] by simp [hb']))
    simp only [cover, Block.span] at *
    omega
  cases h with
  | top b l m hf hfind htop =>
    have hb' := hfree b (hf ▸ List.mem_append_right _ List.mem_cons_self)
    have hn := hw.block b hfind
    dsimp only
    rw [BitVec.toNat_add, Nat.mod_eq_of_lt hn]
    omega
  | whole b l m hf =>
    have hb' := hfree b (hf ▸ List.mem_append_right _ List.mem_cons_self)
    exact Nat.lt_of_le_of_lt hb'.1 hb'.2
  | split b l m k fresh hf =>
    have hb' := hfree b (hf ▸ List.mem_append_right _ List.mem_cons_self)
    exact Nat.lt_of_le_of_lt hb'.1 hb'.2
  | fresh k fresh hfind hk hlmt =>
    have hn := hw.fresh hfind (by simp [hk]) hlmt
    have hle := T.hb_le
    dsimp only
    rw [BitVec.toNat_add, Nat.mod_eq_of_lt hn]
    omega
  | none => exact hor.resolve_left (by simp)

end HeapLists

namespace Heap
open HeapLists

/-- `VM_free` of several addresses, one after the other. -/
def freeAll (heap : Heap) : List U32 → Option Heap
  | [] => some heap
  | a :: as => do
    let (_, heap) ← heap.dealloc a
    heap.freeAll as

/-- The descriptors on the list of fresh ones. -/
def freshBlocks (heap : Heap) : List Nat := walk heap.next heap.count heap.fresh

/-- The request is for at least one byte and wraps nowhere. -/
def NonemptySafe (h : Heap) (size : U32) : Prop := 1 ≤ size.toNat ∧ h.AllocSafe size

/-- The same free list by addresses and sizes, the same used blocks, the same `top` and as many fresh descriptors. -/
structure SameBlocks (h h' : Heap) : Prop where
  free : h.freeBlocks.map h.span = h'.freeBlocks.map h'.span
  used : h.usedBlocks = h'.usedBlocks
  usedSpans : h.usedBlocks.map h.span = h'.usedBlocks.map h'.span
  top : h.top = h'.top
  fresh : h.freshBlocks.length = h'.freshBlocks.length

/-- Some request of a run to `h` was served. -/
def Served (ok : Heap → U32 → Prop) (h₀ h : Heap) : Prop :=
  ∃ h₁ n b h₂, Run ok h₀ h₁ ∧ ok h₁ n ∧ h₁.allocHeapBlock n = some (some b, h₂) ∧ Run ok h₂ h

/-- The request is not served. -/
def Unserved (h : Heap) (n : U32) : Prop := ∀ b h', h.allocHeapBlock n ≠ some (some b, h')

variable {h h' : Heap} {L L' : HeapLists} {hb hlm sth : U32} {aln : U8} {n : U32} {k : Nat}

theorem Rep.freeAll (R : Rep h L []) (as : List U32) : ∃ h', h.freeAll as = some h' ∧ Rep h' (L.freeAll as) [] := by
  induction as generalizing h L with
  | nil => exact ⟨h, rfl, R⟩
  | cons a as ih =>
    obtain ⟨h₁, hd, R₁⟩ := R.dealloc a
    obtain ⟨h', hf, R'⟩ := ih R₁
    refine ⟨h', ?_, R'⟩
    rw [Heap.freeAll, hd]
    exact hf

theorem Rep.freshBlocks_eq (R : Rep h L []) : h.freshBlocks = L.fresh := by
  have hl := R.length_eq
  exact R.fresh.walk_eq (by omega)

theorem Rep.spans {l : List Block} (R : Rep h L []) (hl : ∀ b ∈ l, b ∈ L.free ++ L.used ++ []) :
    (l.map Block.id).map h.span = l.map Block.span := by
  rw [List.map_map]
  exact List.map_congr_left fun b hb => R.span (hl b hb)

theorem Rep.sameBlocks {m : Nat} (R : Rep h L []) (R' : Rep h' L' []) (T : Tiled m L []) (T' : Tiled m L' [])
    (hused : L.used = L'.used) (htop : L.top = L'.top) (hcount : L.count = L'.count) : h.SameBlocks h' := by
  have hfree := T.free_eq T' hused htop
  have hspans : (h.usedBlocks.map h.span) = h'.usedBlocks.map h'.span := by
    rw [R.usedBlocks_eq, R'.usedBlocks_eq, R.spans (by simp +contextual), R'.spans (by simp +contextual), hused]
  have hfreeSpans : (h.freeBlocks.map h.span) = h'.freeBlocks.map h'.span := by
    rw [R.freeBlocks_eq, R'.freeBlocks_eq, R.spans (by simp +contextual), R'.spans (by simp +contextual), hfree]
  refine ⟨hfreeSpans, by rw [R.usedBlocks_eq, R'.usedBlocks_eq, hused], hspans, R.top.trans (htop.trans R'.top.symm), ?_⟩
  have hlen := congrArg List.length hfree
  rw [List.length_map, List.length_map] at hlen
  rw [R.freshBlocks_eq, R'.freshBlocks_eq]
  simp only [HeapLists.count, hlen, hused] at hcount
  omega

/-- A request for at least one byte that wraps nowhere. -/
theorem Rep.alloc_nonemptySafe (R : Rep h L []) (S : L.Sound hb hlm sth aln) (hsth : 0 < sth) (haln : aln.toNat = 2 ^ k)
    (hok : h.NonemptySafe n) : (L.alloc n).2.Sound hb hlm sth aln ∧
      ((L.allocBlock (cynAlign n L.aln)).1 ≠ none ∨ hb.toNat < L.top.toNat → hb.toNat < (L.alloc n).2.top.toNat) := by
  obtain ⟨hpos, hsafe⟩ := hok
  obtain ⟨hw, hround⟩ := R.allocSafe hsafe
  have hstep := L.allocBlock_step (cynAlign n L.aln)
  have hlen (hr : (L.allocBlock (cynAlign n L.aln)).1 ≠ none) : 0 < (cynAlign n L.aln).toNat := by
    have hle := le_cynAlign (S.1.2.2 ▸ haln) (hround hr)
    omega
  rw [L.alloc_snd]
  refine ⟨⟨?_, S.allocStep hsth hlen hw hstep⟩, fun hor => ?_⟩
  · rw [← L.alloc_snd]
    exact S.1.alloc n
  · by_cases hr : (L.allocBlock (cynAlign n L.aln)).1 = none
    · have hsame : (L.allocBlock (cynAlign n L.aln)).2 = L := by
        refine AllocStep.of_none ?_ (n := cynAlign n L.aln)
        rw [← hr]
        exact hstep
      rw [hsame]
      exact hor.resolve_left fun hne => hne hr
    · rcases S.2 with T | I
      · exact T.lt_top (hlen hr) hw hstep hor
      · exact absurd (congrArg Prod.fst (I.allocStep hw hstep)) hr

section Claims
variable {blocks : U32} {next : Nat → Option Nat} {size addr : Nat → U32} {h₀ : Heap}

theorem Run.sound (h₀_eq : Heap.init hb hlm blocks sth aln next size addr = some h₀) (hsth : 0 < sth)
    (haln : aln.toNat = 2 ^ k) (hr : Run NonemptySafe h₀ h) : ∃ L, Rep h L [] ∧ L.Sound hb hlm sth aln :=
  hr.lists h₀_eq sound_init (fun _ _ _ R S hok => (R.alloc_nonemptySafe S hsth haln hok).1) fun _ mem S => S.dealloc mem

theorem Served.lt_top (h₀_eq : Heap.init hb hlm blocks sth aln next size addr = some h₀) (hsth : 0 < sth)
    (haln : aln.toNat = 2 ^ k) (hs : Served NonemptySafe h₀ h) : hb.toNat < h.top.toNat := by
  obtain ⟨h₁, n, b, h₂, hr₁, hok, hc, hr₂⟩ := hs
  obtain ⟨L, R, S⟩ := hr₁.sound h₀_eq hsth haln
  obtain ⟨h₂', hc', R₂⟩ := R.allocHeapBlock n
  rw [hc, Option.some.injEq, Prod.mk.injEq] at hc'
  obtain ⟨hb', rfl⟩ := hc'
  have hne : (L.allocBlock (cynAlign n L.aln)).1 ≠ none := by
    intro hz
    rw [hz] at hb'
    cases hb'
  obtain ⟨S₂, hlt⟩ := R.alloc_nonemptySafe S hsth haln hok
  rw [← L.alloc_snd] at R₂
  obtain ⟨L', R', -, htop⟩ := hr₂.lists_of R₂ (P := fun L => L.Sound hb hlm sth aln ∧ hb.toNat < L.top.toNat)
    ⟨S₂, hlt (.inl hne)⟩
    (fun h L n R hP hok => by
      obtain ⟨hS, himp⟩ := R.alloc_nonemptySafe hP.1 hsth haln hok
      exact ⟨hS, himp (.inr hP.2)⟩)
    fun L mem hP => ⟨hP.1.dealloc mem, by rw [L.top_dealloc]; exact hP.2⟩
  rwa [R'.top]

theorem Run.top_of_unserved (h₀_eq : Heap.init hb hlm blocks sth aln next size addr = some h₀)
    (hr : Run Unserved h₀ h) : h.top = hb := by
  obtain ⟨L, R, htop⟩ := hr.lists h₀_eq (P := fun L => L.top = hb) rfl
    (fun h L n R hP hok => by
      obtain ⟨h', hc, -⟩ := R.allocHeapBlock n
      have hstep := L.allocBlock_step (cynAlign n L.aln)
      rw [L.alloc_snd]
      rcases hb' : L.allocBlock (cynAlign n L.aln) with ⟨_ | b, L'⟩
      · rw [hb'] at hstep
        rwa [hstep.of_none]
      · rw [hb'] at hc
        exact absurd hc (hok _ _))
    fun L mem hP => (L.top_dealloc mem).trans hP
  rw [R.top, htop]

/-- The order of two frees does not matter, and freeing all live blocks leaves one free block, if there ever was one
    and none is at address 0. -/
theorem run_frees_commute (h₀_eq : Heap.init hb hlm blocks sth aln next size addr = some h₀) (hsth : 0 < sth)
    (haln : ∃ k, aln.toNat = 2 ^ k) (hr : Run NonemptySafe h₀ h) :
    (∀ a ∈ h.usedBlocks, ∀ b ∈ h.usedBlocks, ∃ h₁ h₂, h.freeAll [h.addr a, h.addr b] = some h₁ ∧
      h.freeAll [h.addr b, h.addr a] = some h₂ ∧ h₁.SameBlocks h₂) ∧
    ((∀ b ∈ h.usedBlocks, h.addr b ≠ 0) → ∀ order : List Nat, order.Perm h.usedBlocks →
      ∃ h', h.freeAll (order.map h.addr) = some h' ∧ h'.usedBlocks = [] ∧
        h'.freeBlocks.map h'.span = if h.top = hb then [] else [⟨hb.toNat, h.top.toNat - hb.toNat⟩]) ∧
    (Served NonemptySafe h₀ h → h.top ≠ hb) ∧ (Run Unserved h₀ h → h.top = hb) := by
  obtain ⟨k, haln⟩ := haln
  obtain ⟨L, R, S⟩ := hr.sound h₀_eq hsth haln
  refine ⟨fun a ha b hb' => ?_, fun hnonzero order horder => ?_, fun hs htop => ?_, fun hu => hu.top_of_unserved h₀_eq⟩
  · rcases S.2 with T | I
    · obtain ⟨h₁, hf₁, R₁⟩ := R.freeAll [h.addr a, h.addr b]
      obtain ⟨h₂, hf₂, R₂⟩ := R.freeAll [h.addr b, h.addr a]
      obtain ⟨T₁, htop₁, hcount₁, hused₁⟩ := T.freeAll [h.addr a, h.addr b]
      obtain ⟨T₂, htop₂, hcount₂, hused₂⟩ := T.freeAll [h.addr b, h.addr a]
      refine ⟨h₁, h₂, hf₁, hf₂, R₁.sameBlocks R₂ T₁ T₂ ?_ (htop₁.trans htop₂.symm) (hcount₁.trans hcount₂.symm)⟩
      rw [hused₁, hused₂]
      refine List.filter_congr fun c _ => ?_
      rw [decide_eq_decide, List.mem_pair, List.mem_pair, or_comm (a := c.addr = h.addr a)]
    · rw [R.usedBlocks_eq, I.used] at ha
      cases ha
  · obtain ⟨h', hf, R'⟩ := R.freeAll (order.map h.addr)
    refine ⟨h', hf, ?_⟩
    rw [R'.usedBlocks_eq, R'.freeBlocks_eq, R'.spans (by simp +contextual)]
    rcases S.2 with T | I
    · obtain ⟨T', htop, -, hused⟩ := T.freeAll (order.map h.addr)
      have hnil : (L.freeAll (order.map h.addr)).used = [] := by
        rw [hused, List.filter_eq_nil_iff]
        intro b hb'
        have hmem : b.id ∈ h.usedBlocks := R.usedBlocks_eq ▸ List.mem_map_of_mem hb'
        have haddr : h.addr b.id = b.addr := R.addr b (by simp [hb'])
        have hne := hnonzero b.id hmem
        rw [haddr] at hne
        rw [decide_eq_true_iff, not_or, not_not]
        exact ⟨List.mem_map.mpr ⟨b.id, horder.mem_iff.mpr hmem, haddr⟩, hne⟩
      refine ⟨by rw [hnil]; rfl, ?_⟩
      rw [T'.free_of_used_nil hnil, htop, ← R.top]
      simp only [BitVec.toNat_inj]
    · have hnil : order = [] := by
        rw [R.usedBlocks_eq, I.used] at horder
        exact horder.eq_nil
      subst hnil
      rw [show L.freeAll _ = L from rfl, I.used, I.free, R.top, I.top, if_pos rfl]
      exact ⟨rfl, rfl⟩
  · have hlt := hs.lt_top h₀_eq hsth haln
    rw [htop] at hlt
    exact absurd hlt (Nat.lt_irrefl _)

/-- Two live blocks and their frees. -/
theorem run_frees_commute_two : ∃ h', smallHeapTwo.freeAll [16, 56] = some h' ∧ h'.usedBlocks = [] ∧
    h'.freeBlocks.map h'.span = [⟨16, 64⟩] := by
  have hone : Run NonemptySafe smallHeap smallHeapOne :=
    .alloc (a := 16) .init ⟨by decide, show AllocSafe _ 40 from (.inr (.inr (by decide)) : _ ∨ _ ∨ _)⟩
      (show smallHeap.alloc 40 = _ from rfl)
  have htwo : Run NonemptySafe smallHeap smallHeapTwo :=
    .alloc (a := 56) hone ⟨by decide, show AllocSafe _ 24 from (.inr (.inr (by decide)) : _ ∨ _ ∨ _)⟩
      (show smallHeapOne.alloc 24 = _ from rfl)
  exact (run_frees_commute smallHeap_eq (by decide) ⟨3, rfl⟩ htwo).2.1 (by decide) [0, 1] (by decide)

/-- A heap that starts at address 0. -/
def zeroHeap : Heap := (Heap.init 0 1000 5 16 8 (fun _ => none) (fun _ => 0) fun _ => 0).get rfl

/-- `VM_free` does not free the block at address 0. -/
theorem freed_not_coalesced : ∃ h h', Run NonemptySafe zeroHeap h ∧ h.freeAll (h.usedBlocks.map h.addr) = some h' ∧
    h.top = 8 ∧ h'.freeBlocks = [] ∧ h'.usedBlocks = [0] :=
  ⟨_, _, .alloc (a := 0) .init ⟨by decide, show AllocSafe _ 8 from (.inr (.inr (by decide)) : _ ∨ _ ∨ _)⟩
    (show zeroHeap.alloc 8 = _ from rfl), rfl, rfl, rfl, rfl⟩

end Claims

end Heap

end Cyntatic
