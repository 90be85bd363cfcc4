import Mathlib.Data.List.Find
import Cyntatic.Theorems.HeapTiling

/-! # Runs of the heap

Any sequence of `VM_alloc` and `VM_free` calls from `VM_heap_init_` on. The lists of the heap stand for
lists of blocks throughout a run, so the invariants of `HeapTiling` carry over to the linked lists: a run
without empty or wrapping requests keeps the heap tiled, and as long as no request wraps, what `VM_alloc`
hands out lies in the heap and overlaps no live block. -/

namespace Cyntatic
open Library

namespace Heap

/-- The interval of addresses of a block. -/
def span (h : Heap) (b : Nat) : Span := ⟨(h.addr b).toNat, (h.size b).toNat⟩

/-- The heaps reached from `h₀` when every request of `VM_alloc` meets `ok`. -/
inductive Run (ok : Heap → U32 → Prop) (h₀ : Heap) : Heap → Prop
  | init : Run ok h₀ h₀
  | alloc {h h' : Heap} {size a : U32} (hr : Run ok h₀ h) (hok : ok h size) (hc : h.alloc size = some (a, h')) :
      Run ok h₀ h'
  | free {h h' : Heap} {mem : U32} {r : Bool} (hr : Run ok h₀ h) (hc : h.dealloc mem = some (r, h')) : Run ok h₀ h'

/-- The used and the free blocks tile `[hb, top)`, and the free list is ascending without blocks that touch. -/
structure Tiles (hb : Nat) (h : Heap) : Prop where
  cover : ∀ x, cover ((h.usedBlocks ++ h.freeBlocks).map h.span) x = if hb ≤ x ∧ x < h.top.toNat then 1 else 0
  hb_le : hb ≤ h.top.toNat
  top_le : h.top.toNat ≤ h.lmt.toNat
  ascending : h.freeBlocks.Pairwise fun b c => h.addr b < h.addr c
  apart : h.freeBlocks.Pairwise fun b c => (h.span b).stop ≠ (h.span c).start ∧ (h.span c).stop ≠ (h.span b).start

/-- A size rounded up to a multiple of the alignment, without wrapping. -/
def roundUp (size aln : Nat) : Nat := (size + (aln - 1)) / aln * aln

/-- The request is not empty, and `top` plus its rounded size is an address. -/
def RequestFits (h : Heap) (size : U32) : Prop := 1 ≤ size.toNat ∧ h.top.toNat + roundUp size.toNat h.aln.toNat ≤ 2 ^ 32 - 1

/-- Where the call of `VM_alloc` takes its memory from, no sum wraps around: the block where the search
    stops, and else the new block at `top`. -/
def AllocSafe (h : Heap) (size : U32) : Prop :=
  let n := cynAlign size h.aln
  match h.freeBlocks.find? fun b => h.isTop n b || n ≤ h.size b with
  | some b => size.toNat + (h.aln.toNat - 1) < 2 ^ 32 ∧ (h.addr b).toNat + n.toNat < 2 ^ 32
  | none =>
    h.fresh = none ∨ h.lmt < h.top + n ∨
      size.toNat + (h.aln.toNat - 1) < 2 ^ 32 ∧ h.top.toNat + n.toNat < 2 ^ 32

/-- What `VM_alloc` hands out, if anything, lies between `hb` and the limit and overlaps no other live block. -/
def HandsOut (hb : Nat) (h : Heap) (size : U32) : Prop :=
  ∀ a h', h.alloc size = some (a, h') → a ≠ 0 →
    hb ≤ a.toNat ∧ a.toNat + size.toNat ≤ h'.lmt.toNat ∧
    ∃ b ∈ h'.usedBlocks, h'.addr b = a ∧
      ∀ c ∈ h'.usedBlocks, c ≠ b → (⟨a.toNat, size.toNat⟩ : Span).Disjoint (h'.span c)

end Heap

/-! ### Constants of a run -/

namespace HeapLists

/-- The parameters of the heap that no call changes. -/
def Params (L : HeapLists) (lmt sth : U32) (aln : U8) : Prop := L.lmt = lmt ∧ L.sth = sth ∧ L.aln = aln

variable {L : HeapLists} {lmt sth : U32} {aln : U8}

theorem Params.alloc (P : L.Params lmt sth aln) (size : U32) : (L.alloc size).2.Params lmt sth aln := by
  rw [L.alloc_snd]
  have hstep := L.allocBlock_step (cynAlign size L.aln)
  generalize L.allocBlock (cynAlign size L.aln) = r at hstep ⊢
  cases hstep <;> exact P

theorem Params.dealloc (P : L.Params lmt sth aln) (mem : U32) : (L.dealloc mem).2.Params lmt sth aln := by
  unfold HeapLists.dealloc
  split
  · exact P
  · split <;> exact P

end HeapLists

/-! ### The lists behind a run -/

namespace Heap
open HeapLists

section Runs
variable {hb hlm blocks sth : U32} {aln : U8} {next : Nat → Option Nat} {size addr : Nat → U32}
  {ok : Heap → U32 → Prop} {h₀ h : Heap}

/-- What every call keeps of the lists holds of the lists behind every heap of a run. -/
theorem Run.lists_of {P : HeapLists → Prop} {L₀ : HeapLists} (R₀ : Rep h₀ L₀ []) (hinit : P L₀)
    (halloc : ∀ h L n, Rep h L [] → P L → ok h n → P (L.alloc n).2) (hfree : ∀ L mem, P L → P (L.dealloc mem).2)
    (hr : Run ok h₀ h) : ∃ L, Rep h L [] ∧ P L := by
  induction hr with
  | init => exact ⟨_, R₀, hinit⟩
  | alloc _ hok hc ih =>
    rename_i n _ _
    obtain ⟨L, R, hP⟩ := ih
    obtain ⟨h', hc', R'⟩ := R.alloc n
    rw [hc] at hc'
    obtain ⟨-, rfl⟩ := Prod.mk.inj (Option.some.inj hc')
    exact ⟨_, R', halloc _ L n R hP hok⟩
  | free _ hc ih =>
    rename_i mem _ _
    obtain ⟨L, R, hP⟩ := ih
    obtain ⟨h', hc', R'⟩ := R.dealloc mem
    rw [hc] at hc'
    obtain ⟨-, rfl⟩ := Prod.mk.inj (Option.some.inj hc')
    exact ⟨_, R', hfree L mem hP⟩

theorem Run.lists {P : HeapLists → Prop} (h₀_eq : Heap.init hb hlm blocks sth aln next size addr = some h₀)
    (hinit : P (HeapLists.init hb hlm blocks sth aln))
    (halloc : ∀ h L n, Rep h L [] → P L → ok h n → P (L.alloc n).2) (hfree : ∀ L mem, P L → P (L.dealloc mem).2)
    (hr : Run ok h₀ h) : ∃ L, Rep h L [] ∧ P L :=
  hr.lists_of (Rep.init h₀_eq) hinit halloc hfree

end Runs

variable {h : Heap} {L : HeapLists}

theorem Rep.span {hand : List Block} (R : Rep h L hand) {b : Block} (hb : b ∈ L.free ++ L.used ++ hand) :
    h.span b.id = b.span := by
  rw [Heap.span, R.addr b hb, R.size b hb]
  rfl

theorem Rep.cover (R : Rep h L []) (x : Nat) :
    cover ((h.usedBlocks ++ h.freeBlocks).map h.span) x = L.cover [] x := by
  rw [R.usedBlocks_eq, R.freeBlocks_eq, ← List.map_append, List.map_map, HeapLists.cover, List.append_nil]
  congr 1
  refine List.map_congr_left fun b hb => R.span ?_
  rw [List.mem_append] at hb
  simp only [List.mem_append]
  grind

/-- A tiled heap, read off its linked lists. -/
theorem Rep.tiles {hb : Nat} (R : Rep h L []) (T : Tiled hb L []) : h.Tiles hb := by
  have hspan : ∀ b ∈ L.free, h.span b.id = b.span := fun b hb => R.span (by simp [hb])
  constructor
  case cover =>
    intro x
    rw [R.cover, R.top]
    exact T.cover_eq x
  case hb_le =>
    rw [R.top]
    exact T.hb_le
  case top_le =>
    rw [R.top, R.lmt]
    exact T.top_le
  case ascending =>
    rw [R.freeBlocks_eq, List.pairwise_map]
    refine T.apart.imp_of_mem fun hb hc hlt => ?_
    rw [R.addr _ (by simp [hb]), R.addr _ (by simp [hc]), BitVec.lt_def]
    simp only [Block.span, Span.stop] at hlt
    omega
  case apart =>
    rw [R.freeBlocks_eq, List.pairwise_map]
    refine T.apart.imp_of_mem fun hb hc hlt => ?_
    rw [hspan _ hb, hspan _ hc]
    simp only [Span.stop] at hlt ⊢
    omega

/-- What `VM_alloc` returns, if it is not 0, is the address of a live block with room for the rounded size. -/
theorem Rep.alloc_live (R : Rep h L []) {size a : U32} {h' : Heap} (hc : h.alloc size = some (a, h')) (ha : a ≠ 0) :
    ∃ b L', L.allocBlock (cynAlign size L.aln) = (some b, L') ∧ AllocStep L (cynAlign size L.aln) (some b, L') ∧
      Rep h' L' [] ∧ b.addr = a := by
  obtain ⟨h'', hc', R'⟩ := R.alloc size
  rw [hc] at hc'
  obtain ⟨hres, rfl⟩ := Prod.mk.inj (Option.some.inj hc')
  have hstep := L.allocBlock_step (cynAlign size L.aln)
  unfold HeapLists.alloc at hres R'
  rcases hr : L.allocBlock (cynAlign size L.aln) with ⟨_ | b, L'⟩
  · rw [hr] at hres
    exact absurd hres ha
  · rw [hr] at hres R' hstep
    exact ⟨b, L', rfl, hstep, R', hres.symm⟩

/-- Rounding up without wrapping. -/
theorem cynAlign_eq_roundUp {size : U32} {aln : U8} {k : Nat} (haln : aln.toNat = 2 ^ k)
    (hfit : roundUp size.toNat aln.toNat < 2 ^ 32) :
    size.toNat + (aln.toNat - 1) < 2 ^ 32 ∧ (cynAlign size aln).toNat = roundUp size.toNat aln.toNat := by
  have hk : k ≤ 32 := by
    have hlt := aln.isLt
    rw [haln] at hlt
    exact Nat.le_of_lt (Nat.lt_trans ((Nat.pow_lt_pow_iff_right (by decide)).mp hlt) (by decide))
  have hpos : 0 < aln.toNat := haln ▸ Nat.two_pow_pos k
  have hmod := Nat.mod_lt (size.toNat + (aln.toNat - 1)) hpos
  have hdiv := Nat.div_add_mod' (size.toNat + (aln.toNat - 1)) aln.toNat
  have hlt : size.toNat + (aln.toNat - 1) < 2 ^ 32 := by
    -- A multiple of the alignment below `2 ^ 32` leaves room for one more.
    have hpow : 2 ^ 32 = 2 ^ (32 - k) * aln.toNat := by rw [haln, ← Nat.pow_add, Nat.sub_add_cancel hk]
    unfold roundUp at hfit
    rw [hpow] at hfit ⊢
    have hq := Nat.lt_of_mul_lt_mul_right hfit
    have hnext := Nat.mul_le_mul_right aln.toNat (Nat.succ_le_of_lt hq)
    rw [Nat.succ_mul] at hnext
    omega
  exact ⟨hlt, by rw [cynAlign_toNat size haln, Nat.mod_eq_of_lt hlt, roundUp]⟩

/-- A request that fits is handed out without wrapping. -/
theorem Rep.noWrap {hb k : Nat} {size : U32} (R : Rep h L []) (T : Tiled hb L []) (haln : L.aln.toNat = 2 ^ k)
    (hfit : h.RequestFits size) : size.toNat ≤ (cynAlign size L.aln).toNat ∧ NoWrap L (cynAlign size L.aln) := by
  obtain ⟨-, hfit⟩ := hfit
  rw [R.top, R.aln] at hfit
  obtain ⟨hsum, hround⟩ := cynAlign_eq_roundUp haln (show roundUp size.toNat L.aln.toNat < 2 ^ 32 by omega)
  refine ⟨le_cynAlign haln hsum, ⟨fun b hb => ?_, fun _ _ _ => ?_⟩⟩
  · -- A free block starts below `top`.
    have hmem := List.mem_of_find?_eq_some hb
    have hpos := T.size_pos b (by simp [hmem])
    have hhit := b.span.hit_cases b.addr.toNat
    have hle := hit_le_cover (s := b.span) (l := (L.used ++ L.free ++ []).map Block.span) (x := b.addr.toNat)
      (List.mem_map_of_mem (by simp [hmem]))
    have hlt := T.covered_lt b.addr.toNat (by
      simp only [HeapLists.cover, Block.span] at *
      omega)
    omega
  · omega

/-- A call that is safe wraps nowhere, and hands out no less than it was asked for. -/
theorem Rep.allocSafe (R : Rep h L []) {size : U32} (hok : h.AllocSafe size) :
    NoWrap L (cynAlign size L.aln) ∧
    ((L.allocBlock (cynAlign size L.aln)).1 ≠ none → size.toNat + (L.aln.toNat - 1) < 2 ^ 32) := by
  have hfind : h.freeBlocks.find? (fun b => h.isTop (cynAlign size L.aln) b || cynAlign size L.aln ≤ h.size b) =
      (L.free.find? (L.fits (cynAlign size L.aln))).map Block.id := by
    rw [R.freeBlocks_eq, List.find?_map]
    congr 1
    refine List.find?_congr fun b hb => ?_
    simp only [Function.comp_apply, R.isTop hb, R.size b (by simp [hb]), HeapLists.fits]
  have hstep := L.allocBlock_step (cynAlign size L.aln)
  unfold AllocSafe at hok
  simp only [R.aln, R.top, R.lmt] at hok
  rw [hfind] at hok
  rcases hf : L.free.find? (L.fits (cynAlign size L.aln)) with _ | b
  · simp only [hf, Option.map_none] at hok
    have hnone : h.fresh = none ∨ L.lmt < L.top + cynAlign size L.aln → L.fresh = [] ∨ ¬L.top + cynAlign size L.aln ≤ L.lmt :=
      fun hn => hn.imp (fun hn => List.head?_eq_none_iff.mp (R.fresh.eq_head?.symm.trans hn)) BitVec.not_le.mpr
    refine ⟨⟨fun b hb => ?_, fun _ hfresh hle => ?_⟩, fun hne => ?_⟩
    · rw [hf] at hb
      cases hb
    · rcases or_assoc.mpr hok with hok | hok
      · exact absurd (hnone hok) (by simp [hfresh, hle])
      · exact hok.2
    · rcases or_assoc.mpr hok with hok | hok
      · generalize L.allocBlock (cynAlign size L.aln) = r at hstep hne
        cases hstep with
        | fresh k fresh _ hfresh hle => exact absurd (hnone hok) (by simp [hfresh, hle])
        | none => exact absurd rfl hne
        | top b l m hfree hb => simp [hf] at hb
        | whole b l m hfree hb => simp [hf] at hb
        | split b l m k fresh hfree hb => simp [hf] at hb
      · exact hok.1
  · simp only [hf, Option.map_some] at hok
    have hmem := List.mem_of_find?_eq_some hf
    rw [R.addr b (by simp [hmem])] at hok
    refine ⟨⟨fun c hc => ?_, fun hnone => ?_⟩, fun _ => hok.1⟩
    · rw [hf] at hc
      obtain rfl := Option.some.inj hc
      exact hok.2
    · rw [hf] at hnone
      cases hnone

section Claims
variable {hb hlm blocks sth : U32} {aln : U8} {next : Nat → Option Nat} {size addr : Nat → U32} {h₀ h : Heap}

theorem tiled_init (hpos : hb ≤ hlm) : Tiled hb.toNat (HeapLists.init hb hlm blocks sth aln) [] where
  cover_le x := by simp [HeapLists.cover, HeapLists.init]
  covered_lt x hx := by simp [HeapLists.cover, HeapLists.init] at hx
  inside b hb := by simp [HeapLists.init] at hb
  sorted := .nil
  hb_le := Nat.le_refl _
  covered x h1 h2 := absurd h2 (Nat.not_lt.mpr h1)
  size_pos b hb := by simp [HeapLists.init] at hb
  apart := .nil
  top_le := hpos

/-- The lists behind a run in which every request fits are tiled. -/
theorem Run.tiled (h₀_eq : Heap.init hb hlm blocks sth aln next size addr = some h₀) (hle : hb ≤ hlm)
    (hsth : 0 < sth) {k : Nat} (haln : aln.toNat = 2 ^ k) (hr : Run RequestFits h₀ h) :
    ∃ L, Rep h L [] ∧ Tiled hb.toNat L [] ∧ L.Params hlm sth aln := by
  refine hr.lists h₀_eq ⟨tiled_init hle, rfl, rfl, rfl⟩ (fun h L n R ⟨T, P⟩ hok => ⟨?_, P.alloc n⟩)
    fun L mem ⟨T, P⟩ => ⟨T.dealloc mem, P.dealloc mem⟩
  have hfit := hok.1
  obtain ⟨hlen, hw⟩ := R.noWrap T (P.2.2 ▸ haln) hok
  rw [L.alloc_snd]
  exact T.allocStep (by omega) (P.2.1 ▸ hsth) hw (L.allocBlock_step _)

/-- A heap of five descriptors for the addresses from 16 to 1000. -/
def smallHeap : Heap := (Heap.init 16 1000 5 16 8 (fun _ => none) (fun _ => 0) fun _ => 0).get rfl

theorem smallHeap_eq : Heap.init 16 1000 5 16 8 (fun _ => none) (fun _ => 0) (fun _ => 0) = some smallHeap := rfl

/-- `smallHeap` after a request of 40 bytes. -/
def smallHeapOne : Heap := ((smallHeap.alloc 40).get rfl).2

/-- `smallHeap` after requests of 40 and 24 bytes. -/
def smallHeapTwo : Heap := ((smallHeapOne.alloc 24).get rfl).2

theorem safe_init : Safe hb.toNat (HeapLists.init hb hlm blocks sth aln) [] where
  cover_le x := by simp [HeapLists.cover, HeapLists.init]
  covered_lt x hx := by simp [HeapLists.cover, HeapLists.init] at hx
  inside b hb := by simp [HeapLists.init] at hb
  sorted := .nil
  hb_le := Nat.le_refl _

/-- The lists behind a run in which no request wraps are safe. -/
theorem Run.safe (h₀_eq : Heap.init hb hlm blocks sth aln next size addr = some h₀) (hr : Run AllocSafe h₀ h) :
    ∃ L, Rep h L [] ∧ Safe hb.toNat L [] ∧ L.Params hlm sth aln := by
  refine hr.lists h₀_eq ⟨safe_init, rfl, rfl, rfl⟩ (fun h L n R ⟨S, P⟩ hok => ⟨?_, P.alloc n⟩)
    fun L mem ⟨S, P⟩ => ⟨S.dealloc mem, P.dealloc mem⟩
  rw [L.alloc_snd]
  exact S.allocStep (R.allocSafe hok).1 (L.allocBlock_step _)

/-- What is handed out of a safe heap without wrapping. -/
theorem Rep.handsOut {m k : Nat} {n : U32} (R : Rep h L []) (S : Safe m L []) (haln : L.aln.toNat = 2 ^ k)
    (hok : h.AllocSafe n) : h.HandsOut m n := by
  intro a h' hc ha
  obtain ⟨hw, hround⟩ := R.allocSafe hok
  obtain ⟨b, L', hr, hstep, R', rfl⟩ := R.alloc_live hc ha
  have S' := S.allocStep hw hstep
  have hmem := hstep.mem
  have hin : b.Inside m L'.lmt.toNat := S'.inside b (by simp [hmem])
  have hsize : n.toNat ≤ b.size.toNat :=
    Nat.le_trans (le_cynAlign haln (hround (by simp [hr]))) (BitVec.le_def.mp hstep.size_le)
  have hdisj : L'.used.Pairwise fun b c => b.span.Disjoint c.span := by
    have hall := pairwise_disjoint S'.cover_le
    rw [List.append_nil, List.map_append, List.pairwise_append] at hall
    exact List.pairwise_map.mp hall.1
  rw [R'.lmt, R'.usedBlocks_eq]
  simp only [Block.Inside, Span.stop, Block.span] at hin
  refine ⟨hin.1, by omega, b.id, List.mem_map_of_mem hmem, R'.addr b (by simp [hmem]), fun c hc hne => ?_⟩
  obtain ⟨c, hused, rfl⟩ := List.mem_map.mp hc
  rw [R'.span (by simp [hused])]
  have hsymm : Std.Symm fun b c : Block => b.span.Disjoint c.span := ⟨fun _ _ => Span.Disjoint.symm⟩
  refine (hdisj.forall hmem hused ?_).mono (Nat.le_refl _) ?_
  · rintro rfl
    exact hne rfl
  · simp only [Span.stop, Block.span]
    omega

/-- In a run without wrapping requests, every request that does not wrap is served inside the heap and apart
    from the other live blocks. -/
theorem run_handsOut (h₀_eq : Heap.init hb hlm blocks sth aln next size addr = some h₀) (haln : ∃ k, aln.toNat = 2 ^ k)
    (hr : Run AllocSafe h₀ h) (n : U32) (hok : h.AllocSafe n) :
    (∃ a h', h.alloc n = some (a, h')) ∧ h.HandsOut hb.toNat n := by
  obtain ⟨k, haln⟩ := haln
  obtain ⟨L, R, S, P⟩ := hr.safe h₀_eq
  obtain ⟨h', hc, -⟩ := R.alloc n
  exact ⟨⟨_, h', hc⟩, R.handsOut S (P.2.2 ▸ haln) hok⟩

/-- A second allocation. -/
theorem run_handsOut_second : Run AllocSafe smallHeap smallHeapOne ∧ smallHeapOne.alloc 24 = some (56, smallHeapTwo) ∧
    smallHeapOne.HandsOut 16 24 := by
  have hone : Run AllocSafe smallHeap smallHeapOne :=
    .alloc (a := 16) .init (show AllocSafe _ 40 from (.inr (.inr (by decide)) : _ ∨ _ ∨ _)) rfl
  have hok : smallHeapOne.AllocSafe 24 := (.inr (.inr (by decide)) : _ ∨ _ ∨ _)
  exact ⟨hone, rfl, (run_handsOut smallHeap_eq ⟨3, rfl⟩ hone 24 hok).2⟩

/-- A request of `0xFFFFFFFF` bytes is rounded up to 0, and gets the address 16. -/
theorem run_handsOut_wraps : ¬∀ h n, Run (fun _ _ => True) smallHeap h → h.HandsOut 16 n := by
  intro hall
  have hout := (hall _ 0xFFFFFFFF .init 16 _ rfl (by decide)).2.1
  exact absurd hout (by decide)

end Claims

end Heap

end Cyntatic
