import Cyntatic.Vm.Heap
import Mathlib.Data.List.Sort

/-! # The heap as lists of blocks

What the linked lists of `memory.c` stand for: a list of free blocks, a list of used blocks and a list of
fresh descriptors. The operations of the heap are restated on these lists, and every operation on the
linked lists ends and follows the one on the lists (`alloc_rep`, `dealloc_rep`). -/

namespace Cyntatic
open Library

/-- A descriptor in use: its number, and the address and size of the block it describes. -/
structure Block where
  id : Nat
  addr : U32
  size : U32
  deriving DecidableEq

namespace Block

/-- The address after a block. -/
def stop (b : Block) : U32 := b.addr + b.size

end Block

/-- The heap as lists. -/
structure HeapLists where
  free : List Block
  used : List Block
  fresh : List Nat
  top : U32
  sth : U32
  lmt : U32
  aln : U8

namespace HeapLists

/-- A block put into a list sorted by address, before the blocks at the same address. -/
def insertBlock (b : Block) (l : List Block) : List Block := l.orderedInsert (fun b c => b.addr ≤ c.addr) b

/-- The blocks that follow one another without a gap after `prev`. -/
def run (prev : Block) : List Block → List Block
  | [] => []
  | c :: l => if prev.stop = c.addr then c :: run c l else []

def afterRun (prev : Block) : List Block → List Block
  | [] => []
  | c :: l => if prev.stop = c.addr then afterRun c l else c :: l

/-- A list with each run of blocks merged into its first block `cur`; `prev` is the last block seen. -/
def merge (cur prev : Block) : List Block → List Block
  | [] => [cur]
  | c :: l =>
    if prev.stop = c.addr then merge { cur with size := c.addr - cur.addr + c.size } c l else cur :: merge c c l

/-- The descriptors that merging gives back. -/
def released (prev : Block) : List Block → List Nat
  | [] => []
  | c :: l => if prev.stop = c.addr then c.id :: released c l else released c l

def compactBlocks : List Block → List Block
  | [] => []
  | b :: l => merge b b l

def releasedBlocks : List Block → List Nat
  | [] => []
  | b :: l => released b l

/-- `VM_heap_insert_heap_block` and `VM_heap_compact` -/
def release (L : HeapLists) (b : Block) : HeapLists :=
  { L with
    free := compactBlocks (insertBlock b L.free)
    fresh := (releasedBlocks (insertBlock b L.free)).reverse ++ L.fresh }

def isTop (L : HeapLists) (n : U32) (b : Block) : Bool := b.stop ≥ L.top ∧ b.addr + n ≤ L.lmt

/-- Whether the search of `VM_heap_alloc_heap_block` stops at a free block. -/
def fits (L : HeapLists) (n : U32) (b : Block) : Bool := L.isTop n b || n ≤ b.size

/-- The free blocks that the search passes. -/
def passed (L : HeapLists) (n : U32) : List Block := L.free.takeWhile fun b => !L.fits n b

/-- The block where the search stops and the free blocks after it. -/
def found (L : HeapLists) (n : U32) : List Block := L.free.dropWhile fun b => !L.fits n b

/-- A free block `b` handed out, when it does not end at `top`. -/
def takeSplit (L : HeapLists) (b : Block) (n : U32) : Block × HeapLists :=
  match L.fresh with
  | [] => (b, { L with used := b :: L.used })
  | split :: fresh =>
    if L.sth ≤ b.size - n then
      let b' := { b with size := n }
      (b', { L with fresh := fresh, used := b' :: L.used }.release ⟨split, b.addr + n, b.size - n⟩)
    else (b, { L with used := b :: L.used })

/-- `VM_heap_alloc_heap_block` for an aligned size -/
def allocBlock (L : HeapLists) (n : U32) : Option Block × HeapLists :=
  match L.found n with
  | b :: rest =>
    let L := { L with free := L.passed n ++ rest }
    if L.isTop n b then
      let b' := { b with size := n }
      (some b', { L with used := b' :: L.used, top := b.addr + n })
    else (some (L.takeSplit b n).1, (L.takeSplit b n).2)
  | [] =>
    match L.fresh with
    | k :: fresh =>
      if L.top + n ≤ L.lmt then
        let b := ⟨k, L.top, n⟩
        (some b, { L with fresh := fresh, used := b :: L.used, top := L.top + n })
      else (none, L)
    | [] => (none, L)

/-- `VM_alloc` -/
def alloc (L : HeapLists) (size : U32) : U32 × HeapLists :=
  match L.allocBlock (cynAlign size L.aln) with
  | (some b, L') => (b.addr, L')
  | (none, L') => (0, L')

theorem alloc_snd (L : HeapLists) (size : U32) : (L.alloc size).2 = (L.allocBlock (cynAlign size L.aln)).2 := by
  unfold alloc
  split <;> rename_i h <;> rw [h]

/-- The used blocks that the search of `VM_free` passes. -/
def usedBefore (L : HeapLists) (mem : U32) : List Block := L.used.takeWhile fun b => !decide (mem = b.addr)

/-- The used block at an address and the used blocks after it. -/
def usedAt (L : HeapLists) (mem : U32) : List Block := L.used.dropWhile fun b => !decide (mem = b.addr)

/-- `VM_free` -/
def dealloc (L : HeapLists) (mem : U32) : Bool × HeapLists :=
  if mem = 0 then (false, L)
  else match L.usedAt mem with
    | b :: rest => (true, { L with used := L.usedBefore mem ++ rest }.release b)
    | [] => (false, L)

/-! ### Insertion -/

/-- The blocks that insertion passes. -/
def below (b : Block) (l : List Block) : List Block := l.takeWhile fun c => !decide (b.addr ≤ c.addr)

def above (b : Block) (l : List Block) : List Block := l.dropWhile fun c => !decide (b.addr ≤ c.addr)

theorem below_append_above (b : Block) (l : List Block) : below b l ++ above b l = l :=
  List.takeWhile_append_dropWhile

theorem insertBlock_eq (b : Block) (l : List Block) : insertBlock b l = below b l ++ b :: above b l := by
  rw [insertBlock, List.orderedInsert_eq_take_drop]
  simp only [below, above, decide_not]

/-! ### What a call can do -/

theorem takeSplit_fst (L : HeapLists) (b : Block) (n : U32) :
    (L.takeSplit b n).1.id = b.id ∧ (L.takeSplit b n).1.addr = b.addr := by
  unfold takeSplit
  split
  · exact ⟨rfl, rfl⟩
  · split <;> exact ⟨rfl, rfl⟩

/-- What `VM_heap_alloc_heap_block` can do for an aligned size. -/
inductive AllocStep (L : HeapLists) (n : U32) : Option Block × HeapLists → Prop
  /-- The block that ends at `top` grows or shrinks. -/
  | top (b : Block) (l m : List Block) (hfree : L.free = l ++ b :: m) (hfind : L.free.find? (L.fits n) = some b)
      (htop : L.isTop n b) :
      AllocStep L n (some { b with size := n },
        { L with free := l ++ m, used := { b with size := n } :: L.used, top := b.addr + n })
  /-- A free block is handed out as it is. -/
  | whole (b : Block) (l m : List Block) (hfree : L.free = l ++ b :: m) (hfind : L.free.find? (L.fits n) = some b)
      (hsize : n ≤ b.size) : AllocStep L n (some b, { L with free := l ++ m, used := b :: L.used })
  /-- A free block is split and what is left of it is released. -/
  | split (b : Block) (l m : List Block) (k : Nat) (fresh : List Nat) (hfree : L.free = l ++ b :: m)
      (hfind : L.free.find? (L.fits n) = some b) (hsize : n ≤ b.size) (hfresh : L.fresh = k :: fresh)
      (hsth : L.sth ≤ b.size - n) :
      AllocStep L n (some { b with size := n },
        { L with free := l ++ m, used := { b with size := n } :: L.used, fresh := fresh }.release
          ⟨k, b.addr + n, b.size - n⟩)
  /-- The heap grows by a new block. -/
  | fresh (k : Nat) (fresh : List Nat) (hfind : L.free.find? (L.fits n) = none) (hfresh : L.fresh = k :: fresh)
      (hlmt : L.top + n ≤ L.lmt) :
      AllocStep L n (some ⟨k, L.top, n⟩, { L with fresh := fresh, used := ⟨k, L.top, n⟩ :: L.used, top := L.top + n })
  | none (hfind : L.free.find? (L.fits n) = none) (hfresh : L.fresh = [] ∨ ¬L.top + n ≤ L.lmt) : AllocStep L n (none, L)

theorem allocBlock_step (L : HeapLists) (n : U32) : AllocStep L n (L.allocBlock n) := by
  have hsplit : L.passed n ++ L.found n = L.free := List.takeWhile_append_dropWhile
  have hfind : L.free.find? (L.fits n) = (L.found n).head? := List.find?_eq_head?_dropWhile_not ..
  unfold allocBlock
  rcases hfound : L.found n with _ | ⟨b, m⟩
  · rw [hfound] at hfind
    rcases hfresh : L.fresh with _ | ⟨k, fresh⟩
    · exact .none hfind (.inl hfresh)
    · dsimp only
      split
      · exact .fresh k fresh hfind hfresh ‹_›
      · exact .none hfind (.inr ‹_›)
  · rw [hfound] at hsplit hfind
    have htop : ({ L with free := L.passed n ++ m } : HeapLists).isTop n b = L.isTop n b := rfl
    dsimp only
    rw [htop]
    split
    · exact .top b _ m hsplit.symm hfind ‹_›
    · have hsize : n ≤ b.size := by
        have hfits := List.find?_some hfind
        simpa [fits, ‹¬L.isTop n b = true›] using hfits
      unfold takeSplit
      split
      · exact .whole b _ m hsplit.symm hfind hsize
      · rename_i k fresh hfresh
        split
        · exact .split b _ m k fresh hsplit.symm hfind hsize hfresh ‹_›
        · exact .whole b _ m hsplit.symm hfind hsize

/-- The block handed out is live. -/
theorem AllocStep.mem {L L' : HeapLists} {n : U32} {b : Block} (h : AllocStep L n (some b, L')) : b ∈ L'.used := by
  cases h <;> exact List.mem_cons_self ..

/-- The block handed out has room for what is asked. -/
theorem AllocStep.size_le {L L' : HeapLists} {n : U32} {b : Block} (h : AllocStep L n (some b, L')) : n ≤ b.size := by
  cases h with
  | whole _ _ _ _ _ hsize => exact hsize
  | _ => exact BitVec.le_refl _

/-! ### Runs -/

theorem run_append_afterRun (prev : Block) (l : List Block) : run prev l ++ afterRun prev l = l := by
  induction l generalizing prev with
  | nil => rfl
  | cons c l ih =>
    unfold run afterRun
    split
    · rw [List.cons_append, ih]
    · rfl

/-- The size of a block after the run behind it is merged into it. -/
def runSize (cur : Block) (run : List Block) : U32 :=
  match run.getLast? with
  | none => cur.size
  | some e => e.addr - cur.addr + e.size

theorem merge_eq (cur prev : Block) (l : List Block) :
    merge cur prev l = { cur with size := runSize cur (run prev l) } :: compactBlocks (afterRun prev l) := by
  induction l generalizing cur prev with
  | nil => rfl
  | cons c l ih =>
    unfold merge run afterRun
    split
    · rw [ih]
      congr 2
      unfold runSize
      rw [List.getLast?_cons]
      cases (run c l).getLast? <;> rfl
    · rfl

theorem released_eq (prev : Block) (l : List Block) :
    released prev l = (run prev l).map Block.id ++ releasedBlocks (afterRun prev l) := by
  induction l generalizing prev with
  | nil => rfl
  | cons c l ih =>
    unfold released run afterRun
    split
    · rw [ih, List.map_cons, List.cons_append]
    · rfl

end HeapLists

/-! ### The linked lists stand for lists -/

/-- The descriptors of the heap `h` are on the lists of `L`, or `hand` holds them between two lists. -/
structure Heap.Rep (h : Heap) (L : HeapLists) (hand : List Block) : Prop where
  free : Chain h.next h.free (L.free.map Block.id) none
  used : Chain h.next h.used (L.used.map Block.id) none
  fresh : Chain h.next h.fresh L.fresh none
  addr : ∀ b ∈ L.free ++ L.used ++ hand, h.addr b.id = b.addr
  size : ∀ b ∈ L.free ++ L.used ++ hand, h.size b.id = b.size
  ids : (L.free.map Block.id ++ L.used.map Block.id ++ hand.map Block.id ++ L.fresh).Perm (List.range h.count)
  top : h.top = L.top
  sth : h.sth = L.sth
  lmt : h.lmt = L.lmt
  aln : h.aln = L.aln

namespace Heap.Rep
open HeapLists

variable {h : Heap} {L : HeapLists} {hand : List Block}

theorem nodup (R : Rep h L hand) :
    (L.free.map Block.id ++ L.used.map Block.id ++ hand.map Block.id ++ L.fresh).Nodup :=
  R.ids.nodup_iff.mpr List.nodup_range

theorem length_eq (R : Rep h L hand) : L.free.length + L.used.length + hand.length + L.fresh.length = h.count := by
  have hl := R.ids.length_eq
  simp only [List.length_append, List.length_map, List.length_range] at hl
  exact hl

/-- No descriptor is on two lists, or twice on one. -/
theorem apart (R : Rep h L hand) :
    (L.free.map Block.id).Nodup ∧ (L.used.map Block.id).Nodup ∧ L.fresh.Nodup ∧
    (∀ k ∈ L.free.map Block.id, k ∉ L.used.map Block.id ∧ k ∉ hand.map Block.id ∧ k ∉ L.fresh) ∧
    (∀ k ∈ L.used.map Block.id, k ∉ hand.map Block.id ∧ k ∉ L.fresh) ∧ ∀ k ∈ hand.map Block.id, k ∉ L.fresh := by
  have hn := R.nodup
  simp only [List.nodup_append, List.mem_append] at hn
  obtain ⟨⟨⟨nf, nu, fu⟩, -, fh⟩, nr, fr⟩ := hn
  refine ⟨nf, nu, nr, fun k hk => ⟨fun h => fu k hk k h rfl, fun h => fh k (.inl hk) k h rfl, fun h => ?_⟩,
    fun k hk => ⟨fun h => fh k (.inr hk) k h rfl, fun h => ?_⟩, fun k hk h => ?_⟩
  · exact fr k (.inl (.inl hk)) k h rfl
  · exact fr k (.inl (.inr hk)) k h rfl
  · exact fr k (.inr hk) k h rfl

theorem length_free_le (R : Rep h L hand) : L.free.length ≤ h.count := by
  have hl := R.length_eq
  omega

theorem usedBlocks_eq (R : Rep h L hand) : h.usedBlocks = L.used.map Block.id := by
  have hl := R.length_eq
  exact R.used.walk_eq (by simp only [List.length_map]; omega)

theorem freeBlocks_eq (R : Rep h L hand) : h.freeBlocks = L.free.map Block.id :=
  R.free.walk_eq (by simpa using R.length_free_le)

theorem insertHeapBlock {b : Block} (R : Rep h L [b]) :
    ∃ h', h.insertHeapBlock b.id = some h' ∧ Rep h' { L with free := insertBlock b L.free } [] := by
  obtain ⟨nf, -, -, free_apart, used_apart, hand_apart⟩ := R.apart
  have hb : b.id ∉ L.free.map Block.id := fun hk => (free_apart _ hk).2.1 (List.mem_singleton_self _)
  have hscan : scan h.next (fun p => h.addr b.id ≤ h.addr p) h.count none h.free =
      some (((below b L.free).map Block.id).getLast?.or none, ((above b L.free).map Block.id).head?) := by
    refine scan_map R.free R.length_free_le fun c hc => ?_
    rw [R.addr b (by simp), R.addr c (by simp [hc])]
  have hids : L.free.map Block.id = (below b L.free).map Block.id ++ (above b L.free).map Block.id := by
    rw [← List.map_append, below_append_above]
  have hins : (insertBlock b L.free).map Block.id =
      (below b L.free).map Block.id ++ b.id :: (above b L.free).map Block.id := by
    rw [insertBlock_eq, List.map_append, List.map_cons]
  have hperm : (insertBlock b L.free).Perm (b :: L.free) := List.perm_orderedInsert _ _ _
  -- Only `b` and the last block below it get a new successor.
  have hframe : ∀ k, k ∉ L.free.map Block.id → k ≠ b.id →
      Function.update (relink h.next h.free ((below b L.free).map Block.id).getLast? (some b.id)).1 b.id
        ((above b L.free).map Block.id).head? k = h.next k := by
    intro k hk hkb
    rw [Function.update_of_ne hkb, relink_of_notMem]
    exact fun hl => hk (hids ▸ List.mem_append_left _ hl)
  refine ⟨_, by rw [Heap.insertHeapBlock, hscan, Option.or_none]; rfl, ?_⟩
  exact
    { free := by
        rw [hins]
        exact Chain.insert (hids ▸ R.free) (hids ▸ nf) (hids ▸ hb)
      used := R.used.congr fun k hk => hframe k (fun hf => (free_apart k hf).1 hk) fun e =>
        (used_apart k hk).1 (e ▸ List.mem_singleton_self _)
      fresh := R.fresh.congr fun k hk => hframe k (fun hf => (free_apart k hf).2.2 hk) fun e =>
        hand_apart b.id (List.mem_singleton_self _) (e ▸ hk)
      addr := fun c hc => R.addr c (by simpa [hperm.mem_iff, or_comm, or_assoc, or_left_comm] using hc)
      size := fun c hc => R.size c (by simpa [hperm.mem_iff, or_comm, or_assoc, or_left_comm] using hc)
      ids := by
        refine List.Perm.trans (List.perm_iff_count.mpr fun k => ?_) R.ids
        simp only [List.count_append, (hperm.map Block.id).count_eq, List.map_cons, List.map_nil, List.count_cons,
          List.count_nil]
        omega
      top := R.top
      sth := R.sth
      lmt := R.lmt
      aln := R.aln }

end Heap.Rep

/-! ### Compaction -/

/-- `h'` differs from `h` in the descriptors `ks` and in the list of fresh ones only. -/
structure Heap.SameBut (ks : List Nat) (h h' : Heap) : Prop where
  next : ∀ k ∉ ks, h'.next k = h.next k
  addr : ∀ k ∉ ks, h'.addr k = h.addr k
  size : ∀ k ∉ ks, h'.size k = h.size k
  free : h'.free = h.free
  used : h'.used = h.used
  top : h'.top = h.top
  sth : h'.sth = h.sth
  lmt : h'.lmt = h.lmt
  aln : h'.aln = h.aln
  count : h'.count = h.count

namespace Heap.Rep
open HeapLists

/-- The released descriptors end up on the fresh list, the last one first. -/
theorem releaseHeapBlocks {h : Heap} {a b : Option Nat} {ks fresh : List Nat} {fuel : Nat} (hc : Chain h.next a ks b)
    (hn : ks.Nodup) (hb : ∀ k ∈ ks, some k ≠ b) (hf : Chain h.next h.fresh fresh none)
    (hd : ∀ k ∈ ks, k ∉ fresh) (hl : ks.length ≤ fuel) :
    ∃ h', h.releaseHeapBlocks fuel a b = some h' ∧ Chain h'.next h'.fresh (ks.reverse ++ fresh) none ∧
      SameBut ks h h' := by
  induction ks generalizing h a fresh fuel with
  | nil =>
    cases hc
    refine ⟨h, by unfold Heap.releaseHeapBlocks; exact if_pos rfl, hf, ?_⟩
    constructor <;> intros <;> rfl
  | cons k ks ih =>
    obtain ⟨rfl, hc⟩ := hc
    obtain ⟨fuel, rfl⟩ : ∃ n, fuel = n + 1 := ⟨fuel - 1, by simp only [List.length_cons] at hl; omega⟩
    rw [List.nodup_cons] at hn
    rw [List.forall_mem_cons] at hb hd
    let h₁ := (({ h.setNext k h.fresh with fresh := some k } : Heap).setAddr k 0).setSize k 0
    have hne : ∀ x, x ≠ k → h₁.next x = h.next x ∧ h₁.addr x = h.addr x ∧ h₁.size x = h.size x :=
      fun x hx => ⟨Function.update_of_ne hx _ _, Function.update_of_ne hx _ _, Function.update_of_ne hx _ _⟩
    have hc₁ : Chain h₁.next (h.next k) ks b := hc.congr fun x hx => (hne x fun e => hn.1 (e ▸ hx)).1
    have hf₁ : Chain h₁.next h₁.fresh (k :: fresh) none := by
      refine ⟨rfl, ?_⟩
      have hk : h₁.next k = h.fresh := Function.update_self ..
      rw [hk]
      exact hf.congr fun x hx => (hne x fun e => hd.1 (e ▸ hx)).1
    obtain ⟨h', hr, hfresh, hsame⟩ := ih hc₁ hn.2 hb.2 hf₁
      (fun x hx hm => (List.mem_cons.mp hm).elim (fun e => hn.1 (e ▸ hx)) (hd.2 x hx)) (by simpa using hl)
    refine ⟨h', ?_, by rwa [List.reverse_cons, List.append_assoc], ?_⟩
    · rw [Heap.releaseHeapBlocks, if_neg hb.1]
      exact hr
    · exact
        { hsame with
          next := fun x hx => by
            rw [List.mem_cons, not_or] at hx
            rw [hsame.next x hx.2, (hne x hx.1).1]
          addr := fun x hx => by
            rw [List.mem_cons, not_or] at hx
            rw [hsame.addr x hx.2, (hne x hx.1).2.1]
          size := fun x hx => by
            rw [List.mem_cons, not_or] at hx
            rw [hsame.size x hx.2, (hne x hx.1).2.2] }

theorem lastTouching {h : Heap} {a : Option Nat} {prev : Block} {l : List Block} {fuel : Nat}
    (hc : Chain h.next a (l.map Block.id) none) (hd : ∀ b ∈ prev :: l, h.addr b.id = b.addr ∧ h.size b.id = b.size)
    (hl : l.length ≤ fuel) : h.lastTouching fuel prev.id a = some ((run prev l).getLast?.getD prev).id := by
  induction l generalizing a prev fuel with
  | nil =>
    cases hc
    cases fuel <;> rfl
  | cons c l ih =>
    obtain ⟨rfl, hc⟩ := hc
    obtain ⟨fuel, rfl⟩ : ∃ n, fuel = n + 1 := ⟨fuel - 1, by simp only [List.length_cons] at hl; omega⟩
    have hdl := (List.forall_mem_cons.mp hd).2
    obtain ⟨hpa, hps⟩ := hd prev (List.mem_cons_self ..)
    obtain ⟨hca, -⟩ := hdl c (List.mem_cons_self ..)
    rw [Heap.lastTouching, hpa, hps, hca, run, Block.stop]
    split
    · rw [ih hc hdl (by simpa using hl), List.getLast?_cons]
      rfl
    · rfl

/-- The blocks `r` behind `cur` are given back and `cur` gets a new size. -/
theorem dropRun {h : Heap} {L : HeapLists} {hand pre r rest : List Block} {cur : Block} (n : U32)
    (R : Rep h { L with free := pre ++ cur :: (r ++ rest) } hand) :
    ∃ h', (h.setSize cur.id n).releaseHeapBlocks h.count (h.next cur.id) (rest.map Block.id).head? = some h' ∧
      Rep (h'.setNext cur.id (rest.map Block.id).head?)
        { L with free := pre ++ { cur with size := n } :: rest, fresh := (r.map Block.id).reverse ++ L.fresh } hand := by
  have hlen := R.length_eq
  have hfree := R.free
  obtain ⟨nf, -, -, free_apart, used_apart, hand_apart⟩ := R.apart
  simp only [List.map_append, List.map_cons, List.length_append, List.length_cons] at hlen hfree nf free_apart
  obtain ⟨c, hpre, rfl, hcl⟩ := chain_append.mp hfree
  obtain ⟨d, hks, hrest⟩ := chain_append.mp hcl
  obtain ⟨-, ⟨hc, nk⟩, hpc⟩ : _ ∧ _ ∧ _ := by
    simpa only [List.nodup_append, List.nodup_cons] using nf
  obtain ⟨nr, -, hrr⟩ := nk
  obtain rfl := hrest.eq_head?
  simp only [List.mem_append, not_or] at hc
  have hr : ∀ k ∈ r.map Block.id, k ∉ L.used.map Block.id ∧ k ∉ hand.map Block.id ∧ k ∉ L.fresh :=
    fun k hk => free_apart k (by simp only [List.mem_append, List.mem_cons]; exact .inr (.inr (.inl hk)))
  have hcur := free_apart cur.id (by simp)
  obtain ⟨h₂, hrel, hfresh, S⟩ := releaseHeapBlocks (h := h.setSize cur.id n) hks nr
    (fun k hk e => hrr k hk k (List.mem_of_mem_head? e.symm) rfl) R.fresh (fun k hk => (hr k hk).2.2)
    (show (r.map Block.id).length ≤ h.count by simp only [List.length_map]; omega)
  have hnext : ∀ k, k ≠ cur.id → k ∉ r.map Block.id →
      (h₂.setNext cur.id (rest.map Block.id).head?).next k = h.next k :=
    fun k hk hkr => (Function.update_of_ne hk _ _).trans (S.next k hkr)
  have hpre_r : ∀ k ∈ pre.map Block.id, k ≠ cur.id ∧ k ∉ r.map Block.id := fun k hk =>
    ⟨hpc k hk _ (List.mem_cons_self ..), fun hkr => hpc k hk k (by simp [hkr]) rfl⟩
  have hrest_r : ∀ k ∈ rest.map Block.id, k ≠ cur.id ∧ k ∉ r.map Block.id := fun k hk =>
    ⟨fun e => hc.2 (e ▸ hk), fun hkr => hrr k hkr k hk rfl⟩
  have hused_r : ∀ k ∈ L.used.map Block.id, k ≠ cur.id ∧ k ∉ r.map Block.id := fun k hk =>
    ⟨fun e => hcur.1 (e ▸ hk), fun hkr => (hr k hkr).1 hk⟩
  have hhand_r : ∀ k ∈ hand.map Block.id, k ≠ cur.id ∧ k ∉ r.map Block.id := fun k hk =>
    ⟨fun e => hcur.2.1 (e ▸ hk), fun hkr => (hr k hkr).2.1 hk⟩
  have hother : ∀ b ∈ pre ++ rest ++ L.used ++ hand, b.id ≠ cur.id ∧ b.id ∉ r.map Block.id := by
    intro b hb
    simp only [List.mem_append] at hb
    rcases hb with ((hb | hb) | hb) | hb
    · exact hpre_r _ (List.mem_map_of_mem hb)
    · exact hrest_r _ (List.mem_map_of_mem hb)
    · exact hused_r _ (List.mem_map_of_mem hb)
    · exact hhand_r _ (List.mem_map_of_mem hb)
  have hmem : ∀ b ∈ pre ++ rest ++ L.used ++ hand, b ∈ pre ++ cur :: (r ++ rest) ++ L.used ++ hand := by
    intro b hb
    simp only [List.mem_append, List.mem_cons] at hb ⊢
    grind
  have hsplit : ∀ b ∈ pre ++ { cur with size := n } :: rest ++ L.used ++ hand,
      b = { cur with size := n } ∨ b ∈ pre ++ rest ++ L.used ++ hand := by
    intro b hb
    simp only [List.mem_append, List.mem_cons] at hb ⊢
    grind
  refine ⟨h₂, hrel, ?_⟩
  constructor
  case free =>
    rw [List.map_append, List.map_cons, chain_append]
    refine ⟨some cur.id, ?_, rfl, ?_⟩
    · have hhead : h₂.free = h.free := S.free
      exact (hhead ▸ hpre).congr fun k hk => hnext k (hpre_r k hk).1 (hpre_r k hk).2
    · rw [show (h₂.setNext cur.id (rest.map Block.id).head?).next cur.id = (rest.map Block.id).head? from
        Function.update_self ..]
      exact hrest.congr fun k hk => hnext k (hrest_r k hk).1 (hrest_r k hk).2
  case used =>
    have hhead : h₂.used = h.used := S.used
    exact (hhead ▸ R.used).congr fun k hk => hnext k (hused_r k hk).1 (hused_r k hk).2
  case fresh =>
    refine hfresh.congr fun k hk => Function.update_of_ne ?_ _ _
    rintro rfl
    rw [List.mem_append, List.mem_reverse] at hk
    exact hk.elim hc.1 hcur.2.2
  case addr =>
    intro b hb
    rcases hsplit b hb with rfl | hb
    · exact (S.addr cur.id hc.1).trans (R.addr cur (by simp))
    · exact (S.addr b.id (hother b hb).2).trans (R.addr b (hmem b hb))
  case size =>
    intro b hb
    rcases hsplit b hb with rfl | hb
    · exact (S.size cur.id hc.1).trans (Function.update_self ..)
    · rw [← R.size b (hmem b hb)]
      exact (S.size b.id (hother b hb).2).trans (Function.update_of_ne (hother b hb).1 _ _)
  case ids =>
    have hcount : h₂.count = h.count := S.count
    refine List.Perm.trans (List.perm_iff_count.mpr fun k => ?_) (hcount ▸ R.ids)
    simp only [List.map_append, List.map_cons, List.count_append, List.count_cons, List.count_reverse]
    omega
  case top => exact S.top.trans R.top
  case sth => exact S.sth.trans R.sth
  case lmt => exact S.lmt.trans R.lmt
  case aln => exact S.aln.trans R.aln

theorem mergeRun {h : Heap} {L : HeapLists} {hand pre l : List Block} {cur : Block}
    (R : Rep h { L with free := pre ++ cur :: l } hand) :
    ∃ h', h.mergeRun cur.id = some h' ∧
      Rep h' { L with
        free := pre ++ { cur with size := runSize cur (run cur l) } :: afterRun cur l
        fresh := ((run cur l).map Block.id).reverse ++ L.fresh } hand := by
  have hlen := R.length_eq
  have hdata : ∀ b ∈ cur :: l, h.addr b.id = b.addr ∧ h.size b.id = b.size := fun b hb =>
    ⟨R.addr b (by simp only [List.mem_append]; exact .inl (.inl (.inr hb))),
      R.size b (by simp only [List.mem_append]; exact .inl (.inl (.inr hb)))⟩
  obtain ⟨_, -, -, hcl⟩ : ∃ c, Chain h.next h.free (pre.map Block.id) c ∧ c = some cur.id ∧
      Chain h.next (h.next cur.id) (l.map Block.id) none := by
    have hf := R.free
    rwa [List.map_append, chain_append] at hf
  have hlast : h.lastTouching h.count cur.id (h.next cur.id) = some ((run cur l).getLast?.getD cur).id :=
    lastTouching hcl hdata (by simp only [List.length_append, List.length_cons] at hlen; omega)
  have hl := run_append_afterRun cur l
  rw [Heap.mergeRun, hlast]
  rcases List.eq_nil_or_concat' (run cur l) with hr | ⟨r, e, hr⟩
  · -- No block touches `cur`.
    rw [hr, List.nil_append] at hl
    refine ⟨h, by rw [hr]; exact if_pos rfl, ?_⟩
    rw [hr, hl]
    exact R
  · -- The run ends with `e`, and what follows `e` becomes what follows `cur`.
    have he : e ∈ l := by
      rw [← hl, hr]
      simp
    have hne : e.id ≠ cur.id := by
      have nf := R.apart.1
      simp only [List.map_append, List.map_cons, List.nodup_append, List.nodup_cons] at nf
      exact fun hid => nf.2.1.1 (hid ▸ List.mem_map_of_mem he)
    have hnext : h.next e.id = ((afterRun cur l).map Block.id).head? := by
      rw [← hl, hr, List.map_append, List.map_append] at hcl
      obtain ⟨c, hc, hrest⟩ := chain_append.mp hcl
      obtain ⟨_, -, -, hec⟩ := chain_append.mp hc
      exact (hec : h.next e.id = c).trans hrest.eq_head?
    obtain ⟨h', hrel, R'⟩ := dropRun (e.addr - cur.addr + e.size) (hl.symm ▸ R)
    have hsize : runSize cur (run cur l) = e.addr - cur.addr + e.size := by
      rw [hr, runSize, List.getLast?_concat]
    refine ⟨h'.setNext cur.id ((afterRun cur l).map Block.id).head?, ?_, hsize ▸ R'⟩
    have hmem := hdata e (List.mem_cons_of_mem _ he)
    simp only [hr, List.getLast?_concat, Option.getD_some, Option.bind_eq_bind, Option.bind_some, if_neg hne, hmem.1,
      hmem.2, (hdata cur (List.mem_cons_self ..)).1]
    rw [show (h.setSize cur.id (e.addr - cur.addr + e.size)).next e.id = ((afterRun cur l).map Block.id).head? from hnext]
    exact congrArg (Option.bind · _) hrel

theorem compactFrom {L : HeapLists} {hand : List Block} {l : List Block} :
    ∀ {h : Heap} {pre : List Block} {cur : Block} {fresh : List Nat} {fuel : Nat}, l.length < fuel →
      Rep h { L with free := pre ++ cur :: l, fresh := fresh } hand →
      ∃ h', h.compactFrom fuel (some cur.id) = some h' ∧
        Rep h' { L with free := pre ++ merge cur cur l, fresh := (released cur l).reverse ++ fresh } hand := by
  induction hn : l.length using Nat.strong_induction_on generalizing l with
  | _ n ih =>
    intro h pre cur fresh fuel hf R
    obtain ⟨fuel, rfl⟩ : ∃ m, fuel = m + 1 := ⟨fuel - 1, by omega⟩
    obtain ⟨h₁, hmerge, R₁⟩ := mergeRun (L := { L with fresh := fresh }) R
    have hle := congrArg List.length (run_append_afterRun cur l)
    rw [List.length_append] at hle
    have hnext : h₁.next cur.id = ((afterRun cur l).map Block.id).head? := by
      have hfree := R₁.free
      rw [List.map_append, chain_append] at hfree
      obtain ⟨_, -, hcur⟩ := hfree
      exact hcur.next_of_cons
    rw [Heap.compactFrom, hmerge, Option.bind_eq_bind, Option.bind_some, hnext, merge_eq, released_eq]
    rcases hrest : afterRun cur l with _ | ⟨c, rest⟩
    · rw [hrest] at R₁
      refine ⟨h₁, by cases fuel <;> rfl, ?_⟩
      simpa [compactBlocks, releasedBlocks] using R₁
    · rw [hrest] at R₁ hle
      rw [List.length_cons] at hle
      rw [← List.singleton_append, ← List.append_assoc] at R₁
      obtain ⟨h', hc, R'⟩ := ih rest.length (by omega) rfl (show rest.length < fuel by omega) R₁
      refine ⟨h', hc, ?_⟩
      simpa [compactBlocks, releasedBlocks, List.append_assoc] using R'

theorem compact {h : Heap} {L : HeapLists} {hand : List Block} (R : Rep h L hand) :
    ∃ h', h.compact = some h' ∧
      Rep h' { L with free := compactBlocks L.free, fresh := (releasedBlocks L.free).reverse ++ L.fresh } hand := by
  have hhead := R.free.eq_head?
  have hlen := R.length_free_le
  unfold Heap.compact
  rw [hhead]
  rcases hfree : L.free with _ | ⟨b, l⟩
  · refine ⟨h, by cases h.count <;> rfl, ?_⟩
    obtain ⟨free, used, fresh, top, sth, lmt, aln⟩ := L
    obtain rfl : free = [] := hfree
    exact R
  · rw [hfree, List.length_cons] at hlen
    have R₀ : Rep h { L with free := [] ++ b :: l, fresh := L.fresh } hand := by
      rw [List.nil_append, ← hfree]
      exact R
    exact compactFrom (by omega) R₀

/-- Releasing a block that is on no list. -/
theorem release {h : Heap} {L : HeapLists} {b : Block} (R : Rep h L [b]) :
    ∃ h₁ h', h.insertHeapBlock b.id = some h₁ ∧ h₁.compact = some h' ∧ Rep h' (L.release b) [] := by
  obtain ⟨h₁, hi, R₁⟩ := R.insertHeapBlock
  obtain ⟨h', hc, R'⟩ := R₁.compact
  exact ⟨h₁, h', hi, hc, R'⟩

end Heap.Rep

/-! ### Allocation -/

namespace Heap.Rep
open HeapLists

variable {h : Heap} {L : HeapLists}

theorem removeFree {b : Block} {l m : List Block} (R : Rep h { L with free := l ++ b :: m } []) :
    Rep (h.relinkFree (l.map Block.id).getLast? (h.next b.id)) { L with free := l ++ m } [b] := by
  obtain ⟨nf, -, -, free_apart, -, -⟩ := R.apart
  have hfree := R.free
  simp only [List.map_append, List.map_cons] at nf free_apart hfree
  have hframe : ∀ k, k ∉ l.map Block.id ++ b.id :: m.map Block.id →
      (h.relinkFree (l.map Block.id).getLast? (h.next b.id)).next k = h.next k :=
    fun k hk => relink_of_notMem (fun hl => hk (List.mem_append_left _ hl)) _
  constructor
  case free =>
    rw [List.map_append]
    exact hfree.remove nf
  case used => exact R.used.congr fun k hk => hframe k fun hf => (free_apart k hf).1 hk
  case fresh => exact R.fresh.congr fun k hk => hframe k fun hf => (free_apart k hf).2.2 hk
  case addr => exact fun c hc => R.addr c (by simp only [List.mem_append, List.mem_cons] at hc ⊢; grind)
  case size => exact fun c hc => R.size c (by simp only [List.mem_append, List.mem_cons] at hc ⊢; grind)
  case ids =>
    refine List.Perm.trans (List.perm_iff_count.mpr fun k => ?_) R.ids
    simp only [List.map_append, List.map_cons, List.map_nil, List.count_append, List.count_cons, List.count_nil]
    omega
  all_goals first | exact R.top | exact R.sth | exact R.lmt | exact R.aln

theorem removeUsed {b : Block} {l m : List Block} (R : Rep h { L with used := l ++ b :: m } []) :
    Rep (h.relinkUsed (l.map Block.id).getLast? (h.next b.id)) { L with used := l ++ m } [b] := by
  obtain ⟨-, nu, -, free_apart, used_apart, -⟩ := R.apart
  have hused := R.used
  simp only [List.map_append, List.map_cons] at nu used_apart free_apart hused
  have hframe : ∀ k, k ∉ l.map Block.id ++ b.id :: m.map Block.id →
      (h.relinkUsed (l.map Block.id).getLast? (h.next b.id)).next k = h.next k :=
    fun k hk => relink_of_notMem (fun hl => hk (List.mem_append_left _ hl)) _
  constructor
  case free => exact R.free.congr fun k hk => hframe k (free_apart k hk).1
  case used =>
    rw [List.map_append]
    exact hused.remove nu
  case fresh => exact R.fresh.congr fun k hk => hframe k fun hf => (used_apart k hf).2 hk
  case addr => exact fun c hc => R.addr c (by simp only [List.mem_append, List.mem_cons] at hc ⊢; grind)
  case size => exact fun c hc => R.size c (by simp only [List.mem_append, List.mem_cons] at hc ⊢; grind)
  case ids =>
    refine List.Perm.trans (List.perm_iff_count.mpr fun k => ?_) R.ids
    simp only [List.map_append, List.map_cons, List.map_nil, List.count_append, List.count_cons, List.count_nil]
    omega
  all_goals first | exact R.top | exact R.sth | exact R.lmt | exact R.aln

theorem pushUsed {b : Block} (R : Rep h L [b]) :
    Rep { h.setNext b.id h.used with used := some b.id } { L with used := b :: L.used } [] := by
  obtain ⟨-, -, -, free_apart, used_apart, hand_apart⟩ := R.apart
  have hframe : ∀ k, k ≠ b.id → (h.setNext b.id h.used).next k = h.next k := fun k hk => Function.update_of_ne hk _ _
  have hb : b.id ∈ [b].map Block.id := List.mem_singleton_self _
  constructor
  case free => exact R.free.congr fun k hk => hframe k fun e => (free_apart k hk).2.1 (e ▸ hb)
  case used =>
    refine ⟨rfl, ?_⟩
    rw [show (h.setNext b.id h.used).next b.id = h.used from Function.update_self ..]
    exact R.used.congr fun k hk => hframe k fun e => (used_apart k hk).1 (e ▸ hb)
  case fresh => exact R.fresh.congr fun k hk => hframe k fun e => hand_apart b.id hb (e ▸ hk)
  case addr => exact fun c hc => R.addr c (by simp only [List.mem_append, List.mem_cons] at hc ⊢; grind)
  case size => exact fun c hc => R.size c (by simp only [List.mem_append, List.mem_cons] at hc ⊢; grind)
  case ids =>
    refine List.Perm.trans (List.perm_iff_count.mpr fun k => ?_) R.ids
    simp only [List.map_cons, List.map_nil, List.count_append, List.count_cons, List.count_nil]
    omega
  all_goals first | exact R.top | exact R.sth | exact R.lmt | exact R.aln

theorem takeFresh {k : Nat} {fresh : List Nat} (R : Rep h { L with fresh := k :: fresh } []) (a n : U32) :
    Rep (({ h with fresh := h.next k } : Heap).setAddr k a |>.setSize k n) { L with fresh := fresh } [⟨k, a, n⟩] := by
  obtain ⟨-, -, -, free_apart, used_apart, -⟩ := R.apart
  have hne : ∀ c ∈ L.free ++ L.used, c.id ≠ k := by
    intro c hc e
    rcases List.mem_append.mp hc with hc | hc
    · exact (free_apart c.id (List.mem_map_of_mem hc)).2.2 (e ▸ List.mem_cons_self ..)
    · exact (used_apart c.id (List.mem_map_of_mem hc)).2 (e ▸ List.mem_cons_self ..)
  constructor
  case free => exact R.free
  case used => exact R.used
  case fresh => exact R.fresh.2
  case addr =>
    intro c hc
    rcases List.mem_append.mp hc with hc | hc
    · rw [← R.addr c (List.mem_append_left _ hc)]
      exact Function.update_of_ne (hne c hc) _ _
    · obtain rfl := List.mem_singleton.mp hc
      exact Function.update_self ..
  case size =>
    intro c hc
    rcases List.mem_append.mp hc with hc | hc
    · rw [← R.size c (List.mem_append_left _ hc)]
      exact Function.update_of_ne (hne c hc) _ _
    · obtain rfl := List.mem_singleton.mp hc
      exact Function.update_self ..
  case ids =>
    refine List.Perm.trans (List.perm_iff_count.mpr fun k => ?_) R.ids
    simp only [List.map_cons, List.map_nil, List.count_append, List.count_cons, List.count_nil]
    omega
  all_goals first | exact R.top | exact R.sth | exact R.lmt | exact R.aln

theorem resizeUsed {b : Block} {used : List Block} (R : Rep h { L with used := b :: used } []) (n : U32) :
    Rep (h.setSize b.id n) { L with used := { b with size := n } :: used } [] := by
  obtain ⟨-, nu, -, free_apart, -, -⟩ := R.apart
  rw [List.map_cons, List.nodup_cons] at nu
  have hne : ∀ c ∈ L.free ++ used, c.id ≠ b.id := by
    intro c hc e
    rcases List.mem_append.mp hc with hc | hc
    · exact (free_apart c.id (List.mem_map_of_mem hc)).1 (e ▸ List.mem_cons_self ..)
    · exact nu.1 (e ▸ List.mem_map_of_mem hc)
  have hsplit : ∀ c ∈ L.free ++ { b with size := n } :: used ++ [],
      c = { b with size := n } ∨ c ∈ L.free ++ used := by
    intro c hc
    simp only [List.mem_append, List.mem_cons] at hc ⊢
    grind
  have hmem : ∀ c ∈ L.free ++ used, c ∈ L.free ++ b :: used ++ [] := by
    intro c hc
    simp only [List.mem_append, List.mem_cons] at hc ⊢
    grind
  constructor
  case free => exact R.free
  case used => exact R.used
  case fresh => exact R.fresh
  case addr =>
    intro c hc
    rcases hsplit c hc with rfl | hc
    · exact R.addr b (by simp)
    · exact R.addr c (hmem c hc)
  case size =>
    intro c hc
    rcases hsplit c hc with rfl | hc
    · exact Function.update_self ..
    · rw [← R.size c (hmem c hc)]
      exact Function.update_of_ne (hne c hc) _ _
  case ids => exact R.ids
  all_goals first | exact R.top | exact R.sth | exact R.lmt | exact R.aln

theorem setTop {hand : List Block} (R : Rep h L hand) (t : U32) : Rep { h with top := t } { L with top := t } hand :=
  { R with top := rfl }

theorem isTop {hand : List Block} {b : Block} (R : Rep h L hand) (hb : b ∈ L.free) (n : U32) :
    h.isTop n b.id = L.isTop n b := by
  rw [Heap.isTop, HeapLists.isTop, R.addr b (by simp [hb]), R.size b (by simp [hb]), R.top, R.lmt]
  rfl

theorem splitBlock {b : Block} (R : Rep h { L with used := b :: L.used } []) (n : U32) :
    ∃ h', h.splitBlock b.id n = some h' ∧ Rep h' (L.takeSplit b n).2 [] := by
  obtain ⟨free, used, fresh, top, sth, lmt, aln⟩ := L
  have hhead : h.fresh = fresh.head? := R.fresh.eq_head?
  have haddr : h.addr b.id = b.addr := R.addr b (by simp)
  have hsize : h.size b.id = b.size := R.size b (by simp)
  have hsth : h.sth = sth := R.sth
  rw [Heap.splitBlock, HeapLists.takeSplit]
  rcases fresh with _ | ⟨k, fresh⟩
  · exact ⟨h, by rw [hhead]; rfl, R⟩
  · simp only [hhead, List.head?_cons, hsize, hsth]
    split
    · let L : HeapLists := ⟨free, { b with size := n } :: used, fresh, top, sth, lmt, aln⟩
      have R₁ : Rep (h.setSize b.id n) { L with fresh := k :: fresh } [] :=
        resizeUsed (L := ⟨free, used, k :: fresh, top, sth, lmt, aln⟩) R n
      obtain ⟨h₁, h', hi, hc, R'⟩ := (R₁.takeFresh (b.addr + n) (b.size - n)).release
      refine ⟨h', ?_, R'⟩
      rw [show (h.setSize b.id n).addr b.id = b.addr from haddr]
      simp only [Option.bind_eq_bind]
      rw [hi, Option.bind_some, hc]
    · exact ⟨h, rfl, R⟩

theorem allocHeapBlock (R : Rep h L []) (size : U32) :
    ∃ h', h.allocHeapBlock size = some ((L.allocBlock (cynAlign size L.aln)).1.map Block.id, h') ∧
      Rep h' (L.allocBlock (cynAlign size L.aln)).2 [] := by
  obtain ⟨free, used, fresh, _, _, _, _⟩ := L
  obtain rfl := R.top
  obtain rfl := R.sth
  obtain rfl := R.lmt
  obtain rfl := R.aln
  have hfresh : h.fresh = fresh.head? := R.fresh.eq_head?
  generalize hn : cynAlign size h.aln = n
  generalize hL : (⟨free, used, fresh, h.top, h.sth, h.lmt, h.aln⟩ : HeapLists) = L at R
  have hscan : scan h.next (fun p => h.isTop n p || n ≤ h.size p) h.count none h.free =
      some (((L.passed n).map Block.id).getLast?.or none, ((L.found n).map Block.id).head?) := by
    refine scan_map R.free R.length_free_le fun b hb => ?_
    rw [R.isTop hb, R.size b (by simp [hb])]
    rfl
  have hsplit : L.passed n ++ L.found n = L.free := List.takeWhile_append_dropWhile
  rw [Heap.allocHeapBlock, hn]
  simp only [hscan, Option.or_none, Option.bind_eq_bind, Option.bind_some]
  rw [HeapLists.allocBlock]
  rcases hfound : L.found n with _ | ⟨b, rest⟩
  · subst hL
    rcases fresh with _ | ⟨k, fresh⟩
    · exact ⟨h, by simp only [List.map_nil, List.head?_nil, hfresh]; rfl, R⟩
    · simp only [List.map_nil, List.head?_nil, hfresh, List.head?_cons]
      split
      · have R₁ := R.takeFresh (L := ⟨free, used, fresh, h.top, h.sth, h.lmt, h.aln⟩) h.top n
        refine ⟨_, rfl, ?_⟩
        exact R₁.pushUsed.setTop (h.top + n)
      · exact ⟨h, rfl, R⟩
  · rw [hfound] at hsplit
    have hb : b ∈ L.free := hsplit ▸ List.mem_append_right _ (List.mem_cons_self ..)
    have R₀ : Rep h { L with free := L.passed n ++ b :: rest } [] := by
      rw [hsplit]
      exact R
    have R₁ := R₀.removeFree.pushUsed
    have htop : ({ L with free := L.passed n ++ rest } : HeapLists).isTop n b = L.isTop n b := rfl
    simp only [List.map_cons, List.head?_cons, R.isTop hb n, htop]
    by_cases ht : L.isTop n b
    · simp only [ht, if_true]
      have haddr : h.addr b.id = b.addr := R.addr b (by simp [hb])
      refine ⟨_, rfl, ?_⟩
      exact { resizeUsed (L := { L with free := L.passed n ++ rest }) R₁ n with top := congrArg (· + n) haddr }
    · simp only [ht, Bool.false_eq_true, if_false]
      obtain ⟨h', hs, R'⟩ := splitBlock (L := { L with free := L.passed n ++ rest }) R₁ n
      refine ⟨h', ?_, R'⟩
      rw [Option.map_some, (takeSplit_fst _ b n).1]
      exact congrArg (Option.bind · _) hs

/-- `VM_alloc` ends and does on the linked lists what it does on the lists. -/
theorem alloc (R : Rep h L []) (size : U32) :
    ∃ h', h.alloc size = some ((L.alloc size).1, h') ∧ Rep h' (L.alloc size).2 [] := by
  obtain ⟨h', ha, R'⟩ := R.allocHeapBlock size
  rw [Heap.alloc, ha, HeapLists.alloc]
  rcases hb : L.allocBlock (cynAlign size L.aln) with ⟨_ | b, L'⟩
  · rw [hb] at R'
    exact ⟨h', rfl, R'⟩
  · have hmem : b ∈ L'.used := by
      have hstep := L.allocBlock_step (cynAlign size L.aln)
      rw [hb] at hstep
      exact hstep.mem
    rw [hb] at R'
    refine ⟨h', ?_, R'⟩
    exact congrArg (fun a => some (a, h')) (R'.addr b (by simp [hmem]))

/-- `VM_free` ends and does on the linked lists what it does on the lists. -/
theorem dealloc (R : Rep h L []) (mem : U32) :
    ∃ h', h.dealloc mem = some ((L.dealloc mem).1, h') ∧ Rep h' (L.dealloc mem).2 [] := by
  rw [Heap.dealloc, HeapLists.dealloc]
  split
  · exact ⟨h, rfl, R⟩
  have hlen := R.length_eq
  have hscan : scan h.next (fun b => mem = h.addr b) h.count none h.used =
      some (((L.usedBefore mem).map Block.id).getLast?.or none, ((L.usedAt mem).map Block.id).head?) := by
    refine scan_map R.used (by omega) fun b hb => ?_
    rw [R.addr b (by simp [hb])]
  have hsplit : L.usedBefore mem ++ L.usedAt mem = L.used := List.takeWhile_append_dropWhile
  simp only [hscan, Option.or_none, Option.bind_eq_bind, Option.bind_some]
  rcases hfound : L.usedAt mem with _ | ⟨b, rest⟩
  · exact ⟨h, rfl, R⟩
  · rw [hfound] at hsplit
    have R₀ : Rep h { L with used := L.usedBefore mem ++ b :: rest } [] := by
      rw [hsplit]
      exact R
    obtain ⟨h₁, h', hi, hc, R'⟩ := R₀.removeUsed.release
    refine ⟨h', ?_, R'⟩
    simp only [List.map_cons, List.head?_cons]
    rw [hi, Option.bind_some, hc]
    rfl

end Heap.Rep

/-! ### The initial heap -/

namespace HeapLists

/-- The heap of `VM_heap_init_` as lists. -/
def init (hb hlm blocks sth : U32) (aln : U8) : HeapLists :=
  ⟨[], [], List.range ((blocks - 1).toNat + 1), hb, sth, hlm, aln⟩

end HeapLists

theorem chain_range' {next : Nat → Option Nat} {n k : Nat} (h : ∀ i, k ≤ i → i < k + n → next i = some (i + 1))
    (hlast : next (k + n) = none) : Chain next (some k) (List.range' k (n + 1)) none := by
  induction n generalizing k with
  | zero => exact ⟨rfl, hlast⟩
  | succ n ih =>
    rw [List.range'_succ]
    refine ⟨rfl, ?_⟩
    rw [h k (le_refl k) (by omega)]
    exact ih (fun i h1 h2 => h i (by omega) (by omega)) (by rwa [Nat.add_right_comm, Nat.add_assoc])

theorem Heap.Rep.init {hb hlm blocks sth : U32} {aln : U8} {next : Nat → Option Nat} {size addr : Nat → U32} {h : Heap}
    (h₀ : Heap.init hb hlm blocks sth aln next size addr = some h) :
    Rep h (HeapLists.init hb hlm blocks sth aln) [] := by
  unfold Heap.init at h₀
  split at h₀
  · cases h₀
  · obtain rfl := Option.some.inj h₀
    constructor
    case fresh =>
      simp only [HeapLists.init, List.range_eq_range']
      refine chain_range' (fun i _ hi => if_pos (by omega)) ?_
      simp
    all_goals simp [HeapLists.init]

end Cyntatic
