import Cyntatic.Library.Cover
import Cyntatic.Theorems.HeapLists
import Mathlib.Data.List.Chain

/-! # Tiling of the heap

The blocks of the heap as intervals of addresses. Used and free blocks never cover an address twice
(`Safe`), and as long as no request is empty and no sum wraps they cover all of it (`Tiled`). Both
invariants are kept by every call, and what a call hands out follows from them. -/

namespace Cyntatic
open Library

/-! ### Rounding up -/

theorem and_not_mask {w : Nat} (x : BitVec w) (k : Nat) :
    x &&& ~~~(BitVec.ofNat w (2 ^ k - 1)) = (x >>> k) <<< k := by
  apply BitVec.eq_of_getLsbD_eq
  intro i hi
  have hmask : (BitVec.ofNat w (2 ^ k - 1)).getLsbD i = decide (i < k) := by
    rw [BitVec.getLsbD_ofNat, Nat.testBit_two_pow_sub_one]
    simp [hi]
  simp only [BitVec.getLsbD_and, BitVec.getLsbD_not, BitVec.getLsbD_shiftLeft, BitVec.getLsbD_ushiftRight, hmask]
  by_cases hik : i < k
  · simp [hik]
  · simp [hi, hik, Nat.add_sub_cancel' (Nat.le_of_not_lt hik)]

/-- `CynAlign` for an alignment that is a power of two. -/
theorem cynAlign_toNat (s : U32) {a : U8} {k : Nat} (ha : a.toNat = 2 ^ k) :
    (cynAlign s a).toNat = (s.toNat + (a.toNat - 1)) % 2 ^ 32 / a.toNat * a.toNat := by
  have hk : k < 8 := by
    have hlt := a.isLt
    rw [ha] at hlt
    exact (Nat.pow_lt_pow_iff_right (by decide)).mp hlt
  have hpos : 0 < 2 ^ k := Nat.two_pow_pos k
  have hle : 2 ^ k ≤ 2 ^ 7 := Nat.pow_le_pow_right (by decide) (by omega)
  have hmask : a.setWidth 32 - 1 = BitVec.ofNat 32 (2 ^ k - 1) := by
    apply BitVec.eq_of_toNat_eq
    simp only [BitVec.toNat_sub, BitVec.toNat_setWidth, BitVec.toNat_ofNat, ha, show (1 : U32).toNat = 1 from rfl]
    omega
  rw [cynAlign, hmask, and_not_mask, ha]
  simp only [BitVec.toNat_shiftLeft, BitVec.toNat_ushiftRight, BitVec.toNat_add, BitVec.toNat_ofNat,
    Nat.shiftRight_eq_div_pow, Nat.shiftLeft_eq]
  rw [Nat.mod_eq_of_lt (show 2 ^ k - 1 < 2 ^ 32 by omega)]
  refine Nat.mod_eq_of_lt (Nat.lt_of_le_of_lt (Nat.div_mul_le_self _ _) (Nat.mod_lt _ (by decide)))

/-- A request is not rounded down, unless rounding wraps. -/
theorem le_cynAlign {s : U32} {a : U8} {k : Nat} (ha : a.toNat = 2 ^ k) (hs : s.toNat + (a.toNat - 1) < 2 ^ 32) :
    s.toNat ≤ (cynAlign s a).toNat := by
  have hpos : 0 < a.toNat := ha ▸ Nat.two_pow_pos k
  rw [cynAlign_toNat s ha, Nat.mod_eq_of_lt hs]
  have hdiv := Nat.div_add_mod' (s.toNat + (a.toNat - 1)) a.toNat
  have hmod := Nat.mod_lt (s.toNat + (a.toNat - 1)) hpos
  omega

/-! ### Blocks as intervals -/

namespace Block

def span (b : Block) : Span := ⟨b.addr.toNat, b.size.toNat⟩

/-- A block lies between two addresses. -/
def Inside (lo hi : Nat) (b : Block) : Prop := lo ≤ b.span.start ∧ b.span.stop ≤ hi

theorem stop_toNat {b : Block} (h : b.span.stop < 2 ^ 32) : b.stop.toNat = b.span.stop := by
  rw [stop, BitVec.toNat_add]
  exact Nat.mod_eq_of_lt h

/-- The interval of a block after the block behind it is merged into it. -/
theorem span_absorb {cur c : Block} (ht : cur.span.stop = c.addr.toNat) (hc : c.span.stop < 2 ^ 32) :
    ({ cur with size := c.addr - cur.addr + c.size } : Block).span = ⟨cur.span.start, cur.span.size + c.span.size⟩ := by
  simp only [span, Span.stop] at *
  congr 1
  rw [BitVec.toNat_add, BitVec.toNat_sub]
  omega

end Block

/-! ### Compaction -/

namespace HeapLists
open Block

section Merge
variable {cur prev : Block} {l : List Block} {lo hi : Nat}

theorem cover_merge (ht : cur.span.stop = prev.span.stop) (hl : ∀ b ∈ prev :: l, b.span.stop < 2 ^ 32) (x : Nat) :
    cover ((merge cur prev l).map span) x = cur.span.hit x + cover (l.map span) x := by
  induction l generalizing cur prev with
  | nil => rfl
  | cons c l ih =>
    rw [List.forall_mem_cons] at hl
    have hc := hl.2 c (List.mem_cons_self ..)
    unfold merge
    split
    · rename_i htouch
      have htc : cur.span.stop = c.addr.toNat := by rw [ht, ← stop_toNat hl.1, htouch]
      have hspan := span_absorb htc hc
      have hstop : ({ cur with size := c.addr - cur.addr + c.size } : Block).span.stop = c.span.stop := by
        rw [hspan]
        simp only [Span.stop, span] at htc ⊢
        omega
      rw [ih hstop hl.2, hspan, List.map_cons, cover_cons, ← Nat.add_assoc, ← Span.hit_split]
      congr 2
      exact congrArg (Span.hit · x) (by rw [show cur.span.start + cur.span.size = c.addr.toNat from htc]; rfl)
    · rw [List.map_cons, cover_cons, ih rfl hl.2, List.map_cons, cover_cons]

theorem inside_merge (ht : cur.span.stop = prev.span.stop) (hprev : prev.span.stop < 2 ^ 32) (hhi : hi < 2 ^ 32)
    (hl : ∀ b ∈ cur :: l, b.Inside lo hi) : ∀ b ∈ merge cur prev l, b.Inside lo hi := by
  induction l generalizing cur prev with
  | nil => exact hl
  | cons c l ih =>
    obtain ⟨hcur, hc, hl⟩ : _ ∧ _ ∧ _ := by simpa only [List.forall_mem_cons] using hl
    have hclt : c.span.stop < 2 ^ 32 := Nat.lt_of_le_of_lt hc.2 hhi
    unfold merge
    split
    · rename_i htouch
      have htc : cur.span.stop = c.addr.toNat := by rw [ht, ← stop_toNat hprev, htouch]
      have hspan := span_absorb htc hclt
      have hstop : ({ cur with size := c.addr - cur.addr + c.size } : Block).span.stop = c.span.stop := by
        rw [hspan]
        simp only [Span.stop, span] at htc ⊢
        omega
      refine ih hstop hclt (List.forall_mem_cons.mpr ⟨⟨hcur.1, ?_⟩, hl⟩)
      rw [hstop]
      exact hc.2
    · exact List.forall_mem_cons.mpr ⟨hcur, ih rfl hclt (List.forall_mem_cons.mpr ⟨hc, hl⟩)⟩

theorem addr_merge_sublist : ((merge cur prev l).map Block.addr).Sublist ((cur :: l).map Block.addr) := by
  induction l generalizing cur prev with
  | nil => exact List.Sublist.refl _
  | cons c l ih =>
    unfold merge
    split
    · exact ih.trans ((List.sublist_cons_self _ _).cons_cons _)
    · exact ih.cons_cons _

theorem size_pos_merge (ht : cur.span.stop = prev.span.stop) (hl : ∀ b ∈ prev :: l, b.span.stop < 2 ^ 32)
    (hpos : ∀ b ∈ cur :: l, 0 < b.span.size) : ∀ b ∈ merge cur prev l, 0 < b.span.size := by
  induction l generalizing cur prev with
  | nil => exact hpos
  | cons c l ih =>
    obtain ⟨hcur, hc, hpos⟩ : _ ∧ _ ∧ _ := by simpa only [List.forall_mem_cons] using hpos
    rw [List.forall_mem_cons] at hl
    have hclt := hl.2 c (List.mem_cons_self ..)
    unfold merge
    split
    · rename_i htouch
      have htc : cur.span.stop = c.addr.toNat := by rw [ht, ← stop_toNat hl.1, htouch]
      have hspan := span_absorb htc hclt
      refine ih ?_ hl.2 (List.forall_mem_cons.mpr ⟨?_, hpos⟩)
      · rw [hspan]
        simp only [Span.stop, span] at htc ⊢
        omega
      · rw [hspan]
        exact Nat.add_pos_left hcur _
    · exact List.forall_mem_cons.mpr ⟨hcur, ih rfl hl.2 (List.forall_mem_cons.mpr ⟨hc, hpos⟩)⟩

/-- After merging no block touches the next one. -/
theorem isChain_merge (ht : cur.stop = prev.stop) : (merge cur prev l).IsChain fun b c => b.stop ≠ c.addr := by
  induction l generalizing cur prev with
  | nil => exact .singleton _
  | cons c l ih =>
    unfold merge
    split
    · refine ih ?_
      simp only [stop]
      bv_omega
    · rename_i htouch
      have hrest : (merge c c l).IsChain fun b c => b.stop ≠ c.addr := ih rfl
      rw [merge_eq] at hrest ⊢
      refine List.isChain_cons_cons.mpr ⟨?_, hrest⟩
      rwa [ht]

end Merge

section Compact
variable {l : List Block} {lo hi : Nat}

theorem cover_compactBlocks (hl : ∀ b ∈ l, b.span.stop < 2 ^ 32) (x : Nat) :
    cover ((compactBlocks l).map span) x = cover (l.map span) x := by
  cases l with
  | nil => rfl
  | cons b l => exact cover_merge rfl hl x

theorem inside_compactBlocks (hhi : hi < 2 ^ 32) (hl : ∀ b ∈ l, b.Inside lo hi) :
    ∀ b ∈ compactBlocks l, b.Inside lo hi := by
  cases l with
  | nil => exact hl
  | cons b l => exact inside_merge rfl (Nat.lt_of_le_of_lt (hl b (List.mem_cons_self ..)).2 hhi) hhi hl

theorem sorted_compactBlocks (hl : l.Pairwise fun b c => b.addr ≤ c.addr) :
    (compactBlocks l).Pairwise fun b c => b.addr ≤ c.addr := by
  cases l with
  | nil => exact hl
  | cons b l =>
    have hs := (List.pairwise_map (f := Block.addr) (R := (· ≤ ·))).mpr hl
    exact List.pairwise_map.mp (hs.sublist addr_merge_sublist)

theorem size_pos_compactBlocks (hl : ∀ b ∈ l, b.span.stop < 2 ^ 32) (hpos : ∀ b ∈ l, 0 < b.span.size) :
    ∀ b ∈ compactBlocks l, 0 < b.span.size := by
  cases l with
  | nil => exact hpos
  | cons b l => exact size_pos_merge rfl hl hpos

theorem isChain_compactBlocks : (compactBlocks l).IsChain fun b c => b.stop ≠ c.addr := by
  cases l with
  | nil => exact .nil
  | cons b l => exact isChain_merge rfl

end Compact

/-! ### Blocks never overlap -/

/-- How often the blocks of the heap, and those in hand, cover an address. -/
def cover (L : HeapLists) (hand : List Block) (x : Nat) : Nat :=
  Library.cover ((L.used ++ L.free ++ hand).map span) x

/-- No address belongs to two blocks, and all blocks lie between `hb` and the limit. -/
structure Safe (hb : Nat) (L : HeapLists) (hand : List Block) : Prop where
  cover_le : ∀ x, L.cover hand x ≤ 1
  covered_lt : ∀ x, 0 < L.cover hand x → x < L.top.toNat
  inside : ∀ b ∈ L.used ++ L.free ++ hand, b.Inside hb L.lmt.toNat
  sorted : L.free.Pairwise fun b c => b.addr ≤ c.addr
  hb_le : hb ≤ L.top.toNat

/-- What is covered does not change: the blocks are moved between the lists, split or merged. -/
theorem Safe.of_cover {hb : Nat} {L L' : HeapLists} {hand hand' : List Block} (S : Safe hb L hand)
    (hcover : ∀ x, L'.cover hand' x = L.cover hand x)
    (hinside : ∀ b ∈ L'.used ++ L'.free ++ hand', b.Inside hb L.lmt.toNat)
    (hsorted : L'.free.Pairwise fun b c => b.addr ≤ c.addr) (htop : L'.top = L.top) (hlmt : L'.lmt = L.lmt) :
    Safe hb L' hand' where
  cover_le x := by
    rw [hcover]
    exact S.cover_le x
  covered_lt x hx := by
    rw [hcover] at hx
    rw [htop]
    exact S.covered_lt x hx
  inside := hlmt ▸ hinside
  sorted := hsorted
  hb_le := htop ▸ S.hb_le

theorem cover_of_perm {L L' : HeapLists} {hand hand' : List Block}
    (h : (L'.used ++ L'.free ++ hand').Perm (L.used ++ L.free ++ hand)) (x : Nat) : L'.cover hand' x = L.cover hand x :=
  cover_perm (h.map span)

/-- Blocks are moved between the lists. -/
theorem Safe.of_perm {hb : Nat} {L L' : HeapLists} {hand hand' : List Block} (S : Safe hb L hand)
    (h : (L'.used ++ L'.free ++ hand').Perm (L.used ++ L.free ++ hand))
    (hsorted : L'.free.Pairwise fun b c => b.addr ≤ c.addr) (htop : L'.top = L.top) (hlmt : L'.lmt = L.lmt) :
    Safe hb L' hand' :=
  S.of_cover (cover_of_perm h) (fun b hb => S.inside b (h.mem_iff.mp hb)) hsorted htop hlmt

variable {hb : Nat} {L : HeapLists}

theorem mem_insertBlock {b c : Block} (hc : c ∈ insertBlock b L.free) : c ∈ L.used ++ L.free ++ [b] := by
  rw [insertBlock, List.mem_orderedInsert] at hc
  simp only [List.mem_append, List.mem_cons]
  grind

theorem Safe.stop_lt {hand : List Block} (S : Safe hb L hand) {b : Block} (h : b ∈ L.used ++ L.free ++ hand) :
    b.span.stop < 2 ^ 32 :=
  Nat.lt_of_le_of_lt (S.inside b h).2 L.lmt.isLt

theorem Safe.cover_release {b : Block} (S : Safe hb L [b]) (x : Nat) : (L.release b).cover [] x = L.cover [b] x := by
  have hcompact := cover_compactBlocks (fun c hc => S.stop_lt (mem_insertBlock hc)) x
  have hins := cover_perm (x := x) ((List.perm_orderedInsert (fun b c : Block => b.addr ≤ c.addr) b L.free).map span)
  simp only [cover, HeapLists.release, insertBlock, List.append_nil, List.map_append, cover_append, List.map_cons,
    List.map_nil, cover_cons, cover_nil] at hcompact hins ⊢
  omega

theorem Safe.release {b : Block} (S : Safe hb L [b]) : Safe hb (L.release b) [] := by
  refine S.of_cover S.cover_release (fun c hc => ?_) ?_ rfl rfl
  · rw [List.append_nil, List.mem_append] at hc
    rcases hc with hc | hc
    · exact S.inside c (by simp only [List.mem_append]; exact .inl (.inl hc))
    · exact inside_compactBlocks L.lmt.isLt (fun c hc => S.inside c (mem_insertBlock hc)) c hc
  · have htrans : IsTrans Block fun b c => b.addr ≤ c.addr := ⟨fun _ _ _ => BitVec.le_trans⟩
    have htotal : Std.Total fun b c : Block => b.addr ≤ c.addr := ⟨fun b c => BitVec.le_total b.addr c.addr⟩
    exact sorted_compactBlocks (S.sorted.orderedInsert b L.free)

/-- Handing out `n` bytes computes no address beyond `2 ^ 32`. -/
structure NoWrap (L : HeapLists) (n : U32) : Prop where
  block : ∀ b, L.free.find? (L.fits n) = some b → b.addr.toNat + n.toNat < 2 ^ 32
  fresh : L.free.find? (L.fits n) = none → L.fresh ≠ [] → L.top + n ≤ L.lmt → L.top.toNat + n.toNat < 2 ^ 32

/-- The block that ends at `top` is the last one, and `n` bytes from its start lie below the limit. -/
theorem Safe.isTop {b : Block} {n : U32} (S : Safe hb L []) (hfree : b ∈ L.free) (htop : L.isTop n b)
    (hn : b.addr.toNat + n.toNat < 2 ^ 32) : L.top.toNat ≤ b.span.stop ∧ b.addr.toNat + n.toNat ≤ L.lmt.toNat := by
  have hin := S.inside b (by simp [hfree])
  have hstop := stop_toNat (Nat.lt_of_le_of_lt hin.2 L.lmt.isLt)
  simp only [HeapLists.isTop, decide_eq_true_eq, ge_iff_le, BitVec.le_def, BitVec.toNat_add] at htop
  rw [hstop, Nat.mod_eq_of_lt hn] at htop
  exact htop

/-- The blocks other than a free block `b`. -/
theorem cover_free {b : Block} {l m : List Block} (hfree : L.free = l ++ b :: m) (x : Nat) :
    L.cover [] x = b.span.hit x + ({ L with free := l ++ m } : HeapLists).cover [] x := by
  simp only [cover, hfree, List.append_nil, List.map_append, List.map_cons, cover_append, cover_cons]
  omega

theorem cover_used (b : Block) (x : Nat) :
    ({ L with used := b :: L.used } : HeapLists).cover [] x = b.span.hit x + L.cover [] x := rfl

/-- What the blocks other than the last one cover lies below it. -/
theorem Safe.rest_lt {b : Block} {l m : List Block} (S : Safe hb L []) (hfree : L.free = l ++ b :: m)
    (hge : L.top.toNat ≤ b.span.stop) {x : Nat} (hx : 0 < ({ L with free := l ++ m } : HeapLists).cover [] x) :
    x < b.addr.toNat := by
  have hL := cover_free hfree x
  have hlt := S.covered_lt x (by omega)
  have hle := S.cover_le x
  have hhit := b.span.hit_cases x
  simp only [span, Span.stop] at hhit hge hL
  omega

theorem Safe.growTop {b : Block} {l m : List Block} {n : U32} (S : Safe hb L []) (hfree : L.free = l ++ b :: m)
    (htop : L.isTop n b) (hn : b.addr.toNat + n.toNat < 2 ^ 32) :
    Safe hb { L with free := l ++ m, used := { b with size := n } :: L.used, top := b.addr + n } [] := by
  obtain ⟨hge, hle⟩ := S.isTop (hfree ▸ List.mem_append_right _ (List.mem_cons_self ..)) htop hn
  have hin := S.inside b (by simp [hfree])
  have htop' : (b.addr + n).toNat = b.addr.toNat + n.toNat := by rw [BitVec.toNat_add, Nat.mod_eq_of_lt hn]
  have hrest := fun x => S.rest_lt hfree hge (x := x)
  have hL := cover_free hfree
  have hL' := cover_used (L := { L with free := l ++ m, top := b.addr + n }) { b with size := n }
  have hhit := ({ b with size := n } : Block).span.hit_cases
  dsimp only [span] at hhit
  constructor
  case cover_le =>
    intro x
    have hone := hL x ▸ S.cover_le x
    refine (hL' x).trans_le ?_
    have hlt := hrest x
    have hhit := hhit x
    dsimp only [cover, span] at *
    omega
  case covered_lt =>
    intro x hx
    replace hx := (hL' x).symm.trans_gt hx
    have hlt := hrest x
    have hhit := hhit x
    dsimp only [cover, span] at *
    rw [htop']
    omega
  case inside =>
    intro c hc
    rw [List.append_nil, List.cons_append, List.mem_cons] at hc
    rcases hc with rfl | hc
    · exact ⟨hin.1, hle⟩
    · refine S.inside c ?_
      simp only [hfree, List.mem_append, List.mem_cons] at hc ⊢
      grind
  case sorted =>
    have hsorted := S.sorted
    rw [hfree] at hsorted
    exact hsorted.sublist ((List.sublist_cons_self _ _).append_left _)
  case hb_le =>
    dsimp only
    rw [htop']
    exact Nat.le_trans hin.1 (Nat.le_add_right ..)

theorem Safe.takeWhole {b : Block} {l m : List Block} (S : Safe hb L []) (hfree : L.free = l ++ b :: m) :
    Safe hb { L with free := l ++ m, used := b :: L.used } [] := by
  refine S.of_cover (fun x => (cover_free hfree x).symm) (fun c hc => S.inside c ?_) ?_ rfl rfl
  · simp only [hfree, List.mem_append, List.mem_cons] at hc ⊢
    grind
  · have hsorted := S.sorted
    rw [hfree] at hsorted
    exact hsorted.sublist ((List.sublist_cons_self _ _).append_left _)

/-- The two parts of a block that is split. -/
theorem span_split {b : Block} {n : U32} (hsize : n ≤ b.size) (hlt : b.span.stop < 2 ^ 32) (k : Nat) :
    (⟨k, b.addr + n, b.size - n⟩ : Block).span = ⟨b.addr.toNat + n.toNat, b.size.toNat - n.toNat⟩ := by
  rw [BitVec.le_def] at hsize
  simp only [span, Span.stop] at hlt ⊢
  congr 1
  · rw [BitVec.toNat_add]
    omega
  · rw [BitVec.toNat_sub]
    omega

theorem cover_takeSplit {b : Block} {l m : List Block} {n : U32} (hfree : L.free = l ++ b :: m) (hsize : n ≤ b.size)
    (hlt : b.span.stop < 2 ^ 32) (k : Nat) (fresh : List Nat) (x : Nat) :
    cover { L with free := l ++ m, used := { b with size := n } :: L.used, fresh := fresh }
      [⟨k, b.addr + n, b.size - n⟩] x = L.cover [] x := by
  have hspan := span_split hsize hlt k
  have hcut := Span.hit_split b.addr.toNat n.toNat (b.size.toNat - n.toNat) x
  rw [Nat.add_sub_cancel' (BitVec.le_def.mp hsize)] at hcut
  rw [cover_free hfree x]
  simp only [cover, List.append_nil, List.cons_append, List.map_cons, List.map_append, List.map_nil, cover_cons,
    cover_append, cover_nil, hspan]
  dsimp only [span]
  omega

theorem Safe.takeSplit {b : Block} {l m : List Block} {n : U32} (S : Safe hb L []) (hfree : L.free = l ++ b :: m)
    (hsize : n ≤ b.size) (k : Nat) (fresh : List Nat) :
    Safe hb { L with free := l ++ m, used := { b with size := n } :: L.used, fresh := fresh }
      [⟨k, b.addr + n, b.size - n⟩] := by
  have hin := S.inside b (by simp [hfree])
  have hlt := S.stop_lt (b := b) (by simp [hfree])
  have hspan := span_split hsize hlt k
  refine S.of_cover (cover_takeSplit hfree hsize hlt k fresh) (fun c hc => ?_) ?_ rfl rfl
  · rw [BitVec.le_def] at hsize
    simp only [List.cons_append, List.mem_cons, List.mem_append, List.not_mem_nil, or_false] at hc
    simp only [Inside, span, Span.stop, Span.mk.injEq] at hin hspan ⊢
    rcases hc with rfl | (hc | hc) | rfl
    · dsimp only
      omega
    · exact S.inside c (by simp [hc])
    · exact S.inside c (by simp only [hfree, List.mem_append, List.mem_cons]; grind)
    · dsimp only
      omega
  · have hsorted := S.sorted
    rw [hfree] at hsorted
    exact hsorted.sublist ((List.sublist_cons_self _ _).append_left _)

theorem Safe.growFresh {n : U32} (S : Safe hb L []) (hlmt : L.top + n ≤ L.lmt) (hn : L.top.toNat + n.toNat < 2 ^ 32)
    (k : Nat) (fresh : List Nat) :
    Safe hb { L with fresh := fresh, used := ⟨k, L.top, n⟩ :: L.used, top := L.top + n } [] := by
  have htop' : (L.top + n).toNat = L.top.toNat + n.toNat := by rw [BitVec.toNat_add, Nat.mod_eq_of_lt hn]
  rw [BitVec.le_def, htop'] at hlmt
  have hL' := cover_used (L := { L with fresh := fresh, top := L.top + n }) ⟨k, L.top, n⟩
  have hhit := (⟨k, L.top, n⟩ : Block).span.hit_cases
  dsimp only [span] at hhit
  constructor
  case cover_le =>
    intro x
    refine (hL' x).trans_le ?_
    have hle := S.cover_le x
    have hlt := S.covered_lt x
    have hhit := hhit x
    dsimp only [cover, span] at *
    omega
  case covered_lt =>
    intro x hx
    replace hx := (hL' x).symm.trans_gt hx
    have hlt := S.covered_lt x
    have hhit := hhit x
    dsimp only [cover, span] at *
    rw [htop']
    omega
  case inside =>
    intro c hc
    rw [List.append_nil, List.cons_append, List.mem_cons] at hc
    rcases hc with rfl | hc
    · exact ⟨S.hb_le, hlmt⟩
    · exact S.inside c (by simpa using hc)
  case sorted => exact S.sorted
  case hb_le =>
    dsimp only
    rw [htop']
    exact Nat.le_trans S.hb_le (Nat.le_add_right ..)

/-- Handing out memory keeps blocks apart, unless an address wraps. -/
theorem Safe.allocStep {n : U32} {r : Option Block × HeapLists} (S : Safe hb L []) (hw : NoWrap L n)
    (h : AllocStep L n r) : Safe hb r.2 [] := by
  cases h with
  | top b l m hfree hfind htop => exact S.growTop hfree htop (hw.block b hfind)
  | whole b l m hfree => exact S.takeWhole hfree
  | split b l m k fresh hfree hfind hsize hfresh hsth => exact (S.takeSplit hfree hsize k fresh).release
  | fresh k fresh hfind hfresh hlmt =>
    exact S.growFresh hlmt (hw.fresh hfind (by simp [hfresh]) hlmt) k fresh
  | none => exact S

/-- Taking the block at an address off the list of used blocks. -/
theorem perm_usedAt {mem : U32} {b : Block} {rest : List Block} (h : L.usedAt mem = b :: rest) :
    (L.usedBefore mem ++ rest ++ L.free ++ [b]).Perm (L.used ++ L.free ++ []) := by
  have hsplit : L.usedBefore mem ++ L.usedAt mem = L.used := List.takeWhile_append_dropWhile
  rw [← hsplit, h]
  refine List.perm_iff_count.mpr fun c => ?_
  simp only [List.count_append, List.count_cons, List.count_nil]
  omega

theorem Safe.dealloc (S : Safe hb L []) (mem : U32) : Safe hb (L.dealloc mem).2 [] := by
  unfold HeapLists.dealloc
  split
  · exact S
  · split
    · rename_i b rest hused
      have S' : Safe hb { L with used := L.usedBefore mem ++ rest } [b] :=
        S.of_perm (perm_usedAt hused) S.sorted rfl rfl
      exact S'.release
    · exact S

/-! ### Blocks tile the heap -/

/-- The blocks cover all of `[hb, top)`, none is empty, and free blocks are sorted and do not touch. -/
structure Tiled (hb : Nat) (L : HeapLists) (hand : List Block) : Prop extends Safe hb L hand where
  covered : ∀ x, hb ≤ x → x < L.top.toNat → 0 < L.cover hand x
  size_pos : ∀ b ∈ L.used ++ L.free ++ hand, 0 < b.span.size
  apart : L.free.Pairwise fun b c => b.span.stop < c.span.start
  top_le : L.top.toNat ≤ L.lmt.toNat

/-- The blocks of a tiled heap cover each address of `[hb, top)` once. -/
theorem Tiled.cover_eq (T : Tiled hb L []) (x : Nat) :
    L.cover [] x = if hb ≤ x ∧ x < L.top.toNat then 1 else 0 := by
  have hle := T.cover_le x
  split
  · have hpos := T.covered x (by omega) (by omega)
    omega
  · rename_i hx
    by_contra hne
    have hpos : 0 < L.cover [] x := Nat.pos_of_ne_zero hne
    obtain ⟨s, hs, hhit⟩ := cover_pos.mp hpos
    obtain ⟨b, hb, rfl⟩ := List.mem_map.mp hs
    exact hx ⟨Nat.le_trans (T.inside b hb).1 (Span.hit_pos.mp hhit).1, T.covered_lt x hpos⟩

/-- A sorted list of blocks that neither overlap nor touch. -/
theorem apart_of_isChain {l : List Block} (hsorted : l.Pairwise fun b c => b.addr ≤ c.addr)
    (hchain : l.IsChain fun b c => b.stop ≠ c.addr) (hdisj : (l.map span).Pairwise Span.Disjoint)
    (hpos : ∀ b ∈ l, 0 < b.span.size) (hlt : ∀ b ∈ l, b.span.stop < 2 ^ 32) :
    l.Pairwise fun b c => b.span.stop < c.span.start := by
  induction l with
  | nil => exact .nil
  | cons b l ih =>
    rw [List.map_cons, List.pairwise_cons] at hdisj
    rw [List.pairwise_cons] at hsorted
    rw [List.forall_mem_cons] at hpos hlt
    have hl := ih hsorted.2 hchain.tail hdisj.2 hpos.2 hlt.2
    have hbefore : ∀ c ∈ l, b.span.stop ≤ c.span.start := by
      intro c hc
      have hle := hsorted.1 c hc
      have hor := (hdisj.1 _ (List.mem_map_of_mem hc)).le_or_le hpos.1 (hpos.2 c hc)
      have hcpos := hpos.2 c hc
      rw [BitVec.le_def] at hle
      simp only [Span.stop, span] at *
      omega
    refine List.pairwise_cons.mpr ⟨?_, hl⟩
    cases l with
    | nil => simp
    | cons c l =>
      have hne : b.span.stop ≠ c.span.start := by
        intro he
        refine (List.isChain_cons_cons.mp hchain).1 (BitVec.eq_of_toNat_eq ?_)
        rw [stop_toNat hlt.1]
        exact he
      have hbc := hbefore c (List.mem_cons_self ..)
      rw [List.pairwise_cons] at hl
      rw [List.forall_mem_cons]
      refine ⟨by omega, fun d hd => ?_⟩
      have hcd := hl.1 d hd
      simp only [Span.stop] at *
      omega

theorem Tiled.release {b : Block} (T : Tiled hb L [b]) : Tiled hb (L.release b) [] := by
  have S := T.toSafe.release
  have hpos := size_pos_compactBlocks (fun c hc => T.stop_lt (mem_insertBlock hc)) fun c hc =>
    T.size_pos c (mem_insertBlock hc)
  refine { S with covered := fun x h1 h2 => ?_, size_pos := fun c hc => ?_, apart := ?_, top_le := T.top_le }
  · rw [T.cover_release]
    exact T.covered x h1 h2
  · rw [List.append_nil, List.mem_append] at hc
    rcases hc with hc | hc
    · exact T.size_pos c (by simp only [List.mem_append]; exact .inl (.inl hc))
    · exact hpos c hc
  · refine apart_of_isChain S.sorted isChain_compactBlocks (pairwise_disjoint fun x => ?_) hpos fun c hc =>
      S.stop_lt (by simp [hc])
    have hle := S.cover_le x
    simp only [cover, List.append_nil, List.map_append, cover_append] at hle
    exact Nat.le_trans (Nat.le_add_left ..) hle

theorem Tiled.growTop {b : Block} {l m : List Block} {n : U32} (T : Tiled hb L []) (hfree : L.free = l ++ b :: m)
    (htop : L.isTop n b) (hn : b.addr.toNat + n.toNat < 2 ^ 32) (hpos : 0 < n.toNat) :
    Tiled hb { L with free := l ++ m, used := { b with size := n } :: L.used, top := b.addr + n } [] := by
  have S := T.toSafe.growTop hfree htop hn
  have hmem : b ∈ L.free := hfree ▸ List.mem_append_right _ (List.mem_cons_self ..)
  obtain ⟨hge, hle⟩ := T.toSafe.isTop hmem htop hn
  have htop' : (b.addr + n).toNat = b.addr.toNat + n.toNat := by rw [BitVec.toNat_add, Nat.mod_eq_of_lt hn]
  refine { S with covered := fun x h1 h2 => ?_, size_pos := fun c hc => ?_, apart := ?_, top_le := ?_ }
  · have hL := cover_free hfree
    have hL' := cover_used (L := { L with free := l ++ m, top := b.addr + n }) { b with size := n } x
    have hhit := ({ b with size := n } : Block).span.hit_cases x
    have hb' := b.span.hit_cases
    have hbpos := T.size_pos b (by simp [hmem])
    refine Nat.lt_of_lt_of_eq ?_ hL'.symm
    dsimp only at h2
    rw [htop'] at h2
    -- The first address of `b` is covered, so it lies below `top`.
    have hstart := T.covered_lt b.addr.toNat (by
      rw [hL]
      have := hb' b.addr.toNat
      simp only [span] at *
      omega)
    have hcov := T.covered x h1
    have hx := hb' x
    rw [hL] at hcov
    dsimp only [cover, span] at *
    omega
  · rw [List.append_nil, List.cons_append, List.mem_cons] at hc
    rcases hc with rfl | hc
    · exact hpos
    · refine T.size_pos c ?_
      simp only [hfree, List.mem_append, List.mem_cons] at hc ⊢
      grind
  · have hapart := T.apart
    rw [hfree] at hapart
    exact hapart.sublist ((List.sublist_cons_self _ _).append_left _)
  · dsimp only
    rw [htop']
    exact hle

theorem Tiled.takeWhole {b : Block} {l m : List Block} (T : Tiled hb L []) (hfree : L.free = l ++ b :: m) :
    Tiled hb { L with free := l ++ m, used := b :: L.used } [] := by
  refine
    { T.toSafe.takeWhole hfree with
      covered := fun x h1 h2 => (T.covered x h1 h2).trans_eq (cover_free hfree x)
      size_pos := fun c hc => T.size_pos c ?_
      apart := ?_
      top_le := T.top_le }
  · simp only [hfree, List.mem_append, List.mem_cons] at hc ⊢
    grind
  · have hapart := T.apart
    rw [hfree] at hapart
    exact hapart.sublist ((List.sublist_cons_self _ _).append_left _)

theorem Tiled.growFresh {n : U32} (T : Tiled hb L []) (hlmt : L.top + n ≤ L.lmt) (hn : L.top.toNat + n.toNat < 2 ^ 32)
    (hpos : 0 < n.toNat) (k : Nat) (fresh : List Nat) :
    Tiled hb { L with fresh := fresh, used := ⟨k, L.top, n⟩ :: L.used, top := L.top + n } [] := by
  have htop' : (L.top + n).toNat = L.top.toNat + n.toNat := by rw [BitVec.toNat_add, Nat.mod_eq_of_lt hn]
  refine
    { T.toSafe.growFresh hlmt hn k fresh with
      covered := fun x h1 h2 => ?_
      size_pos := fun c hc => ?_
      apart := T.apart
      top_le := BitVec.le_def.mp hlmt }
  · have hhit := (⟨k, L.top, n⟩ : Block).span.hit_cases x
    have hcov := T.covered x h1
    refine Nat.lt_of_lt_of_eq ?_ (cover_used (L := { L with fresh := fresh, top := L.top + n }) ⟨k, L.top, n⟩ x).symm
    dsimp only at h2
    rw [htop'] at h2
    dsimp only [cover, span] at *
    omega
  · rw [List.append_nil, List.cons_append, List.mem_cons] at hc
    rcases hc with rfl | hc
    · exact hpos
    · exact T.size_pos c (by simpa using hc)

theorem Tiled.takeSplit {b : Block} {l m : List Block} {n : U32} (T : Tiled hb L []) (hfree : L.free = l ++ b :: m)
    (hsize : n ≤ b.size) (hpos : 0 < n.toNat) (hsth : L.sth ≤ b.size - n) (hsth_pos : 0 < L.sth.toNat) (k : Nat)
    (fresh : List Nat) :
    Tiled hb { L with free := l ++ m, used := { b with size := n } :: L.used, fresh := fresh }
      [⟨k, b.addr + n, b.size - n⟩] := by
  have hlt := T.stop_lt (b := b) (by simp [hfree])
  refine
    { T.toSafe.takeSplit hfree hsize k fresh with
      covered := fun x h1 h2 => (T.covered x h1 h2).trans_eq (cover_takeSplit hfree hsize hlt k fresh x).symm
      size_pos := fun c hc => ?_
      apart := ?_
      top_le := T.top_le }
  · simp only [List.cons_append, List.mem_cons, List.mem_append, List.not_mem_nil, or_false] at hc
    rcases hc with rfl | (hc | hc) | rfl
    · exact hpos
    · exact T.size_pos c (by simp [hc])
    · exact T.size_pos c (by simp only [hfree, List.mem_append, List.mem_cons]; grind)
    · exact Nat.lt_of_lt_of_le hsth_pos (BitVec.le_def.mp hsth)
  · have hapart := T.apart
    rw [hfree] at hapart
    exact hapart.sublist ((List.sublist_cons_self _ _).append_left _)

/-- Handing out a positive number of bytes keeps the heap tiled, unless an address wraps. -/
theorem Tiled.allocStep {n : U32} {r : Option Block × HeapLists} (T : Tiled hb L []) (hpos : 0 < n.toNat)
    (hsth : 0 < L.sth.toNat) (hw : NoWrap L n) (h : AllocStep L n r) : Tiled hb r.2 [] := by
  cases h with
  | top b l m hfree hfind htop => exact T.growTop hfree htop (hw.block b hfind) hpos
  | whole b l m hfree => exact T.takeWhole hfree
  | split b l m k fresh hfree hfind hsize hfresh hle => exact (T.takeSplit hfree hsize hpos hle hsth k fresh).release
  | fresh k fresh hfind hfresh hlmt => exact T.growFresh hlmt (hw.fresh hfind (by simp [hfresh]) hlmt) hpos k fresh
  | none => exact T

theorem Tiled.dealloc (T : Tiled hb L []) (mem : U32) : Tiled hb (L.dealloc mem).2 [] := by
  unfold HeapLists.dealloc
  split
  · exact T
  · split
    · rename_i b rest hused
      have hperm := perm_usedAt hused
      have S' : Safe hb { L with used := L.usedBefore mem ++ rest } [b] :=
        T.toSafe.of_perm hperm T.sorted rfl rfl
      have T' : Tiled hb { L with used := L.usedBefore mem ++ rest } [b] :=
        { S' with
          covered := fun x h1 h2 => (T.covered x h1 h2).trans_eq (cover_of_perm hperm x).symm
          size_pos := fun c hc => T.size_pos c (hperm.mem_iff.mp hc)
          apart := T.apart
          top_le := T.top_le }
      exact T'.release
    · exact T

end HeapLists

end Cyntatic
