import Mathlib.Data.List.Perm.Basic
import Cyntatic.Util.Allocator

/-! # The metadata of allocators

An allocator that hands out blocks apart from each other, keeps what is in them, and takes a block back that it is given
with its size, is given that size: what is recorded in front of a block is what was requested, as long as no block is of
more than one member. -/

namespace Cyntatic
open Library

namespace Ram
variable {ram ram' : Ram} {a b n : Nat} {bs : List U8} {x : Nat}

/-! ### Bytes -/

theorem store_of_lt (h : x < a) : ram.store a bs x = ram x := if_neg (by omega)

theorem store_of_le (h : a + bs.length ≤ x) : ram.store a bs x = ram x := if_neg (by omega)

theorem load_congr (h : ∀ i < n, ram' (b + i) = ram (a + i)) : ram'.load b n = ram.load a n :=
  List.map_congr_left fun i hi => h i (List.mem_range.mp hi)

theorem load_store (h : n = bs.length) : (ram.store a bs).load a n = bs := by
  subst h
  refine List.ext_getElem (by simp [load]) fun i h1 h2 => ?_
  simp [load, store, h2]

theorem load_store_of_apart (h : a + n ≤ b ∨ b + bs.length ≤ a) : (ram.store b bs).load a n = ram.load a n := by
  refine load_congr fun i hi => ?_
  rcases h with h | h
  · exact store_of_lt (by omega)
  · exact store_of_le (by omega)

end Ram

theorem ofNat_leNat_leBytes {w n : Nat} (h : 8 * n = w) (v : BitVec w) : BitVec.ofNat w (leNat (leBytes n v)) = v := by
  apply BitVec.eq_of_toNat_eq
  rw [leNat_leBytes, BitVec.toNat_ofNat, h, Nat.mod_mod, Nat.mod_eq_of_lt v.isLt]

namespace AllocState
variable {σ : Type} {s : AllocState σ} {mem : Nat} {a : U64} {size magic : U32}

@[simp] theorem metaA_setMetaA : (s.setMetaA mem a).metaA mem = a := by
  rw [metaA, setMetaA, Ram.load_store (by simp)]
  exact ofNat_leNat_leBytes (by decide) a

@[simp] theorem metaA_setMetaSize : (s.setMetaSize mem size).metaA mem = s.metaA mem := by
  rw [metaA, setMetaSize, Ram.load_store_of_apart (.inl (Nat.le_refl _)), metaA]

@[simp] theorem metaA_setMetaMagic : (s.setMetaMagic mem magic).metaA mem = s.metaA mem := by
  rw [metaA, setMetaMagic, Ram.load_store_of_apart (.inl (by omega)), metaA]

@[simp] theorem metaSize_setMetaSize : (s.setMetaSize mem size).metaSize mem = size := by
  rw [metaSize, setMetaSize, Ram.load_store (by simp)]
  exact ofNat_leNat_leBytes (by decide) size

@[simp] theorem metaMagic_setMetaMagic : (s.setMetaMagic mem magic).metaMagic mem = magic := by
  rw [metaMagic, setMetaMagic, Ram.load_store (by simp)]
  exact ofNat_leNat_leBytes (by decide) magic

@[simp] theorem metaMagic_setMetaSize : (s.setMetaSize mem size).metaMagic mem = s.metaMagic mem := by
  rw [metaMagic, setMetaSize, Ram.load_store_of_apart (.inr (by simp)), metaMagic]

end AllocState

namespace Allocator
variable {σ : Type} {A : Allocator σ} {s s' : AllocState σ} {b : Block} {live : List Block} {mem : Nat}

/-! ### What is in front of a block -/

/-- The metadata of a block. -/
structure Labelled (A : Allocator σ) (s : AllocState σ) (mem : Nat) (size : U32) : Prop where
  metaA : s.metaA mem = A.addr
  metaSize : s.metaSize mem = size
  metaMagic : s.metaMagic mem = A.magic

theorem Labelled.congr {size : U32} {mem' : Nat} (h : Labelled A s mem size)
    (hram : ∀ i < 16, s'.ram (mem' + i) = s.ram (mem + i)) : Labelled A s' mem' size := by
  have hload {k n : Nat} (hk : k + n ≤ 16) : s'.ram.load (mem' + k) n = s.ram.load (mem + k) n :=
    Ram.load_congr fun i hi => by
      rw [Nat.add_assoc, Nat.add_assoc]
      exact hram _ (by omega)
  refine ⟨h.metaA ▸ ?_, h.metaSize ▸ ?_, h.metaMagic ▸ ?_⟩
  · exact congrArg (fun bs => BitVec.ofNat 64 (leNat bs)) (hload (k := 0) (n := 8) (by decide))
  · exact congrArg (fun bs => BitVec.ofNat 32 (leNat bs)) (hload (k := 8) (n := 4) (by decide))
  · exact congrArg (fun bs => BitVec.ofNat 32 (leNat bs)) (hload (k := 12) (n := 4) (by decide))

theorem labelled_label (s : AllocState σ) (mem : Nat) (size : U32) :
    Labelled A (((s.setMetaA mem A.addr).setMetaMagic mem A.magic).setMetaSize mem size) mem size := by
  constructor <;> simp

/-- A new size is recorded. -/
theorem Labelled.setMetaSize {size newSize : U32} (h : Labelled A s mem size) :
    Labelled A (s.setMetaSize mem newSize) mem newSize :=
  ⟨by simpa using h.metaA, by simp, by simpa using h.metaMagic⟩

/-- What the labelling of a block leaves. -/
theorem label_ram {size : U32} {x : Nat} (hx : x < mem ∨ mem + 16 ≤ x) :
    (((s.setMetaA mem A.addr).setMetaMagic mem A.magic).setMetaSize mem size).ram x = s.ram x := by
  simp only [AllocState.setMetaSize, AllocState.setMetaMagic, AllocState.setMetaA]
  rcases hx with hx | hx
  · rw [Ram.store_of_lt (by omega), Ram.store_of_lt (by omega), Ram.store_of_lt hx]
  · rw [Ram.store_of_le (by simp; omega), Ram.store_of_le (by simp; omega), Ram.store_of_le (by simp; omega)]

theorem setMetaSize_ram {size : U32} {x : Nat} (hx : x < mem ∨ mem + 16 ≤ x) : (s.setMetaSize mem size).ram x = s.ram x := by
  rcases hx with hx | hx
  · exact Ram.store_of_lt (by omega)
  · exact Ram.store_of_le (by simp; omega)

/-! ### What the functions of an allocator do -/

/-- What is in some blocks is kept. -/
def Keeps (spans : List Span) (ram ram' : Ram) : Prop := ∀ t ∈ spans, ∀ x, t.start ≤ x → x < t.stop → ram' x = ram x

/-- A block of some size is handed out, apart from the others, or there is none. -/
def HandsOut (spans spans' : List Span) (n : Nat) : Option Nat → Prop
  | none => spans'.Perm spans
  | some mem => spans'.Perm (⟨mem, n⟩ :: spans) ∧ ∀ t ∈ spans, Span.Disjoint ⟨mem, n⟩ t

/-- The functions of an allocator manage blocks. They keep what is in the blocks that they are not asked about, and a
    block is theirs again when it is given back with its size; resizing keeps the bytes that both sizes have. -/
structure Lawful (A : Allocator σ) (blocks : σ → List Span) : Prop where
  addr : A.addr ≠ 0
  alloc (n : U32) (s : AllocState σ) :
    HandsOut (blocks s.own) (blocks (A.alloc n s).2.own) n.toNat (A.alloc n s).1 ∧
      Keeps (blocks s.own) s.ram (A.alloc n s).2.ram
  cAlloc (n : U32) (s : AllocState σ) :
    HandsOut (blocks s.own) (blocks (A.cAlloc 1 n s).2.own) n.toNat (A.cAlloc 1 n s).1 ∧
      Keeps (blocks s.own) s.ram (A.cAlloc 1 n s).2.ram
  reAlloc (mem : Nat) (orig n : U32) (s : AllocState σ) (h : ⟨mem, orig.toNat⟩ ∈ blocks s.own) :
    ((A.reAlloc mem orig n s).1 = none → (blocks (A.reAlloc mem orig n s).2.own).Perm (blocks s.own) ∧
      Keeps (blocks s.own) s.ram (A.reAlloc mem orig n s).2.ram) ∧
    ∀ mem', (A.reAlloc mem orig n s).1 = some mem' →
      HandsOut ((blocks s.own).erase ⟨mem, orig.toNat⟩) (blocks (A.reAlloc mem orig n s).2.own) n.toNat (some mem') ∧
      Keeps ((blocks s.own).erase ⟨mem, orig.toNat⟩) s.ram (A.reAlloc mem orig n s).2.ram ∧
      ∀ i < min orig.toNat n.toNat, (A.reAlloc mem orig n s).2.ram (mem' + i) = s.ram (mem + i)
  dealloc (mem : Nat) (n : U32) (s : AllocState σ) (h : ⟨mem, n.toNat⟩ ∈ blocks s.own) :
    (blocks (A.dealloc mem n s).own).Perm ((blocks s.own).erase ⟨mem, n.toNat⟩) ∧
      Keeps ((blocks s.own).erase ⟨mem, n.toNat⟩) s.ram (A.dealloc mem n s).ram

/-! ### The invariant -/

/-- The block that the allocator has handed out. -/
def Block.span (b : Block) : Span := ⟨b.mem - 16, b.size.toNat + 16⟩

/-- A block in use: what is recorded is what was requested. -/
structure Told (A : Allocator σ) (s : AllocState σ) (b : Block) : Prop where
  mem_le : 16 ≤ b.mem
  fits : b.size.toNat + 16 < 2 ^ 32
  asked : b.asked = b.size + 16
  labelled : Labelled A s (b.mem - 16) b.size

structure Sound (A : Allocator σ) (blocks : σ → List Span) (s : AllocState σ) (live : List Block) : Prop where
  told : ∀ b ∈ live, Told A s b
  listed : ∀ b ∈ live, b.span ∈ blocks s.own
  apart : live.Pairwise fun b c => b.span.Disjoint c.span

variable {blocks : σ → List Span}

/-- Blocks in use whose bytes are kept are as they were. -/
theorem Told.congr (h : Told A s b) (hram : ∀ x, b.span.start ≤ x → x < b.span.start + 16 → s'.ram x = s.ram x) :
    Told A s' b :=
  ⟨h.mem_le, h.fits, h.asked, h.labelled.congr fun _ hi => hram _ (Nat.le_add_right ..) (Nat.add_lt_add_left hi _)⟩

/-- Blocks that stay in use while their bytes are kept. -/
theorem Sound.keep {spans : List Span} {live' : List Block} (h : Sound A blocks s live) (hlive : live'.Sublist live)
    (hspans : ∀ b ∈ live', b.span ∈ spans) (hblocks : ∀ t ∈ spans, t ∈ blocks s'.own) (hram : Keeps spans s.ram s'.ram) :
    Sound A blocks s' live' where
  told b hb := (h.told b (hlive.subset hb)).congr fun x h1 h2 =>
    hram _ (hspans b hb) x h1 (Nat.lt_of_lt_of_le h2 (Nat.add_le_add_left (Nat.le_add_left ..) _))
  listed b hb := hblocks _ (hspans b hb)
  apart := h.apart.sublist hlive

/-- A block that is handed out is in use, once it is labelled. -/
theorem Sound.label {spans : List Span} {size : U32} (h : Sound A blocks s live) (hsize : size.toNat + 16 < 2 ^ 32)
    (hspans : ∀ b ∈ live, b.span ∈ spans) (hmem : ⟨mem, size.toNat + 16⟩ ∈ blocks s.own)
    (hapart : ∀ t ∈ spans, Span.Disjoint ⟨mem, size.toNat + 16⟩ t) {s' : AllocState σ} (hown : s'.own = s.own)
    (hlabel : Labelled A s' mem size) (hram : ∀ x, x < mem ∨ mem + 16 ≤ x → s'.ram x = s.ram x) :
    Sound A blocks s' (⟨mem + 16, size, size + 16⟩ :: live) := by
  have hspan : (⟨mem + 16, size, size + 16⟩ : Block).span = ⟨mem, size.toNat + 16⟩ := by
    rw [Block.span, Nat.add_sub_cancel]
  refine ⟨fun b hb => ?_, fun b hb => ?_, .cons (fun b hb => ?_) h.apart⟩
  · rcases List.mem_cons.mp hb with rfl | hb
    · exact ⟨Nat.le_add_left .., hsize, rfl, by rwa [Nat.add_sub_cancel]⟩
    · have hd := hapart _ (hspans b hb)
      refine (h.told b hb).congr fun x h1 h2 => hram x ?_
      have hx := hd x
      simp only [Span.hit_eq_zero, Span.stop] at hx
      have h3 : x < b.span.start + b.span.size := Nat.lt_of_lt_of_le h2 (Nat.add_le_add_left (Nat.le_add_left ..) _)
      omega
  · rw [hown]
    rcases List.mem_cons.mp hb with rfl | hb
    · rw [hspan]
      exact hmem
    · exact h.listed b hb
  · rw [hspan]
    exact hapart _ (hspans b hb)

/-! ### The calls -/

theorem toNat_add_metadata {size : U32} (h : size.toNat + 16 < 2 ^ 32) : (size + 16).toNat = size.toNat + 16 := by
  rw [BitVec.toNat_add]
  exact Nat.mod_eq_of_lt h

/-- `Allocator_alloc` and `Allocator_cAlloc` -/
theorem Sound.handed {size : U32} {r : Option Nat × AllocState σ} (h : Sound A blocks s live) (hsize : size.toNat + 16 < 2 ^ 32)
    (hr : HandsOut (blocks s.own) (blocks r.2.own) (size + 16).toNat r.1) (hram : Keeps (blocks s.own) s.ram r.2.ram) :
    Sound A blocks (A.label size r).2 (handed live size (size + 16) (A.label size r).1) := by
  obtain ⟨_ | mem, t⟩ := r
  · exact h.keep (List.Sublist.refl _) h.listed (fun u hu => hr.mem_iff.mpr hu) hram
  · rw [toNat_add_metadata hsize] at hr
    have hkept : Sound A blocks t live :=
      h.keep (List.Sublist.refl _) h.listed (fun u hu => hr.1.mem_iff.mpr (List.mem_cons_of_mem _ hu)) hram
    exact hkept.label hsize h.listed (hr.1.mem_iff.mpr (List.mem_cons_self ..)) hr.2 rfl (labelled_label ..)
      fun x hx => label_ram hx

theorem Sound.allocMem {size : U32} (hA : Lawful A blocks) (h : Sound A blocks s live) (hsize : size.toNat + 16 < 2 ^ 32) :
    Sound A blocks (A.allocMem size s).2 (Allocator.handed live size (size + 16) (A.allocMem size s).1) := by
  unfold Allocator.allocMem
  split
  · exact h
  · exact h.handed hsize (hA.alloc _ s).1 (hA.alloc _ s).2

/-- The functions of an allocator are given what it was asked for. -/
theorem reAllocMem_eq {newSize : U32} (hb : Told A s b) (hnew : newSize ≠ 0) :
    A.reAllocMem (some b.mem) newSize s = some (resize newSize (A.reAlloc (b.mem - 16) b.asked (newSize + 16) s)) := by
  unfold Allocator.reAllocMem
  dsimp only
  rw [if_neg, hb.labelled.metaSize, hb.asked]
  rintro (h | h)
  · exact hnew h
  · exact h ⟨hb.labelled.metaA, hb.labelled.metaMagic⟩

theorem magic_header : A.magic >>> 8 = allocatorMagic0 := by
  have hall : ∀ id : U8, (allocatorMagic0 <<< 8 ||| id.setWidth 32) >>> 8 = allocatorMagic0 := by decide
  exact hall A.id

theorem deallocMem_eq (hA : Lawful A blocks) (hb : Told A s b) :
    A.deallocMem (some b.mem) s = some (A.dealloc (b.mem - 16) b.asked s) := by
  unfold Allocator.deallocMem
  dsimp only
  rw [if_pos ⟨hb.labelled.metaA, hA.addr, by rw [hb.labelled.metaMagic, magic_header], hb.labelled.metaMagic.symm⟩,
    hb.labelled.metaSize, hb.asked]

/-! ### Steps -/

/-- A block in use, and the others. -/
theorem Sound.others (h : Sound A blocks s live) (hb : b ∈ live) {c : Block} (hc : c ∈ live.erase b) :
    b.span.Disjoint c.span ∧ c.span ∈ (blocks s.own).erase b.span := by
  have hpair : (b :: live.erase b).Pairwise fun x y => x.span.Disjoint y.span :=
    ((List.perm_cons_erase hb).pairwise_iff fun hd => Span.Disjoint.symm hd).mp h.apart
  have hd := List.rel_of_pairwise_cons hpair hc
  refine ⟨hd, (List.mem_erase_of_ne fun heq => ?_).mpr (h.listed c (List.mem_of_mem_erase hc))⟩
  have hx := hd b.span.start
  rw [heq] at hx
  simp only [Span.hit_eq_zero, Span.stop, Block.span] at hx
  omega

theorem Sound.reAlloc {newSize : U32} {ret : Option Nat} (hA : Lawful A blocks) (h : Sound A blocks s live) (hb : b ∈ live)
    (hsize : newSize.toNat + 16 < 2 ^ 32) (hr : A.reAllocMem (some b.mem) newSize s = some (ret, s')) :
    Sound A blocks s' (if ret = none then live else Allocator.handed (live.erase b) newSize (newSize + 16) ret) ∧
      ∀ mem, ret = some mem → ∀ i < min b.size.toNat newSize.toNat, s'.ram (mem + i) = s.ram (b.mem + i) := by
  have htold := h.told b hb
  have hnew : newSize ≠ 0 := by
    rintro rfl
    rw [Allocator.reAllocMem, if_pos (.inl rfl)] at hr
    cases hr
  rw [reAllocMem_eq htold hnew] at hr
  have hasked : b.asked.toNat = b.size.toNat + 16 := htold.asked ▸ toNat_add_metadata htold.fits
  obtain ⟨hnone, hsome⟩ := hA.reAlloc (b.mem - 16) b.asked (newSize + 16) s (by rw [hasked]; exact h.listed b hb)
  rw [hasked, toNat_add_metadata hsize] at hsome
  rcases hret : A.reAlloc (b.mem - 16) b.asked (newSize + 16) s with ⟨_ | mem, t⟩
  · rw [hret] at hr hnone
    obtain ⟨rfl, rfl⟩ := Prod.mk.inj (Option.some.inj hr)
    obtain ⟨hperm, hram⟩ := hnone rfl
    exact ⟨h.keep (List.Sublist.refl _) h.listed (fun u hu => hperm.mem_iff.mpr hu) hram, fun _ heq => by cases heq⟩
  · rw [hret] at hr hsome
    obtain ⟨rfl, rfl⟩ := Prod.mk.inj (Option.some.inj hr)
    obtain ⟨⟨hperm, hapart⟩, hram, hcopy⟩ := hsome mem rfl
    have hothers (c : Block) (hc : c ∈ live.erase b) := (h.others hb hc).2
    have hkept : Sound A blocks t (live.erase b) := h.keep (List.erase_sublist ..) hothers
      (fun u hu => hperm.mem_iff.mpr (List.mem_cons_of_mem _ hu)) hram
    have hlabel : Labelled A t mem b.size := htold.labelled.congr fun i hi => hcopy i (by omega)
    refine ⟨hkept.label hsize hothers (hperm.mem_iff.mpr (List.mem_cons_self ..)) hapart rfl hlabel.setMetaSize
      fun x hx => setMetaSize_ram hx, fun mem' heq i hi => ?_⟩
    obtain rfl := Option.some.inj heq
    have hle := htold.mem_le
    rw [setMetaSize_ram (.inr (by omega)), Nat.add_assoc, hcopy _ (by omega)]
    congr 1
    omega

theorem Sound.dealloc (hA : Lawful A blocks) (h : Sound A blocks s live) (hb : b ∈ live)
    (hr : A.deallocMem (some b.mem) s = some s') : Sound A blocks s' (live.erase b) := by
  have htold := h.told b hb
  rw [deallocMem_eq hA htold] at hr
  obtain rfl := Option.some.inj hr
  have hasked : b.asked.toNat = b.size.toNat + 16 := htold.asked ▸ toNat_add_metadata htold.fits
  obtain ⟨hperm, hram⟩ := hA.dealloc (b.mem - 16) b.asked s (by rw [hasked]; exact h.listed b hb)
  rw [hasked] at hperm hram
  exact h.keep (List.erase_sublist ..) (fun c hc => (h.others hb hc).2) (fun t ht => hperm.mem_iff.mpr ht) hram

/-- A step whose request is for one member, and leaves room for the metadata. -/
def Op.Records : Op → Prop
  | .alloc size => size.toNat + 16 < 2 ^ 32
  | .cAlloc size num => size = 0 ∨ num = 0 ∨ num = 1 ∧ size.toNat + 16 < 2 ^ 32
  | .reAlloc _ newSize => newSize.toNat + 16 < 2 ^ 32
  | .dealloc _ | .write _ _ => True

theorem Sound.step {op : Op} {live' : List Block} (hA : Lawful A blocks) (h : Sound A blocks s live) (hop : op.Records)
    (hs : Step A s live op s' live') : Sound A blocks s' live' := by
  cases hs with
  | alloc => exact h.allocMem hA hop
  | cAlloc _ size num =>
    unfold Allocator.cAllocMem
    split
    · exact h
    · rename_i hne
      rcases hop with hz | hz | ⟨rfl, hsize⟩
      · exact absurd (.inl hz) hne
      · exact absurd (.inr hz) hne
      · have hone : size * 1 = size := BitVec.mul_one size
        rw [hone]
        exact h.handed hsize (hA.cAlloc _ s).1 (hA.cAlloc _ s).2
  | reAllocNull => exact h.allocMem hA hop
  | reAlloc hb hr => exact (h.reAlloc hA hb hop hr).1
  | deallocNull => exact h
  | dealloc hb hr => exact h.dealloc hA hb hr
  | @write _ b i hb hi v =>
    -- the byte lies behind the metadata of its block, and outside the other blocks
    have hmem := (h.told b hb).mem_le
    refine ⟨fun c hc => (h.told c hc).congr fun x h1 h2 => ?_, h.listed, h.apart⟩
    have hx : x ≠ b.mem + i := by
      rintro rfl
      by_cases hcb : c = b
      · subst hcb
        simp only [Block.span] at h2
        omega
      · have hd := (h.others hb ((List.mem_erase_of_ne hcb).mpr hc)).1 (b.mem + i)
        simp only [Span.hit_eq_zero, Span.stop, Block.span] at hd h1 h2
        omega
    exact Function.update_of_ne hx _ _

theorem Run.sound {s₀ : AllocState σ} {ops : List Op} (hA : Lawful A blocks) (hrun : Run A s₀ ops s live)
    (hops : ∀ op ∈ ops, op.Records) : Sound A blocks s live := by
  induction hrun with
  | nil => exact ⟨by simp, by simp, .nil⟩
  | snoc _ hs ih =>
    refine (ih fun op hop => hops op (List.mem_append_left _ hop)).step hA (hops _ ?_) hs
    exact List.mem_append_right _ (List.mem_singleton_self _)

/-! ### An allocator that goes up -/

/-- The first address behind some blocks, the first of which is behind the first page. -/
def top : List Span → Nat
  | [] => 4096
  | t :: spans => max t.stop (top spans)

theorem stop_le_top {spans : List Span} {t : Span} (ht : t ∈ spans) : t.stop ≤ top spans := by
  induction spans with
  | nil => cases ht
  | cons u spans ih =>
    rcases List.mem_cons.mp ht with rfl | ht
    · exact Nat.le_max_left ..
    · exact Nat.le_trans (ih ht) (Nat.le_max_right ..)

theorem disjoint_top {spans rest : List Span} {n : Nat} (hrest : ∀ t ∈ rest, t ∈ spans) :
    ∀ t ∈ rest, Span.Disjoint ⟨top spans, n⟩ t := by
  intro t ht x
  have hle := stop_le_top (hrest t ht)
  simp only [Span.hit_eq_zero]
  omega

theorem keeps_top {spans rest : List Span} {ram : Ram} {bs : List U8} (hrest : ∀ t ∈ rest, t ∈ spans) :
    Keeps rest ram (ram.store (top spans) bs) := fun t ht _ _ hx =>
  Ram.store_of_lt (Nat.lt_of_lt_of_le hx (stop_le_top (hrest t ht)))

/-- An allocator whose blocks follow one another. -/
def upward : Allocator (List Span) where
  addr := 1
  id := 1
  alloc n s := (some (top s.own), { s with own := ⟨top s.own, n.toNat⟩ :: s.own })
  cAlloc num n s := (some (top s.own),
    { ram := s.ram.store (top s.own) (List.replicate (num * n).toNat 0), own := ⟨top s.own, (num * n).toNat⟩ :: s.own })
  reAlloc mem orig n s := (some (top s.own),
    { ram := s.ram.store (top s.own) (s.ram.load mem (min orig.toNat n.toNat))
      own := ⟨top s.own, n.toNat⟩ :: s.own.erase ⟨mem, orig.toNat⟩ })
  dealloc mem n s := { s with own := s.own.erase ⟨mem, n.toNat⟩ }

theorem lawful_upward : Lawful upward fun spans => spans where
  addr := by decide
  alloc n s := ⟨⟨List.Perm.refl _, disjoint_top fun _ h => h⟩, fun _ _ _ _ _ => rfl⟩
  cAlloc n s := by
    have hone : (1 : U32) * n = n := BitVec.one_mul n
    simp only [upward, hone]
    exact ⟨⟨List.Perm.refl _, disjoint_top fun _ h => h⟩, keeps_top fun _ h => h⟩
  reAlloc mem orig n s h := by
    refine ⟨fun hnone => (by cases hnone), fun mem' heq => ?_⟩
    obtain rfl := Option.some.inj heq
    refine ⟨⟨List.Perm.refl _, disjoint_top fun _ h => List.mem_of_mem_erase h⟩, keeps_top fun _ h => List.mem_of_mem_erase h,
      fun i hi => ?_⟩
    simp only [upward, Ram.store, Ram.load]
    simp [hi]
  dealloc mem n s h := ⟨List.Perm.refl _, fun _ _ _ _ _ => rfl⟩

end Allocator

/-- As long as no request is for more than one member, or so large that the metadata does not fit, what is recorded of a
    block is what was requested, resizing keeps its bytes, and the allocator gets back the size that it was asked for. -/
theorem Allocator.run_tells {σ : Type} {A : Allocator σ} {blocks : σ → List Span} {s₀ s : AllocState σ} {ops : List Op}
    {live : List Block} (hA : Lawful A blocks) (hrun : Run A s₀ ops s live) (hops : ∀ op ∈ ops, op.Records) :
    ∀ b ∈ live, s.metaSize (b.mem - 16) = b.size ∧
      (∀ newSize mem s', newSize.toNat + 16 < 2 ^ 32 → A.reAllocMem (some b.mem) newSize s = some (some mem, s') →
        ∀ i < min b.size.toNat newSize.toNat, s'.ram (mem + i) = s.ram (b.mem + i)) ∧
      A.deallocMem (some b.mem) s = some (A.dealloc (b.mem - 16) b.asked s) := by
  intro b hb
  have h := hrun.sound hA hops
  exact ⟨(h.told b hb).labelled.metaSize, fun newSize mem s' hsize hr => (h.reAlloc hA hb hsize hr).2 mem rfl,
    deallocMem_eq hA (h.told b hb)⟩

/-- A block of five bytes -/
theorem Allocator.run_tells_five : ∃ s live, Run upward ⟨fun _ => 0, []⟩ [.alloc 5] s live ∧
    live = [⟨4112, 5, 21⟩] ∧ s.metaSize 4096 = 5 := by
  have hrun : Run upward ⟨fun _ => 0, []⟩ [.alloc 5] _ _ := .snoc .nil (.alloc _ [] 5)
  have htells := run_tells lawful_upward hrun (by simp [Op.Records]) ⟨4112, 5, 21⟩ (by decide)
  exact ⟨_, _, hrun, by decide, htells.1⟩

/-- A block of four members of eight bytes is recorded as one of eight. -/
theorem Allocator.count_not_recorded : ¬∀ (ops : List Op) (s : AllocState (List Span)) (live : List Block),
    Run upward ⟨fun _ => 0, []⟩ ops s live → ∀ b ∈ live, s.metaSize (b.mem - 16) = b.size := by
  intro hall
  have hrun : Run upward ⟨fun _ => 0, []⟩ [.cAlloc 8 4] _ _ := .snoc .nil (.cAlloc _ [] 8 4)
  exact absurd (hall _ _ _ hrun ⟨4112, 32, 48⟩ (by decide)) (by decide)

end Cyntatic
