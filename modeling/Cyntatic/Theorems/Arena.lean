import Cyntatic.Theorems.HeapTiling
import Cyntatic.Util.Arena

/-! The arena allocator hands out slices of its regions, each from where the one before ends. -/

namespace Cyntatic
open Library

namespace Arena
variable {arena : Arena} {given : List Given} {data p : Nat} {size : U32} {r r' : ArenaRegion}
  {regions regions' : List ArenaRegion}

/-! ### Sizes -/

theorem cynAlign_eight (size : U32) : (cynAlign size 8).toNat = (size.toNat + 7) % 2 ^ 32 / 8 * 8 := 
  cynAlign_toNat (a := 8) (k := 3) size rfl

theorem dvd_cynAlign : 8 ∣ (cynAlign size 8).toNat := by
  rw [cynAlign_eight]
  exact Nat.dvd_mul_left ..

theorem le_cynAlign_eight (hle : size.toNat ≤ 2 ^ 31) : size.toNat ≤ (cynAlign size 8).toNat := by
  rw [cynAlign_eight]
  omega

/-! ### One request -/

/-- What a request does to a region that has room for it. -/
structure Slices (size : U32) (r r' : ArenaRegion) : Prop where
  data_eq : r'.data = r.data
  size_eq : r'.size = r.size
  current_eq : r.current ≤ r.size → r'.current.toNat = r.current.toNat + size.toNat ∧ r'.current ≤ r'.size

theorem slices_of_slice (h : r.slice size = some (p, r')) : p = r.data + r.current.toNat ∧ Slices size r r' := by
  unfold ArenaRegion.slice at h
  split at h
  · rename_i hfit
    obtain ⟨rfl, rfl⟩ := Prod.mk.inj (Option.some.inj h)
    refine ⟨rfl, rfl, rfl, fun hle => ?_⟩
    bv_omega
  · cases h

/-- The region that the loop finds, among the others. -/
theorem firstFit_split (h : firstFit size regions = some (p, regions')) : ∃ pre r r' post,
    regions = pre ++ r :: post ∧ regions' = pre ++ r' :: post ∧ p = r.data + r.current.toNat ∧ Slices size r r' := by
  induction regions generalizing p regions' with
  | nil => cases h
  | cons r regions ih =>
    rw [firstFit] at h
    split at h
    · rename_i q r' hslice
      obtain ⟨rfl, rfl⟩ := Prod.mk.inj (Option.some.inj h)
      obtain ⟨hp, hslices⟩ := slices_of_slice hslice
      exact ⟨[], r, r', regions, rfl, rfl, hp, hslices⟩
    · obtain ⟨x, hx, heq⟩ := Option.map_eq_some_iff.mp h
      obtain ⟨rfl, rfl⟩ := Prod.mk.inj heq
      obtain ⟨pre, s, s', post, hregions, hx', hp, hslices⟩ := ih hx
      exact ⟨r :: pre, s, s', post, by rw [hregions, List.cons_append], by rw [hx', List.cons_append], hp, hslices⟩

/-- The first bytes of a new region. -/
theorem slices_newRegion {allocs : U32} : Slices size (newRegion data (arena.newSize size))
    { newRegion data (arena.newSize size) with current := (newRegion data (arena.newSize size)).current + size, allocs } where
  data_eq := rfl
  size_eq := rfl
  current_eq _ := by
    have hle : size ≤ arena.newSize size := by
      unfold newSize
      dsimp only
      split
      · rename_i hlt
        exact BitVec.le_of_lt hlt
      · exact BitVec.le_refl _
    have hzero : (0 : U32) + size = size := BitVec.zero_add size
    change (0 + size).toNat = 0 + size.toNat ∧ 0 + size ≤ arena.newSize size
    rw [hzero, Nat.zero_add]
    exact ⟨rfl, hle⟩

/-- A request takes a slice of one of the regions, which may be new. -/
theorem alloc_split (arena : Arena) (data : Nat) (size : U32) : ∃ pre r r' post,
    (arena.regions = pre ++ r :: post ∨ firstFit (cynAlign size 8) arena.regions = none ∧
      r = newRegion data (arena.newSize (cynAlign size 8)) ∧ pre = arena.regions ∧ post = []) ∧
    (arena.alloc data size).2.regions = pre ++ r' :: post ∧
    (arena.alloc data size).1 = r.data + r.current.toNat ∧ Slices (cynAlign size 8) r r' := by
  unfold alloc
  dsimp only
  cases hfit : firstFit (cynAlign size 8) arena.regions with
  | some x =>
    obtain ⟨pre, r, r', post, hregions, hx, hp, hslices⟩ := firstFit_split hfit
    exact ⟨pre, r, r', post, .inl hregions, hx, hp, hslices⟩
  | none =>
    exact ⟨arena.regions, _, _, [], .inr ⟨rfl, rfl, rfl, rfl⟩, rfl, rfl, slices_newRegion⟩

/-! ### The invariant -/

/-- A range lies in what a region has handed out. -/
def Given.In (g : Given) (r : ArenaRegion) : Prop :=
  r.data ≤ g.start ∧ g.span.stop ≤ r.data + r.current.toNat ∧ 8 ∣ g.start - r.data

/-- The ranges that were given are apart, and lie in what the regions have handed out. -/
structure Sound (regions : List ArenaRegion) (given : List Given) : Prop where
  current : ∀ r ∈ regions, r.current ≤ r.size ∧ 8 ∣ r.current.toNat
  apart : regions.Pairwise fun r s => (block r).Disjoint (block s)
  inside : ∀ g ∈ given, ∃ r ∈ regions, g.In r
  disjoint : given.Pairwise fun g g' => g.span.Disjoint g'.span

theorem Sound.addRegion (h : Sound regions given) (hr : ∀ s ∈ regions, (block s).Disjoint (block (newRegion data size))) :
    Sound (regions ++ [newRegion data size]) given where
  current r hmem := by
    rcases List.mem_append.mp hmem with hmem | hmem
    · exact h.current r hmem
    · obtain rfl := List.mem_singleton.mp hmem
      exact ⟨Nat.zero_le _, Nat.dvd_zero 8⟩
  apart := List.pairwise_append.mpr ⟨h.apart, List.pairwise_singleton .., fun s hs t ht => List.mem_singleton.mp ht ▸ hr s hs⟩
  inside g hg := by
    obtain ⟨r, hmem, hin⟩ := h.inside g hg
    exact ⟨r, List.mem_append_left _ hmem, hin⟩
  disjoint := h.disjoint

/-- A range lies in the block of its region. -/
theorem Given.In.block {g : Given} (hin : g.In r) (hle : r.current ≤ r.size) :
    (block r).start ≤ g.span.start ∧ g.span.stop ≤ (block r).stop :=
  ⟨hin.1, Nat.le_trans hin.2.1 (Nat.add_le_add_left hle _)⟩

theorem block_eq (hs : Slices size r r') : block r' = block r := by
  rw [block, block, hs.data_eq, hs.size_eq]

/-- A range that is given out of a region is apart from those that were given before. -/
theorem Sound.slice {pre post : List ArenaRegion} {req : U32} (h : Sound (pre ++ r :: post) given)
    (hs : Slices (cynAlign req 8) r r') :
    Sound (pre ++ r' :: post) (given ++ [⟨req, r.data + r.current.toNat⟩]) := by
  have hmem : r ∈ pre ++ r :: post := List.mem_append_right _ (List.mem_cons_self ..)
  obtain ⟨hle, hdvd⟩ := h.current r hmem
  obtain ⟨hcur, hcur'⟩ := hs.current_eq hle
  have hnew : (⟨req, r.data + r.current.toNat⟩ : Given).In r' := by
    refine ⟨?_, ?_, ?_⟩
    · rw [hs.data_eq]
      exact Nat.le_add_right ..
    · rw [hs.data_eq, hcur, ← Nat.add_assoc]
      exact Nat.le_refl _
    · rw [hs.data_eq]
      change 8 ∣ r.data + r.current.toNat - r.data
      rwa [Nat.add_sub_cancel_left]
  refine ⟨fun s hsmem => ?_, ?_, fun g hg => ?_, List.pairwise_append.mpr ⟨h.disjoint, List.pairwise_singleton .., ?_⟩⟩
  · rcases List.mem_append.mp hsmem with hpre | hpost
    · exact h.current s (List.mem_append_left _ hpre)
    · rcases List.mem_cons.mp hpost with rfl | hpost
      · exact ⟨hcur', hcur ▸ Nat.dvd_add hdvd dvd_cynAlign⟩
      · exact h.current s (List.mem_append_right _ (List.mem_cons_of_mem _ hpost))
  · have hblocks : (pre ++ r' :: post).map Arena.block = (pre ++ r :: post).map Arena.block := by
      rw [List.map_append, List.map_append, List.map_cons, List.map_cons, block_eq hs]
    rw [← List.pairwise_map (f := Arena.block) (R := Span.Disjoint), hblocks, List.pairwise_map]
    exact h.apart
  · rcases List.mem_append.mp hg with hg | hg
    · obtain ⟨s, hsmem, hin⟩ := h.inside g hg
      rcases List.mem_append.mp hsmem with hpre | hpost
      · exact ⟨s, List.mem_append_left _ hpre, hin⟩
      · rcases List.mem_cons.mp hpost with rfl | hpost
        · refine ⟨r', List.mem_append_right _ (List.mem_cons_self ..), ?_⟩
          obtain ⟨h1, h2, h3⟩ := hin
          refine ⟨hs.data_eq ▸ h1, ?_, hs.data_eq ▸ h3⟩
          rw [hs.data_eq, hcur]
          exact Nat.le_trans h2 (by omega)
        · exact ⟨s, List.mem_append_right _ (List.mem_cons_of_mem _ hpost), hin⟩
    · obtain rfl := List.mem_singleton.mp hg
      exact ⟨r', List.mem_append_right _ (List.mem_cons_self ..), hnew⟩
  · intro g hg g' hg'
    obtain rfl := List.mem_singleton.mp hg'
    obtain ⟨s, hsmem, hin⟩ := h.inside g hg
    have hsblock := hin.block (h.current s hsmem).1
    have hrblock := block_eq hs ▸ hnew.block hcur'
    -- the region that the range lies in is this one, or one apart from it
    have hapart : (Arena.block s).Disjoint (Arena.block r) →
        g.span.Disjoint (⟨req, r.data + r.current.toNat⟩ : Given).span := fun hd =>
      ((hd.mono hsblock.1 hsblock.2).symm.mono hrblock.1 hrblock.2).symm
    obtain ⟨-, hpost', hpre'⟩ := List.pairwise_append.mp h.apart
    rcases List.mem_append.mp hsmem with hpre | hpost
    · exact hapart (hpre' s hpre r (List.mem_cons_self ..))
    · rcases List.mem_cons.mp hpost with rfl | hpost
      · intro x
        have hstop := hin.2.1
        simp only [Span.hit_eq_zero]
        change (x < g.span.start ∨ g.span.stop ≤ x) ∨ (x < s.data + s.current.toNat ∨ _)
        omega
      · exact hapart ((List.rel_of_pairwise_cons hpost' hpost).symm)

theorem Run.sound (h : Run arena given) : Sound arena.regions given := by
  induction h with
  | init data size =>
    have hempty : Sound ([] : List ArenaRegion) [] := ⟨by simp, .nil, by simp, .nil⟩
    exact hempty.addRegion (by simp)
  | @alloc arena given data size _ hpos hle hblock ih =>
    obtain ⟨pre, r, r', post, hregions, hafter, hstart, hslices⟩ := alloc_split arena data size
    rw [hafter, hstart]
    rcases hregions with hregions | ⟨hnone, rfl, rfl, rfl⟩
    · exact (hregions ▸ ih).slice hslices
    · exact (ih.addRegion (hblock hnone)).slice hslices

theorem Run.le (h : Run arena given) : ∀ g ∈ given, g.size.toNat ≤ 2 ^ 31 := by
  induction h with
  | init => simp
  | alloc _ _ hle _ ih =>
    intro g hg
    rcases List.mem_append.mp hg with hg | hg
    · exact ih g hg
    · rw [List.mem_singleton.mp hg]
      exact hle

end Arena

/-- The ranges that an arena gives out lie each in a region, at a multiple of eight, and apart from each other; and no
    region gives out more than it has. -/
theorem Arena.run_apart {arena : Arena} {given : List Given} (h : Run arena given) :
    (∀ g ∈ given, g.size.toNat ≤ g.span.size ∧ ∃ r ∈ arena.regions,
      (block r).start ≤ g.span.start ∧ g.span.stop ≤ (block r).stop ∧ 8 ∣ g.start - r.data) ∧
    (given.Pairwise fun g g' => g.span.Disjoint g'.span) ∧ ∀ r ∈ arena.regions, r.current ≤ r.size := by
  refine ⟨fun g hg => ?_, h.sound.disjoint, fun r hr => (h.sound.current r hr).1⟩
  obtain ⟨r, hr, hin⟩ := h.sound.inside g hg
  obtain ⟨h1, h2⟩ := hin.block (h.sound.current r hr).1
  exact ⟨le_cynAlign_eight (h.le g hg), r, hr, h1, h2, hin.2.2⟩

/-- Two requests, the second of which needs a new region. -/
theorem Arena.run_apart_two : ∃ arena given, Run arena given ∧ given.map (·.start) = [4096, 8192] ∧
    (given.Pairwise fun g g' => g.span.Disjoint g'.span) ∧ ∀ r ∈ arena.regions, r.current ≤ r.size := by
  have hroom : firstFit (cynAlign 5 8) (init 4096 16).regions ≠ none := by decide
  have hfirst : Run ((init 4096 16).alloc 0 5).2 ([] ++ [⟨5, ((init 4096 16).alloc 0 5).1⟩]) :=
    (Run.init 4096 16).alloc (by decide) (by decide) fun hnone => absurd hnone hroom
  have hregion : ((init 4096 16).alloc 0 5).2.regions = [⟨4096, 16, 1, 8⟩] := by decide
  have hsize : ((init 4096 16).alloc 0 5).2.newSize (cynAlign 8 8) = 16 := by decide
  have hsecond : Run (((init 4096 16).alloc 0 5).2.alloc 8192 8).2 _ := hfirst.alloc (by decide) (by decide) fun _ r hr x => by
    rw [hregion] at hr
    rw [List.mem_singleton.mp hr, hsize, Span.hit_eq_zero, Span.hit_eq_zero]
    change (x < 4096 ∨ 4096 + 16 ≤ x) ∨ (x < 8192 ∨ _)
    omega
  obtain ⟨-, hapart, hcurrent⟩ := run_apart hsecond
  exact ⟨_, _, hsecond, by decide, hapart, hcurrent⟩

end Cyntatic
