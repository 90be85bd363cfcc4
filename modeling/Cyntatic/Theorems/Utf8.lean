import Cyntatic.Compiler.Lexer
import Cyntatic.Vm.Execute
import Mathlib.Data.List.GetD

/-! # UTF-8

What `Stream_putUtf8` writes for a code point below `0x200000` is what `Lexer_readRune` reads, and the ones that the
first byte starts with are the length. -/

namespace Cyntatic
open Library

/-! ### The bits of a code point -/

/-- The bits from a place on are those from six places further on and the six between. -/
theorem shiftRight_rejoin (c : U32) (n : Nat) : (c >>> (n + 6)) <<< 6 ||| (c >>> n &&& 0x3F) = c >>> n := by
  refine BitVec.eq_of_getLsbD_eq fun i hi => ?_
  have hlow : ∀ i < 32, (0x3F : U32).getLsbD i = decide (i < 6) := by decide
  rw [BitVec.getLsbD_or, BitVec.getLsbD_shiftLeft, BitVec.getLsbD_and, hlow i hi]
  simp only [BitVec.getLsbD_ushiftRight]
  by_cases hsix : i < 6
  · simp [hsix]
  · simp [hsix, hi, show n + 6 + (i - 6) = n + i by omega]

/-- The six bits from a place on, as a byte. -/
def sixBits (c : U32) (n : Nat) : U8 := (c >>> n &&& 0x3F).setWidth 8

theorem toNat_sixBits (c : U32) (n : Nat) : (sixBits c n).toNat = (c >>> n &&& 0x3F).toNat ∧ (sixBits c n).toNat < 0x40 := by
  have hle : (c >>> n &&& 0x3F).toNat ≤ 0x3F := by
    rw [BitVec.toNat_and]
    exact Nat.and_le_right
  have heq : (sixBits c n).toNat = (c >>> n &&& 0x3F).toNat := by
    rw [sixBits, BitVec.toNat_setWidth]
    exact Nat.mod_eq_of_lt (by omega)
  exact ⟨heq, by omega⟩

theorem setWidth_sixBits (c : U32) (n : Nat) : (sixBits c n).setWidth 32 = c >>> n &&& 0x3F := by
  refine BitVec.eq_of_toNat_eq ?_
  rw [BitVec.toNat_setWidth, (toNat_sixBits c n).1]
  exact Nat.mod_eq_of_lt (c >>> n &&& 0x3F).isLt

/-! ### Bytes -/

/-- A byte that goes on with a character. -/
theorem continuation_spec : ∀ y : U8, y < 0x40 → (0x80 ||| y) &&& 0xC0 = 0x80 ∧ (0x80 ||| y) &&& 0x3F = y := by
  decide +kernel

theorem lead_one : ∀ y : U8, y < 0x80 → clz y = 0 := by decide +kernel

theorem lead_two : ∀ y : U8, y < 0x20 → clz (0xC0 ||| y) = 2 ∧ (0xC0 ||| y) &&& 0x1F = y := by decide +kernel

theorem lead_three : ∀ y : U8, y < 0x10 → clz (0xE0 ||| y) = 3 ∧ (0xE0 ||| y) &&& 0xF = y := by decide +kernel

theorem lead_four : ∀ y : U8, y < 0x08 → clz (0xF0 ||| y) = 4 ∧ (0xF0 ||| y) &&& 0x7 = y := by decide +kernel

/-- The bytes of a code point: the six bits of each byte but the first, and what is above them in the first. -/
inductive Encodes (c : U32) : List U8 → Prop
  | one {x : U8} (hx : x < 0x80) (hc : c = x.setWidth 32) : Encodes c [x]
  | two {x y : U8} (hx : x < 0x20) (hy : y < 0x40) (hc : c = x.setWidth 32 <<< 6 ||| y.setWidth 32) :
      Encodes c [0xC0 ||| x, 0x80 ||| y]
  | three {x y z : U8} (hx : x < 0x10) (hy : y < 0x40) (hz : z < 0x40)
      (hc : c = x.setWidth 32 <<< 12 ||| y.setWidth 32 <<< 6 ||| z.setWidth 32) :
      Encodes c [0xE0 ||| x, 0x80 ||| y, 0x80 ||| z]
  | four {x y z w : U8} (hx : x < 0x08) (hy : y < 0x40) (hz : z < 0x40) (hw : w < 0x40)
      (hc : c = x.setWidth 32 <<< 18 ||| y.setWidth 32 <<< 12 ||| z.setWidth 32 <<< 6 ||| w.setWidth 32) :
      Encodes c [0xF0 ||| x, 0x80 ||| y, 0x80 ||| z, 0x80 ||| w]

theorem Encodes.length_pos {c : U32} {bs : List U8} (h : Encodes c bs) : 0 < bs.length := by
  cases h <;> exact Nat.succ_pos _

theorem setWidth_head {c : U32} {n : Nat} (h : c.toNat < 2 ^ (n + 8)) :
    ((c >>> n).setWidth 8).setWidth 32 = c >>> n ∧ ((c >>> n).setWidth 8).toNat = c.toNat / 2 ^ n := by
  have hdiv : c.toNat / 2 ^ n < 2 ^ 8 := Nat.div_lt_of_lt_mul (by rwa [← Nat.pow_add])
  have hnat : ((c >>> n).setWidth 8).toNat = c.toNat / 2 ^ n := by
    rw [BitVec.toNat_setWidth, BitVec.toNat_ushiftRight, Nat.shiftRight_eq_div_pow]
    exact Nat.mod_eq_of_lt hdiv
  refine ⟨BitVec.eq_of_toNat_eq ?_, hnat⟩
  rw [BitVec.toNat_setWidth, hnat, BitVec.toNat_ushiftRight, Nat.shiftRight_eq_div_pow]
  exact Nat.mod_eq_of_lt (by omega)

/-- The same, further to the left. -/
theorem shiftRight_rejoin_shift (c : U32) (n k : Nat) :
    (c >>> (n + 6)) <<< (6 + k) ||| (c >>> n &&& 0x3F) <<< k = (c >>> n) <<< k := by
  rw [BitVec.shiftLeft_add, ← BitVec.shiftLeft_or_distrib, shiftRight_rejoin]

/-- What is written for a code point. -/
theorem exists_encodes {c : U32} (h : c < 0x200000) : ∃ bs, putUtf8 c = some bs ∧ Encodes c bs := by
  have hlow (n : Nat) : sixBits c n < 0x40 := (toNat_sixBits c n).2
  have hlast : sixBits c 0 = (c &&& 0x3F).setWidth 8 := by rw [sixBits, BitVec.ushiftRight_zero]
  have hzero : (c >>> 6) <<< 6 ||| (sixBits c 0).setWidth 32 = c := by
    rw [setWidth_sixBits, ← Nat.zero_add 6, shiftRight_rejoin, BitVec.ushiftRight_zero]
  have hthird : (c >>> 12) <<< 12 ||| (sixBits c 6).setWidth 32 <<< 6 ||| (sixBits c 0).setWidth 32 = c := by
    rw [setWidth_sixBits c 6, shiftRight_rejoin_shift c 6 6, hzero]
  have hfourth : (c >>> 18) <<< 18 ||| (sixBits c 12).setWidth 32 <<< 12 ||| (sixBits c 6).setWidth 32 <<< 6 |||
      (sixBits c 0).setWidth 32 = c := by
    rw [setWidth_sixBits c 12, shiftRight_rejoin_shift c 12 12, hthird]
  unfold putUtf8
  split
  · rename_i hone
    have hc : c.toNat < 0x80 := hone
    obtain ⟨hhead, hnat⟩ := setWidth_head (c := c) (n := 0) (by omega)
    rw [BitVec.ushiftRight_zero] at hhead hnat
    exact ⟨_, rfl, .one (show (c.setWidth 8).toNat < 0x80 by omega) hhead.symm⟩
  · split
    · rename_i htwo
      have hc : c.toNat < 0x800 := htwo
      obtain ⟨hhead, hnat⟩ := setWidth_head (c := c) (n := 6) (by omega)
      refine ⟨_, rfl, ?_⟩
      rw [BitVec.setWidth_or, BitVec.setWidth_or, ← hlast]
      refine .two (show ((c >>> 6).setWidth 8).toNat < 0x20 by omega) (hlow 0) ?_
      rw [hhead, hzero]
    · split
      · rename_i hthree
        have hc : c.toNat < 0x10000 := hthree
        obtain ⟨hhead, hnat⟩ := setWidth_head (c := c) (n := 12) (by omega)
        refine ⟨_, rfl, ?_⟩
        rw [BitVec.setWidth_or, BitVec.setWidth_or, BitVec.setWidth_or, ← hlast]
        refine .three (show ((c >>> 12).setWidth 8).toNat < 0x10 by omega) (hlow 6) (hlow 0) ?_
        rw [hhead]
        exact hthird.symm
      · have hc : c.toNat < 0x200000 := h
        obtain ⟨hhead, hnat⟩ := setWidth_head (c := c) (n := 18) (by omega)
        refine ⟨_, rfl, ?_⟩
        rw [BitVec.setWidth_or, BitVec.setWidth_or, BitVec.setWidth_or, BitVec.setWidth_or, ← hlast]
        refine .four (show ((c >>> 18).setWidth 8).toNat < 0x08 by omega) (hlow 12) (hlow 6) (hlow 0) ?_
        rw [hhead]
        exact hfourth.symm

/-- The machine writes the same bytes. -/
theorem VmM.returns_putUtf8Chr {c : U32} {bs : List U8} {vm : Vm} (h : putUtf8 c = some bs) :
    Prog.Returns (putUtf8Chr c) vm () { vm with stdout := vm.stdout ++ [.bytes bs] } := by
  have hlow (k : Nat) : BitVec.ofNat 8 (0x80 ||| (c.toNat >>> k &&& 0x3F)) = (0x80 ||| c >>> k &&& 0x3F).setWidth 8 := by
    refine BitVec.eq_of_toNat_eq ?_
    rw [BitVec.toNat_setWidth, BitVec.toNat_or, BitVec.toNat_and, BitVec.toNat_ushiftRight, BitVec.toNat_ofNat]
    rfl
  have hlast : BitVec.ofNat 8 (0x80 ||| (c.toNat >>> 0 &&& 0x3F)) = (0x80 ||| c &&& 0x3F).setWidth 8 := by
    rw [hlow, BitVec.ushiftRight_zero]
  have hlead {t : Nat} (ht : t < 2 ^ 32) (k : Nat) :
      BitVec.ofNat 8 (t ||| c.toNat >>> k) = (BitVec.ofNat 32 t ||| c >>> k).setWidth 8 := by
    refine BitVec.eq_of_toNat_eq ?_
    rw [BitVec.toNat_ofNat, BitVec.toNat_setWidth, BitVec.toNat_or, BitVec.toNat_ofNat, Nat.mod_eq_of_lt ht,
      BitVec.toNat_ushiftRight]
  unfold putUtf8Chr
  dsimp only
  rw [hlow 6, hlow 12, hlast, hlead (t := 0xC0) (by decide), hlead (t := 0xE0) (by decide), hlead (t := 0xF0) (by decide)]
  unfold putUtf8 at h
  split at h
  · rename_i hone
    obtain rfl := Option.some.inj h
    rw [if_pos (show c.toNat < 0x80 from hone)]
    exact Prog.returns_modify.mpr rfl
  · rename_i hone
    rw [if_neg (show ¬c.toNat < 0x80 from hone)]
    split at h
    · rename_i htwo
      obtain rfl := Option.some.inj h
      rw [if_pos (show c.toNat < 0x800 from htwo)]
      exact Prog.returns_modify.mpr rfl
    · rename_i htwo
      rw [if_neg (show ¬c.toNat < 0x800 from htwo)]
      split at h
      · rename_i hthree
        obtain rfl := Option.some.inj h
        rw [if_pos (show c.toNat < 0x10000 from hthree)]
        exact Prog.returns_modify.mpr rfl
      · rename_i hthree
        rw [if_neg (show ¬c.toNat < 0x10000 from hthree)]
        split at h
        · rename_i hfour
          obtain rfl := Option.some.inj h
          rw [if_pos (show c.toNat < 0x200000 from hfour)]
          exact Prog.returns_modify.mpr rfl
        · cases h

/-! ### Reading -/

namespace LexM
open Prog
variable {c : U32} {bs pre post : List U8} {lX : Lexer} {coord : LineColumn}

/-- The byte of a text at a place of what stands in it. -/
theorem getD_middle {i : Nat} (h : i < bs.length) :
    (pre ++ (bs ++ post)).getD (pre.length + i) eofChar = bs.getD i eofChar := by
  rw [List.getD_append_right _ _ _ _ (Nat.le_add_right _ _), Nat.add_sub_cancel_left, List.getD_append _ _ _ _ h]

theorem returns_readContinuation {range : Range} {n i : Nat}
    (h : ∀ j < n, range.source.getD (range.start + (i + j)) eofChar &&& 0xC0 = 0x80) :
    Returns (readContinuation range n i) lX () lX := by
  induction n generalizing i with
  | zero => exact returns_pure.mpr ⟨rfl, rfl⟩
  | succ n ih =>
    have hfirst := h 0 (Nat.zero_lt_succ n)
    rw [Nat.add_zero] at hfirst
    unfold readContinuation
    dsimp only
    rw [if_neg (not_not.mpr hfirst)]
    refine ih fun j hj => ?_
    rw [Nat.add_right_comm i 1 j]
    exact h (j + 1) (Nat.succ_lt_succ hj)

theorem returns_failIf {p : Prop} [Decidable p] {range : Range} {fmt : String} {args : List DiagnosticArg} (h : ¬p) :
    Returns (failIf p range fmt args) lX () lX := by
  rw [failIf, if_neg h]
  exact returns_pure.mpr ⟨rfl, rfl⟩

/-- The bytes after the first one are checked. -/
theorem returns_tail {stop : Nat} (htail : ∀ b ∈ bs.tail, b &&& 0xC0 = 0x80) :
    Returns (readContinuation ⟨pre.length, stop, coord, pre ++ (bs ++ post)⟩ (bs.length - 1) 1) lX () lX := by
  refine returns_readContinuation fun j hj => ?_
  have hlt : 1 + j < bs.length := by omega
  rw [getD_middle hlt, List.getD_eq_getElem _ _ hlt]
  exact htail _ (List.getElem_mem_tail bs (by omega) hlt)

/-- The bytes of a code point are read, and no error is written. -/
theorem returns_readRune (h : Encodes c bs) :
    max 1 (clz ((pre ++ (bs ++ post)).getD pre.length eofChar)) = bs.length ∧
      Returns (readRune ⟨pre.length, pre.length + bs.length, coord, pre ++ (bs ++ post)⟩) lX (bs.length, c) lX := by
  have hget (i : Nat) (hi : i < bs.length) := @getD_middle bs pre post i hi
  have hsize : pre.length + bs.length - pre.length = bs.length := Nat.add_sub_cancel_left _ _
  unfold readRune
  cases h with
  | @one x hx hc =>
    have h0 := hget 0 Nat.one_pos
    simp only [Nat.add_zero, List.getD_cons_zero] at h0
    simp only [h0, lead_one x hx, Nat.add_zero, if_true]
    exact ⟨rfl, returns_pure.mpr ⟨by rw [hc]; rfl, rfl⟩⟩
  | @two x y hx hy hc =>
    have h0 := hget 0 (Nat.succ_pos _)
    have h1 := hget 1 (Nat.lt_succ_self _)
    obtain ⟨hclz, hmask⟩ := lead_two x hx
    obtain ⟨hconty, hlowy⟩ := continuation_spec y hy
    have htail : ∀ b ∈ ([0xC0 ||| x, 0x80 ||| y] : List U8).tail, b &&& 0xC0 = 0x80 :=
      List.forall_mem_singleton.mpr hconty
    simp only [Nat.add_zero, List.getD_cons_zero, List.getD_cons_succ] at h0 h1
    simp only [h0, h1, hclz, hmask, hlowy, Nat.add_zero]
    refine ⟨rfl, returns_bind.mpr ⟨(), lX, returns_failIf ?_, returns_bind.mpr ⟨(), lX, returns_tail htail, ?_⟩⟩⟩
    · rw [h0, hclz, hsize]
      exact Nat.lt_irrefl _
    · exact returns_pure.mpr ⟨by rw [hc]; rfl, rfl⟩
  | @three x y z hx hy hz hc =>
    have h0 := hget 0 (Nat.succ_pos _)
    have h1 := hget 1 (by simp)
    have h2 := hget 2 (Nat.lt_succ_self _)
    obtain ⟨hclz, hmask⟩ := lead_three x hx
    obtain ⟨hconty, hlowy⟩ := continuation_spec y hy
    obtain ⟨hcontz, hlowz⟩ := continuation_spec z hz
    have htail : ∀ b ∈ ([0xE0 ||| x, 0x80 ||| y, 0x80 ||| z] : List U8).tail, b &&& 0xC0 = 0x80 :=
      List.forall_mem_cons.mpr ⟨hconty, List.forall_mem_singleton.mpr hcontz⟩
    simp only [Nat.add_zero, List.getD_cons_zero, List.getD_cons_succ] at h0 h1 h2
    simp only [h0, h1, h2, hclz, hmask, hlowy, hlowz, Nat.add_zero]
    refine ⟨rfl, returns_bind.mpr ⟨(), lX, returns_failIf ?_, returns_bind.mpr ⟨(), lX, returns_tail htail, ?_⟩⟩⟩
    · rw [h0, hclz, hsize]
      exact Nat.lt_irrefl _
    · exact returns_pure.mpr ⟨by rw [hc]; rfl, rfl⟩
  | @four x y z w hx hy hz hw hc =>
    have h0 := hget 0 (Nat.succ_pos _)
    have h1 := hget 1 (by simp)
    have h2 := hget 2 (by simp)
    have h3 := hget 3 (Nat.lt_succ_self _)
    obtain ⟨hclz, hmask⟩ := lead_four x hx
    obtain ⟨hconty, hlowy⟩ := continuation_spec y hy
    obtain ⟨hcontz, hlowz⟩ := continuation_spec z hz
    obtain ⟨hcontw, hloww⟩ := continuation_spec w hw
    have htail : ∀ b ∈ ([0xF0 ||| x, 0x80 ||| y, 0x80 ||| z, 0x80 ||| w] : List U8).tail, b &&& 0xC0 = 0x80 :=
      List.forall_mem_cons.mpr ⟨hconty, List.forall_mem_cons.mpr ⟨hcontz, List.forall_mem_singleton.mpr hcontw⟩⟩
    simp only [Nat.add_zero, List.getD_cons_zero, List.getD_cons_succ] at h0 h1 h2 h3
    simp only [h0, h1, h2, h3, hclz, hmask, hlowy, hlowz, hloww, Nat.add_zero]
    refine ⟨rfl, returns_bind.mpr ⟨(), lX, returns_failIf ?_, returns_bind.mpr ⟨(), lX, returns_tail htail, ?_⟩⟩⟩
    · rw [h0, hclz, hsize]
      exact Nat.lt_irrefl _
    · exact returns_pure.mpr ⟨by rw [hc]; rfl, rfl⟩

/-- The code points of a text from a place on: the first byte says how many bytes each of them has. -/
def readRunes (source : List U8) : (fuel start : Nat) → LexM (List U32)
  | 0, _ => stop .fuel
  | fuel + 1, start =>
    if source.length ≤ start then return []
    else do
      let len := max 1 (clz (source.getD start eofChar))
      let rune ← readRune { start, stop := start + len, source }
      let runes ← readRunes source fuel (start + len)
      return rune.2 :: runes

theorem returns_readRunes {cs : List U32} {encoded : List (List U8)} {fuel : Nat}
    (h : List.Forall₂ Encodes cs encoded) (hfuel : encoded.flatten.length < fuel) :
    Returns (readRunes (pre ++ encoded.flatten) fuel pre.length) lX cs lX := by
  induction h generalizing pre fuel with
  | nil =>
    obtain ⟨fuel, rfl⟩ : ∃ n, fuel = n + 1 := ⟨fuel - 1, by omega⟩
    rw [readRunes, if_pos (by simp)]
    exact returns_pure.mpr ⟨rfl, rfl⟩
  | @cons c bs cs encoded hc h ih =>
    obtain ⟨fuel, rfl⟩ : ∃ n, fuel = n + 1 := ⟨fuel - 1, by omega⟩
    have hpos := hc.length_pos
    rw [List.flatten_cons, List.length_append] at hfuel
    rw [List.flatten_cons, readRunes, if_neg (by simp only [List.length_append]; omega)]
    obtain ⟨hlen, hrune⟩ := @returns_readRune c bs pre encoded.flatten lX {} hc
    have hrest : Returns (readRunes ((pre ++ bs) ++ encoded.flatten) fuel (pre ++ bs).length) lX cs lX :=
      ih (by omega)
    rw [List.append_assoc, List.length_append] at hrest
    dsimp only
    rw [hlen]
    exact returns_bind.mpr ⟨_, _, hrune, returns_bind.mpr ⟨_, _, hrest, returns_pure.mpr ⟨rfl, rfl⟩⟩⟩

/-- What is written for some code points is read as these, with no error, and the machine writes the same. -/
theorem putUtf8_readRunes {cs : List U32} (h : ∀ c ∈ cs, c < 0x200000) :
    ∃ encoded, cs.mapM putUtf8 = some encoded ∧
      (∀ lX fuel, encoded.flatten.length < fuel → Returns (readRunes encoded.flatten fuel 0) lX cs lX) ∧
      List.Forall₂ (fun c bs => ∀ vm : Vm, Returns (VmM.putUtf8Chr c) vm () { vm with stdout := vm.stdout ++ [.bytes bs] })
        cs encoded := by
  have hall : ∃ encoded, cs.mapM putUtf8 = some encoded ∧ List.Forall₂ Encodes cs encoded ∧
      List.Forall₂ (fun c bs => putUtf8 c = some bs) cs encoded := by
    induction cs with
    | nil => exact ⟨[], rfl, .nil, .nil⟩
    | cons c cs ih =>
      obtain ⟨hc, hcs⟩ := List.forall_mem_cons.mp h
      obtain ⟨bs, hput, hbs⟩ := exists_encodes hc
      obtain ⟨encoded, hputs, hencoded, hputs'⟩ := ih hcs
      exact ⟨bs :: encoded, by rw [List.mapM_cons, hput, hputs]; rfl, .cons hbs hencoded, .cons hput hputs'⟩
  obtain ⟨encoded, hputs, hencoded, hputs'⟩ := hall
  refine ⟨encoded, hputs, fun lX fuel hfuel => ?_, hputs'.imp fun c bs hput vm => VmM.returns_putUtf8Chr hput⟩
  exact @returns_readRunes [] lX cs encoded fuel hencoded hfuel

/-- A code point of each length. -/
theorem putUtf8_readRunes_four : ∃ encoded, [0x41, 0xE9, 0x20AC, 0x1F600].mapM putUtf8 = some encoded ∧
    (∀ lX fuel, encoded.flatten.length < fuel →
      Returns (readRunes encoded.flatten fuel 0) lX [0x41, 0xE9, 0x20AC, 0x1F600] lX) ∧
    List.Forall₂ (fun c bs => ∀ vm : Vm, Returns (VmM.putUtf8Chr c) vm () { vm with stdout := vm.stdout ++ [.bytes bs] })
      [0x41, 0xE9, 0x20AC, 0x1F600] encoded := by
  refine putUtf8_readRunes (List.forall_mem_cons.mpr ⟨by decide, List.forall_mem_cons.mpr ⟨by decide, ?_⟩⟩)
  exact List.forall_mem_cons.mpr ⟨by decide, List.forall_mem_singleton.mpr (by decide)⟩

end LexM

end Cyntatic
