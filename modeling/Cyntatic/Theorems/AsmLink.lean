import Mathlib.Data.BitVec
import Mathlib.Algebra.BigOperators.Group.Finset.Piecewise
import Cyntatic.Library.Layout
import Cyntatic.Theorems.AsmRuns
import Cyntatic.Vm.Run

/-! # The linker

What linking adds to the immediate of every instruction, and where the instructions are in the image. -/

namespace Cyntatic
open Library

/-! ### References -/

/-- The index of the instruction after the label that a reference is to. -/
def AssemblerCtx.target? (as : AssemblerCtx) (patch : Patch) : Option Nat :=
  ((as.findSymbol patch.range.view).filter (·.tag = .label)).map (·.id.toNat)

namespace AsmM
open Prog

theorem Refs.at_cons (k' : Nat) (l : List Nat) (refs : Refs) (k : Nat) :
    Refs.at ((k', l) :: refs) k = if k = k' then l else refs.at k := by
  unfold Refs.at
  rw [List.lookup_cons]
  by_cases h : k = k'
  · simp [h]
  · have hb : (k == k') = false := by simpa using h
    rw [hb, if_neg h]

theorem Refs.at_add (refs : Refs) (id pos k : Nat) :
    (refs.add id pos).at k = refs.at k ++ if k = id then [pos] else [] := by
  induction refs with
  | nil =>
    rw [Refs.add, at_cons]
    rfl
  | cons r refs ih =>
    obtain ⟨k', l⟩ := r
    rw [Refs.add, at_cons]
    split
    · rename_i hid
      rw [at_cons, hid]
      by_cases h : k = id
      · rw [if_pos h, if_pos h, if_pos h]
      · rw [if_neg h, if_neg h, if_neg h, List.append_nil]
    · rename_i hid
      rw [at_cons]
      by_cases h : k = k'
      · rw [if_pos h, if_pos h, if_neg (h ▸ hid), List.append_nil]
      · rw [if_neg h, if_neg h, ih]

theorem logs_collectRefs {patches : List Patch} {refs : Refs} : Logs (collectRefs patches refs) := by
  induction patches generalizing refs with
  | nil => exact logs_pure
  | cons patch patches ih =>
    refine logs_bind logs_get fun as => ?_
    cases as.findSymbol patch.range.view with
    | none => exact logs_bind logs_error fun _ => ih
    | some => exact ih

/-- Without an error every reference is to a symbol, and those to labels are collected. -/
theorem collectRefs_returns {as as' : AssemblerCtx} {patches : List Patch} {refs refs' : Refs}
    (h : (collectRefs patches refs).Returns as refs' as') (herr : as'.errors = as.errors) :
    as' = as ∧ (∀ patch ∈ patches, (as.findSymbol patch.range.view).isSome) ∧
      ∀ k, refs'.at k = refs.at k ++ (patches.filter (as.target? · = some k)).map Patch.pos := by
  induction patches generalizing refs with
  | nil =>
    obtain ⟨rfl, rfl⟩ := returns_pure.mp h
    exact ⟨rfl, nofun, fun k => by simp⟩
  | cons patch patches ih =>
    obtain ⟨_, s, hget, hbody⟩ := returns_bind.mp h
    obtain ⟨rfl, hs⟩ := returns_get.mp hget
    rw [hs] at hbody
    split at hbody
    · obtain ⟨_, mid, hlog, hrest⟩ := returns_bind.mp hbody
      have hmid := error_returns.mp hlog
      have hgrow := (logs_collectRefs.of_returns hrest).errors
      rw [hmid] at hgrow
      simp only [AssemblerCtx.errors, List.length_append, List.length_singleton] at hgrow herr
      omega
    · rename_i sym hsym
      obtain ⟨rfl, hall, hat⟩ := ih hbody
      refine ⟨rfl, ?_, fun k => ?_⟩
      · intro p hp
        rcases List.mem_cons.mp hp with rfl | hp
        · rw [hsym]
          rfl
        · exact hall p hp
      · have htarget : as'.target? patch = if sym.tag = .label then some sym.id.toNat else none := by
          rw [AssemblerCtx.target?, hsym, Option.filter_some]
          by_cases htag : sym.tag = .label <;> simp [htag]
        rw [hat, List.filter_cons, htarget]
        by_cases htag : sym.tag = .label
        · rw [if_pos htag, if_pos htag, Refs.at_add, List.append_assoc]
          congr 1
          by_cases hk : sym.id.toNat = k
          · simp [hk]
          · simp [hk, Ne.symm hk]
        · simp [htag]

end AsmM

/-! ### The loop over the instructions -/

namespace Instruction

/-- The record with a number added to the immediate. -/
def plus (ins : Instruction) (d : U64) : Instruction := { ins with ii := ins.ii + d }

@[simp] theorem plus_zero (ins : Instruction) : ins.plus 0#64 = ins := by rw [plus, BitVec.add_zero]

@[simp] theorem plus_plus (ins : Instruction) (d d' : U64) : (ins.plus d).plus d' = ins.plus (d + d') := by
  rw [plus, plus, plus, BitVec.add_assoc]

@[simp] theorem linkSize_plus (ins : Instruction) (d : U64) : (ins.plus d).linkSize = ins.linkSize := rfl

end Instruction

/-- The same number is added to the immediates of some instructions. -/
theorem getElem?_modify_plus (instrs : List Instruction) (i j : Nat) (d : U64) :
    (instrs.modify i (·.plus d))[j]? = instrs[j]?.map (·.plus (if i = j then d else 0)) := by
  rw [List.getElem?_modify]
  rcases instrs[j]? with _ | ins
  · rfl
  · by_cases h : i = j <;> simp [h]

theorem addTargets_eq {ip : U32} {refs : List Nat} {instrs instrs' : List Instruction}
    (h : addTargets ip refs instrs = some instrs') (j : Nat) :
    instrs'[j]? = instrs[j]?.map (·.plus (refs.count j • ip.setWidth 64)) := by
  induction refs generalizing instrs with
  | nil =>
    cases h
    simp
  | cons r refs ih =>
    rw [addTargets] at h
    split at h
    · have hmod := getElem?_modify_plus instrs r j (ip.setWidth 64)
      rw [ih h]
      change ((instrs.modify r (·.plus (ip.setWidth 64)))[j]?).map _ = _
      rw [hmod, Option.map_map]
      rcases instrs[j]? with _ | ins
      · rfl
      · by_cases hr : r = j
        · subst hr
          simp only [Option.map_some, Function.comp_apply, if_true, Instruction.plus_plus, List.count_cons_self, succ_nsmul']
        · simp [hr]
    · cases h

/-- The offset of an instruction for the linker. -/
def ipAt (db : Nat) (sizes : List Nat) (k : Nat) : U64 := (BitVec.ofNat 32 (db + offset sizes k)).setWidth 64

/-- What the linker adds to the immediate of instruction `j` when it comes to instruction `k`. -/
def linkTerm (patches : List Patch) (refs : AsmM.Refs) (db : Nat) (sizes : List Nat) (j k : Nat) : U64 :=
  (refs.at k).count j • ipAt db sizes k - if k = j ∧ patches.any (·.pos = k) then ipAt db sizes k else 0

/-- One round of the loop: the own offset is subtracted, and the offset is added wherever the label before the
    instruction is referred to. -/
theorem linkStep_eq {patches : List Patch} {refs : AsmM.Refs} {db i : Nat} {sizes : List Nat}
    {instrs mid : List Instruction}
    (h : addTargets (BitVec.ofNat 32 (db + offset sizes i)) (refs.at i)
      (if patches.any (·.pos = i) then instrs.modify i (·.subIp (BitVec.ofNat 32 (db + offset sizes i))) else instrs) =
        some mid) (j : Nat) :
    mid[j]? = instrs[j]?.map (·.plus (linkTerm patches refs db sizes j i)) := by
  have hsub : (fun ins : Instruction => ins.subIp (BitVec.ofNat 32 (db + offset sizes i))) =
      (·.plus (-ipAt db sizes i)) := funext fun ins => by
    rw [Instruction.subIp, Instruction.plus, ← ipAt, BitVec.sub_eq_add_neg]
  rw [addTargets_eq h, ← ipAt, linkTerm, hsub]
  by_cases hany : patches.any (·.pos = i) = true
  · rw [if_pos hany, getElem?_modify_plus, Option.map_map]
    rcases instrs[j]? with _ | ins
    · rfl
    · simp only [Option.map_some, Function.comp_apply, Instruction.plus_plus, hany, and_true, Option.some.injEq]
      by_cases hij : i = j
      · rw [if_pos hij, if_pos hij, sub_eq_add_neg, add_comm]
      · rw [if_neg hij, if_neg hij, sub_zero, zero_add]
  · rw [if_neg hany, if_neg (by simp [hany]), sub_zero]

theorem patchLoop_eq {patches : List Patch} {refs : AsmM.Refs} {db n i : Nat} {sizes : List Nat}
    {instrs instrs' : List Instruction} (hsizes : instrs.map Instruction.linkSize = sizes)
    (h : patchLoop patches refs n i (BitVec.ofNat 32 (db + offset sizes i)) instrs = some instrs') (j : Nat) :
    instrs'[j]? = instrs[j]?.map (·.plus ((List.range' i n).map (linkTerm patches refs db sizes j)).sum) := by
  induction n generalizing i instrs with
  | zero =>
    cases h
    simp
  | succ n ih =>
    rw [patchLoop] at h
    obtain ⟨mid, hmid, h⟩ := Option.bind_eq_some_iff.mp h
    obtain ⟨ins, hins, h⟩ := Option.bind_eq_some_iff.mp h
    have hterm := linkStep_eq hmid
    have hmidsizes : mid.map Instruction.linkSize = sizes := by
      rw [← hsizes]
      refine List.ext_getElem? fun j => ?_
      rw [List.getElem?_map, List.getElem?_map, hterm, Option.map_map]
      rfl
    have hsize : sizes[i]? = some ins.linkSize := by rw [← hmidsizes, List.getElem?_map, hins, Option.map_some]
    have hnext : BitVec.ofNat 32 (db + offset sizes i) + BitVec.ofNat 32 ins.linkSize =
        BitVec.ofNat 32 (db + offset sizes (i + 1)) := by
      rw [offset_succ hsize, ← BitVec.ofNat_add, Nat.add_assoc]
    rw [hnext] at h
    rw [ih hmidsizes h, hterm, Option.map_map, List.range'_succ, List.map_cons, List.sum_cons]
    simp only [Function.comp_def, Instruction.plus_plus]

/-! ### What is added in all -/

/-- The offset of the instruction with an index, if there is one. -/
def landed (db : Nat) (sizes : List Nat) : Option Nat → U64
  | some k => if k < sizes.length then ipAt db sizes k else 0
  | none => 0

/-- The offset that a reference adds: that of the instruction after its label, if there is one. -/
def placed (as : AssemblerCtx) (db : Nat) (sizes : List Nat) (patch : Patch) : U64 :=
  match as.target? patch with
  | some k => if k < sizes.length then ipAt db sizes k else 0
  | none => 0

/-- What linking adds to the immediate of instruction `j`. -/
def linkSum (as : AssemblerCtx) (db : Nat) (sizes : List Nat) (j : Nat) : U64 :=
  ((as.patchWork.filter (·.pos = j)).map (placed as db sizes)).sum -
    if as.patchWork.any (·.pos = j) then ipAt db sizes j else 0

section
variable {target : Patch → Option Nat} {patches : List Patch} {refs : AsmM.Refs} {db n j : Nat} {sizes : List Nat}

variable (patches j) in
theorem sum_counts (hn : sizes.length = n) :
    ∑ k ∈ Finset.range n, ((patches.filter (target · = some k)).map Patch.pos).count j • ipAt db sizes k =
      ((patches.filter (·.pos = j)).map fun p => landed db sizes (target p)).sum := by
  induction patches with
  | nil => simp
  | cons p patches ih =>
    have hhead : ∑ k ∈ Finset.range n, (if p.pos = j ∧ target p = some k then ipAt db sizes k else 0) =
        if p.pos = j then landed db sizes (target p) else 0 := by
      by_cases hp : p.pos = j
      · simp only [hp, true_and, if_true, landed]
        rcases target p with _ | k
        · simp
        · simp only [Option.some.injEq, Finset.sum_ite_eq, Finset.mem_range, hn]
      · simp [hp]
    have hcount (k : Nat) : (((p :: patches).filter (target · = some k)).map Patch.pos).count j • ipAt db sizes k =
        (if p.pos = j ∧ target p = some k then ipAt db sizes k else 0) +
          ((patches.filter (target · = some k)).map Patch.pos).count j • ipAt db sizes k := by
      by_cases ht : target p = some k
      · by_cases hp : p.pos = j
        · simp only [List.filter_cons, ht, decide_true, if_true, List.map_cons, hp, List.count_cons_self, succ_nsmul', and_self]
        · simp [ht, hp]
      · simp [ht]
    simp only [hcount, Finset.sum_add_distrib, hhead, ih]
    by_cases hp : p.pos = j
    · simp only [hp, if_true, List.filter_cons, decide_true, List.map_cons, List.sum_cons]
    · simp [hp]

variable (target) in
theorem sum_linkTerm_of_refs (hn : sizes.length = n) (hj : j < n)
    (hrefs : ∀ k, refs.at k = (patches.filter (target · = some k)).map Patch.pos) :
    ((List.range' 0 n).map (linkTerm patches refs db sizes j)).sum =
      ((patches.filter (·.pos = j)).map fun p => landed db sizes (target p)).sum -
        if patches.any (·.pos = j) then ipAt db sizes j else 0 := by
  have hsum : ((List.range' 0 n).map (linkTerm patches refs db sizes j)).sum =
      ∑ k ∈ Finset.range n, linkTerm patches refs db sizes j k := by
    rw [← List.range_eq_range']
    rfl
  rw [hsum]
  simp only [linkTerm, hrefs, Finset.sum_sub_distrib]
  rw [sum_counts patches j hn]
  congr 1
  by_cases hany : patches.any (·.pos = j) = true
  · rw [if_pos hany]
    have hterm (k : Nat) : (if k = j ∧ patches.any (·.pos = k) = true then ipAt db sizes k else 0) =
        if k = j then ipAt db sizes k else 0 := by
      by_cases hk : k = j
      · rw [if_pos hk, if_pos ⟨hk, hk ▸ hany⟩]
      · rw [if_neg hk, if_neg fun h => hk h.1]
    simp only [hterm, Finset.sum_ite_eq', Finset.mem_range, hj, if_true]
  · rw [if_neg hany]
    refine Finset.sum_eq_zero fun k _ => if_neg ?_
    rintro ⟨rfl, hk⟩
    exact hany hk

theorem sum_linkTerm {as : AssemblerCtx} (hn : sizes.length = n) (hj : j < n)
    (hrefs : ∀ k, refs.at k = (as.patchWork.filter (as.target? · = some k)).map Patch.pos) :
    ((List.range' 0 n).map (linkTerm as.patchWork refs db sizes j)).sum = linkSum as db sizes j :=
  sum_linkTerm_of_refs as.target? hn hj hrefs

end

/-! ### The image -/

namespace Instruction

theorem length_head {ins : Instruction} (h : ins.Encodable) : ins.head.length = ins.osz := by
  rcases h.osz_cases with hosz | hosz | hosz <;> rw [head, hosz] <;> rfl

/-- The linker and `VM_code_append_` agree on the size of an instruction. -/
theorem Linkable.emit {ins : Instruction} (h : ins.Linkable) : ∃ bs, ins.emit = some bs ∧ bs.length = ins.linkSize := by
  have hhead := length_head h.toEncodable
  have himm : ins.hasImm = true ↔ ins.rmd = .imm ∨ ins.iea := by simp [hasImm]
  rcases h.osz_cases with hosz | hosz | hosz
  · refine ⟨_, emit_one hosz, ?_⟩
    have hnone := h.imm_one hosz
    rw [linkSize, if_neg (by rw [← himm, hnone]; decide), hosz]
    rfl
  · refine ⟨_, h.toEncodable.emit_two hosz, ?_⟩
    have hiea := h.iea_eq hosz
    rw [linkSize, hosz, List.length_append, hiea]
    by_cases hrmd : ins.rmd = .imm <;> simp [hrmd]
  · refine ⟨_, emit_three hosz, ?_⟩
    rw [linkSize, hosz, List.length_append]
    by_cases hi : ins.hasImm = true
    · rw [if_pos hi, if_pos (himm.mp hi), length_leBytes]
      rfl
    · rw [if_neg hi, if_neg (mt himm.mpr hi)]
      rfl

theorem emitAll_append {seq seq' : List Instruction} {bs : List U8} (h : emitAll (seq ++ seq') = some bs) :
    ∃ b b', emitAll seq = some b ∧ emitAll seq' = some b' ∧ bs = b ++ b' := by
  induction seq generalizing bs with
  | nil => exact ⟨[], bs, rfl, h, rfl⟩
  | cons ins seq ih =>
    obtain ⟨b1, h1, rest, hrest, rfl⟩ := emitAll_cons h
    obtain ⟨b, b', hb, hb', rfl⟩ := ih hrest
    refine ⟨b1 ++ b, b', ?_, hb', (List.append_assoc ..).symm⟩
    rw [emitAll, h1, Option.bind_eq_bind, Option.bind_some, hb]
    rfl

theorem length_emitAll {seq : List Instruction} (hseq : ∀ ins ∈ seq, ins.Linkable) {bs : List U8}
    (h : emitAll seq = some bs) : bs.length = (seq.map linkSize).sum := by
  induction seq generalizing bs with
  | nil =>
    cases h
    rfl
  | cons ins seq ih =>
    obtain ⟨b, hb, rest, hrest, rfl⟩ := emitAll_cons h
    obtain ⟨b', hb', hlen⟩ := (hseq ins (List.mem_cons_self ..)).emit
    obtain rfl := Option.some.inj (hb.symm.trans hb')
    rw [List.length_append, hlen, ih (fun x hx => hseq x (List.mem_cons_of_mem _ hx)) hrest, List.map_cons, List.sum_cons]

end Instruction

/-- The image: instructions are emitted at an offset, up to the end. -/
structure Image (code : Code) (db : Nat) (instrs : List Instruction) : Prop where
  linkable : ∀ ins ∈ instrs, ins.Linkable
  emitted : ∃ pre bs, code.bytes = pre ++ bs ∧ pre.length = db ∧ Instruction.emitAll instrs = some bs

/-- The offset at which `VM_code_append_` emits an instruction. -/
def emitOffset (db : Nat) (instrs : List Instruction) (i : Nat) : Nat := db + ((Instruction.emitAll (instrs.take i)).getD []).length

namespace Image
variable {code : Code} {db : Nat} {instrs : List Instruction}

theorem emitOffset_eq (h : Image code db instrs) (i : Nat) :
    emitOffset db instrs i = db + offset (instrs.map Instruction.linkSize) i := by
  obtain ⟨pre, bs, hc, hpre, hbs⟩ := h.emitted
  rw [← List.take_append_drop i instrs] at hbs
  obtain ⟨b, b', hb, -, -⟩ := Instruction.emitAll_append hbs
  have hlen := Instruction.length_emitAll (fun ins hins => h.linkable ins (List.mem_of_mem_take hins)) hb
  rw [emitOffset, hb, Option.getD_some, hlen, offset, List.map_take]

theorem emitOffset_le (h : Image code db instrs) (i : Nat) : emitOffset db instrs i ≤ code.len := by
  obtain ⟨pre, bs, hc, hpre, hbs⟩ := h.emitted
  rw [h.emitOffset_eq, Code.len, hc, List.length_append, hpre, Instruction.length_emitAll h.linkable hbs]
  exact Nat.add_le_add_left (offset_le_sum _ _) _

theorem emitOffset_length (h : Image code db instrs) : emitOffset db instrs instrs.length = code.len := by
  obtain ⟨pre, bs, hc, hpre, hbs⟩ := h.emitted
  rw [emitOffset, List.take_length, hbs, Code.len, hc, List.length_append, hpre]
  rfl

/-- Every instruction is decoded where it was emitted, and the next one follows. -/
theorem decodes (h : Image code db instrs) {i : Nat} {ins : Instruction} (hi : instrs[i]? = some ins) :
    ∃ n, code.Decodes (emitOffset db instrs i) n ins.stored ∧ emitOffset db instrs (i + 1) = emitOffset db instrs i + n := by
  obtain ⟨pre, bs, hc, hpre, hbs⟩ := h.emitted
  rw [← take_append_cons_drop hi] at hbs
  obtain ⟨b, b', hb, hb', rfl⟩ := Instruction.emitAll_append hbs
  obtain ⟨bi, hbi, rest, -, rfl⟩ := Instruction.emitAll_cons hb'
  have hlink := h.linkable ins (List.mem_of_getElem? hi)
  have hpos : emitOffset db instrs i = (pre ++ b).length := by
    rw [emitOffset, hb, Option.getD_some, List.length_append, hpre]
  obtain ⟨bi', hbi', hlen⟩ := hlink.emit
  obtain rfl := Option.some.inj (hbi.symm.trans hbi')
  refine ⟨bi.length, ?_, ?_⟩
  · rw [hpos]
    have hbytes : code.bytes = pre ++ b ++ bi ++ rest := by simp only [hc, List.append_assoc]
    exact Code.decodes_emit hlink.toEncodable hbi hbytes
  · have hsize : (instrs.map Instruction.linkSize)[i]? = some ins.linkSize := by rw [List.getElem?_map, hi, Option.map_some]
    rw [h.emitOffset_eq, h.emitOffset_eq, offset_succ hsize, hlen, Nat.add_assoc]

end Image

/-! ### Programs that are assembled -/

/-- A program, what was collected from it, and its image. -/
structure Assembled (prog : List Stmt) (lines : List Line) (as : AssemblerCtx) (db : Nat) (code : Code)
    (instrs : List Instruction) : Prop where
  collected : Collected prog lines as
  defined : ∀ patch ∈ as.patchWork, (as.findSymbol patch.range.view).isSome
  image : Image code db instrs
  header : code.db? = some (BitVec.ofNat 32 db)
  linked : ∀ j, instrs[j]? = as.instructions[j]?.map
    (Instruction.plus · (linkSum as db (as.instructions.map Instruction.linkSize) j))

theorem Instruction.Linkable.plus {ins : Instruction} (h : ins.Linkable) (d : U64) : (ins.plus d).Linkable :=
  ⟨⟨h.osz_ne, h.ra_eq, h.iea_eq⟩, h.imm_one⟩

namespace Code

theorem push_eq_some {code code' : Code} {bs : List U8} (h : code.push bs = some code') : code'.bytes = code.bytes ++ bs := by
  unfold push at h
  split at h
  · cases h
    rfl
  · cases h

end Code

namespace AsmM
open Prog

variable {as as' : AssemblerCtx} {into code : Code} {refs : Refs}

/-- The size of the data in the header of an image. -/
theorem db?_header {size : U64} {db main : U32} {rest : List U8} (h : code.bytes = codeHeader size db main ++ rest) :
    code.db? = some db := by
  have hsplit : code.bytes = leBytes 8 size ++ leBytes 4 (db.setWidth 64) ++ (leBytes 4 (main.setWidth 64) ++ rest) := by
    simp only [h, codeHeader, List.append_assoc]
  have hslice := Code.slice?_append hsplit
  rw [length_leBytes, length_leBytes] at hslice
  rw [Code.db?, hslice, Option.map_some, leNat_leBytes]
  congr 1
  apply BitVec.eq_of_toNat_eq
  rw [BitVec.toNat_ofNat, BitVec.toNat_setWidth]
  omega

/-- The code before the instructions, with room for the header. -/
def codeBefore (into : Code) (as : AssemblerCtx) : List U8 :=
  into.bytes ++ (List.range headerSize).map as.uninit ++ as.constants

/-- The image is a header over the code before, and the instructions that were patched. -/
theorem emitCode_bytes (h : (emitCode refs into).Returns as code as') :
    (codeBefore into as).length < 2 ^ 31 ∧ ∃ instrs size bs,
      patchLoop as.patchWork refs as.instructions.length 0 (BitVec.ofNat 32 (codeBefore into as).length) as.instructions = some instrs ∧
      as' = { as with instructions := instrs } ∧ Instruction.emitAll instrs = some bs ∧
      code.bytes = codeHeader size (BitVec.ofNat 32 (codeBefore into as).length)
        (BitVec.ofNat 32 (codeBefore into as).length + as.main) ++ (codeBefore into as).drop headerSize ++ bs := by
  simp only [emitCode, returns_bind, returns_get, returns_ofOption, returns_modify] at h
  obtain ⟨_, _, ⟨rfl, rfl⟩, code1, _, ⟨h1, rfl⟩, code2, _, ⟨h2, rfl⟩, instrs, s, ⟨hloop, rfl⟩, _, _, rfl, code3, _,
    ⟨h3, rfl⟩, hfinal, rfl⟩ := h
  obtain ⟨bs, hbs, hc3⟩ := Code.append_eq_some h3
  have hc2 : code2.bytes = codeBefore into s := by rw [codeBefore, Code.push_eq_some h2, Code.push_eq_some h1]
  have hlen : headerSize ≤ (codeBefore into s).length := by
    rw [codeBefore, List.length_append, List.length_append, List.length_map, List.length_range]
    omega
  have hdb : code2.len = (codeBefore into s).length := congrArg List.length hc2
  rw [hdb] at hloop hfinal
  refine ⟨hdb ▸ code2.len_lt, instrs, BitVec.ofNat 64 code3.len, bs, hloop, rfl, hbs, ?_⟩
  rw [Code.push_eq_some hfinal, hc3, hc2, List.drop_append_of_le_length hlen, List.append_assoc]
  rfl

/-- Without an error the code is emitted. -/
theorem link_emits {n : Nat} (h : (link into).Returns as (n, code) as') (herr : as'.errors = 0) :
    ∃ refs, (collectRefs as.patchWork []).Returns as refs as ∧ (emitCode refs into).Returns as code as' := by
  simp only [link, returns_bind, returns_get] at h
  obtain ⟨_, _, ⟨rfl, rfl⟩, refs, mid, hrefs, _, _, ⟨rfl, rfl⟩, hbody⟩ := h
  split at hbody
  · rename_i hne
    obtain ⟨-, rfl⟩ := returns_pure.mp hbody
    exact absurd herr hne
  · rename_i hzero
    have hgrow := (logs_collectRefs.of_returns hrefs).errors
    obtain ⟨rfl, -, -⟩ := collectRefs_returns hrefs (by omega)
    simp only [returns_bind, returns_pure] at hbody
    obtain ⟨_, _, hemit, hpair, rfl⟩ := hbody
    obtain ⟨-, rfl⟩ := Prod.mk.inj hpair
    exact ⟨refs, hrefs, hemit⟩

theorem link_returns {n : Nat} (h : (link into).Returns as (n, code) as') (herr : as'.errors = 0)
    (hlink : ∀ ins ∈ as.instructions, ins.Linkable) :
    (∀ patch ∈ as.patchWork, (as.findSymbol patch.range.view).isSome) ∧ ∃ db, db < 2 ^ 31 ∧
      code.db? = some (BitVec.ofNat 32 db) ∧ Image code db as'.instructions ∧ ∀ j, as'.instructions[j]? = as.instructions[j]?.map
        (Instruction.plus · (linkSum as db (as.instructions.map Instruction.linkSize) j)) := by
  obtain ⟨refs, hrefs, hemit⟩ := link_emits h herr
  obtain ⟨-, hall, hat⟩ := collectRefs_returns hrefs rfl
  obtain ⟨hdb, instrs, size, bs, hloop, rfl, hbs, hbytes⟩ := emitCode_bytes hemit
  have hlen : as.instructions.length = (as.instructions.map Instruction.linkSize).length := (List.length_map _).symm
  have hlinked (j : Nat) : instrs[j]? = as.instructions[j]?.map
      (Instruction.plus · (linkSum as (codeBefore into as).length (as.instructions.map Instruction.linkSize) j)) := by
    rw [patchLoop_eq rfl (by rwa [offset_zero, Nat.add_zero])]
    rcases hj : as.instructions[j]? with _ | ins
    · rfl
    · rw [sum_linkTerm hlen.symm (List.getElem?_eq_some_iff.mp hj).1 fun k => by rw [hat]; rfl]
  refine ⟨hall, (codeBefore into as).length, hdb, db?_header (by rw [hbytes, List.append_assoc]),
    ⟨fun ins hins => ?_, _, bs, hbytes, ?_, hbs⟩, hlinked⟩
  · obtain ⟨j, hj⟩ := List.getElem?_of_mem hins
    change instrs[j]? = some ins at hj
    rw [hlinked] at hj
    obtain ⟨ins0, hj0, rfl⟩ := Option.map_eq_some_iff.mp hj
    exact (hlink ins0 (List.mem_of_getElem? hj0)).plus _
  · have hroom : headerSize ≤ (codeBefore into as).length := by
      rw [codeBefore, List.length_append, List.length_append, List.length_map, List.length_range]
      omega
    rw [headerSize] at hroom
    simp only [codeHeader, List.length_append, length_leBytes, List.length_drop, headerSize]
    omega

/-- Nothing is added to the code when a reference is to a symbol that is not defined. -/
theorem link_undefined {n : Nat} (h : (link into).Returns as (n, code) as')
    (hu : ∃ patch ∈ as.patchWork, as.findSymbol patch.range.view = none) : code = into := by
  obtain ⟨s, t, hget, hcollect⟩ := returns_bind.mp h
  obtain ⟨hs, ht⟩ := returns_get.mp hget
  rw [hs, ht] at hcollect
  obtain ⟨refs, mid, hrefs, hrest⟩ := returns_bind.mp hcollect
  obtain ⟨_, s', hget', hbody⟩ := returns_bind.mp hrest
  obtain ⟨rfl, hs'⟩ := returns_get.mp hget'
  rw [hs'] at hbody
  split at hbody
  · obtain ⟨hpair, -⟩ := returns_pure.mp hbody
    exact (Prod.mk.inj hpair).2
  · rename_i hzero
    have hgrow := (logs_collectRefs.of_returns hrefs).errors
    obtain ⟨-, hall, -⟩ := collectRefs_returns hrefs (by omega)
    obtain ⟨patch, hmem, hnone⟩ := hu
    have hsome := hall patch hmem
    rw [hnone] at hsome
    cases hsome

/-- The statements are parsed, and linked if no error was logged. -/
theorem assemble_cases {n : Nat} (h : (assemble into).Returns as (n, code) as') :
    ∃ mid, (parseStatements as.itp.toks.length).Returns as () mid ∧
      (mid.errors ≠ 0 ∧ code = into ∧ as' = mid ∨ mid.errors = 0 ∧ (link into).Returns mid (n, code) as') := by
  obtain ⟨s, t, hget, hrest⟩ := returns_bind.mp h
  obtain ⟨hs, ht⟩ := returns_get.mp hget
  rw [hs, ht] at hrest
  obtain ⟨_, mid, hparse, hrest'⟩ := returns_bind.mp hrest
  obtain ⟨s', t', hget', hbody⟩ := returns_bind.mp hrest'
  obtain ⟨hs', ht'⟩ := returns_get.mp hget'
  rw [hs', ht'] at hbody
  refine ⟨mid, hparse, ?_⟩
  split at hbody
  · rename_i hne
    obtain ⟨hpair, rfl⟩ := returns_pure.mp hbody
    exact .inl ⟨hne, (Prod.mk.inj hpair).2, rfl⟩
  · rename_i hzero
    exact .inr ⟨not_not.mp hzero, hbody⟩

variable {toks : List Token} {stop : Range} {log : List Diagnostic} {uninit : Nat → U8} {n : Nat}

/-- What is left when no error was logged. -/
theorem link_assembled (hparse : (parseStatements toks.length).Returns (AssemblerCtx.init toks stop log uninit) () as)
    (hzero : as.errors = 0) (h : (link into).Returns as (n, code) as') (herr : as'.errors = 0) :
    ∃ prog toks' lines db, Steps (AssemblerCtx.init toks stop log uninit) prog toks' as ∧ as.itp.eof = true ∧
      Assembled prog lines as db code as'.instructions ∧
      ∀ line ∈ lines, line.Reached (AssemblerCtx.init toks stop log uninit) prog := by
  have hgrow := (logs_parseStatements.of_returns hparse).errors
  obtain ⟨prog, toks', hsteps, heof⟩ := parseStatements_returns hparse (by omega) (le_refl _) .nil
  obtain ⟨lines, hc, hreached⟩ := hsteps.collected
  have hlink : ∀ ins ∈ as.instructions, ins.Linkable := by
    intro ins hins
    rw [hc.records] at hins
    obtain ⟨line, hline, rfl⟩ := List.mem_map.mp hins
    exact hc.linkable line hline
  obtain ⟨hall, db, hdb, hheader, himage, hlinked⟩ := link_returns h herr hlink
  exact ⟨prog, toks', lines, db, hsteps, heof, ⟨hc, hall, himage, hheader, hlinked⟩, hreached⟩

theorem assemble_returns (h : (assemble into).Returns (AssemblerCtx.init toks stop log uninit) (n, code) as')
    (herr : as'.errors = 0) :
    ∃ prog toks' lines as db, Steps (AssemblerCtx.init toks stop log uninit) prog toks' as ∧ as.itp.eof = true ∧
      Assembled prog lines as db code as'.instructions ∧
      ∀ line ∈ lines, line.Reached (AssemblerCtx.init toks stop log uninit) prog := by
  obtain ⟨as, hparse, ⟨hne, -, rfl⟩ | ⟨hzero, hlink⟩⟩ := assemble_cases h
  · exact absurd herr hne
  · obtain ⟨prog, toks', lines, db, hrest⟩ := link_assembled hparse hzero hlink herr
    exact ⟨prog, toks', lines, as, db, hrest⟩

end AsmM

end Cyntatic
