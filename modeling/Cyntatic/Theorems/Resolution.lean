import Mathlib.Tactic.Abel
import Cyntatic.Theorems.Immediates
import Cyntatic.Theorems.Labels

/-! # Resolution of symbols

Which of the references that are left to the linker it resolves. -/

namespace Cyntatic
open Library

section Definitions
variable (as : AssemblerCtx) (db : Nat) (code : Code) (instrs : List Instruction) (patch : Patch)

/-- What an instruction with a reference is to carry: the distance to the label, or the offset of the variable. -/
def wanted : U64 :=
  match as.findSymbol patch.range.view with
  | some sym =>
    if sym.tag = .label then
      BitVec.ofNat 64 (emitOffset db instrs sym.id.toNat) - BitVec.ofNat 64 (emitOffset db instrs patch.pos)
    else sym.id
  | none => 0

/-- What the linker leaves out: nothing for a label that has an instruction after it, the offset of a label at the
    end, and the offset of a variable, for which it still subtracts the one of the instruction. -/
def leftOut : U64 :=
  match as.findSymbol patch.range.view with
  | some sym =>
    if sym.tag = .label then
      if sym.id.toNat < instrs.length then 0 else BitVec.ofNat 64 (emitOffset db instrs sym.id.toNat)
    else BitVec.ofNat 64 (emitOffset db instrs patch.pos) + sym.id
  | none => 0

/-- The offset of the instruction after the label of a reference, if there is one. -/
def labelOffset : U64 :=
  match as.target? patch with
  | some k => if k < instrs.length then BitVec.ofNat 64 (emitOffset db instrs k) else 0
  | none => 0

/-- What else comes into the immediate: what the parser has left there, and the labels of other references. -/
def besides (ins : Instruction) : U64 :=
  ins.ii + (((as.patchWork.filter (·.pos = patch.pos)).erase patch).map (labelOffset as db instrs)).sum

/-- The instruction with a reference carries what it is to carry. -/
def Resolved : Prop :=
  ∃ n ins, code.instructionAt {} (emitOffset db instrs patch.pos) = some (n, ins) ∧ ins.hasImm ∧
    ins.ii = wanted as db instrs patch

/-- The instruction has an immediate that is wide enough, and what else comes into it makes up for what the linker
    leaves out. -/
def Resolvable : Prop :=
  ∃ ins, as.instructions[patch.pos]? = some ins ∧ ins.hasImm ∧ ins.ims.InRange (wanted as db instrs patch).toInt ∧
    (besides as db instrs patch ins).setWidth (8 * ins.ims.size) = (leftOut as db instrs patch).setWidth (8 * ins.ims.size)

end Definitions

/-- A decoded record has an immediate where the record has one, cut to its width. -/
theorem Instruction.Linkable.stored_imm {ins : Instruction} (h : ins.Linkable) :
    ins.stored.hasImm = ins.hasImm ∧ (ins.hasImm → ins.stored.ii = signTrunc ins.ims.size ins.ii) := by
  rcases h.osz_cases with h1 | h2 | h3
  · rw [stored_one h1, h.imm_one h1]
    exact ⟨rfl, nofun⟩
  · have himm : ins.hasImm = (ins.rmd == .imm) := by simp [hasImm, h.iea_eq h2]
    rw [stored_two h2, himm]
    by_cases hrmd : ins.rmd = .imm
    · rw [if_pos hrmd]
      exact ⟨by simp [hasImm], fun _ => rfl⟩
    · rw [if_neg hrmd]
      exact ⟨by simp [hasImm], fun hi => absurd (beq_iff_eq.mp hi) hrmd⟩
  · rw [stored_three h3]
    exact ⟨rfl, fun hi => if_pos hi⟩

/-- Words with the same sum have the same low bytes when their partners do. -/
theorem setWidth_eq_iff_of_add {k : Nat} (hk : k ≤ 64) {x w b l : U64} (h : x + l = b + w) :
    x.setWidth k = w.setWidth k ↔ b.setWidth k = l.setWidth k := by
  have hlow := congrArg (BitVec.setWidth k) h
  rw [BitVec.setWidth_add _ _ hk, BitVec.setWidth_add _ _ hk] at hlow
  constructor
  · intro hx
    rw [hx, add_comm] at hlow
    exact (add_right_cancel hlow).symm
  · intro hb
    rw [hb, add_comm] at hlow
    exact add_left_cancel hlow

namespace Assembled
variable {prog : List Stmt} {lines : List Line} {as : AssemblerCtx} {db : Nat} {code : Code} {instrs : List Instruction}
  {patch : Patch}

theorem placed_eq (h : Assembled prog lines as db code instrs) (patch : Patch) :
    placed as db (as.instructions.map Instruction.linkSize) patch = labelOffset as db instrs patch := by
  have hlen : (as.instructions.map Instruction.linkSize).length = instrs.length := by
    rw [h.sizes, List.length_map]
  unfold placed labelOffset
  rcases as.target? patch with _ | k
  · rfl
  · simp only [hlen, h.ipAt_eq]

/-- A reference is one of an instruction. -/
theorem exists_patched (h : Assembled prog lines as db code instrs) (hp : patch ∈ as.patchWork) :
    ∃ ins, as.instructions[patch.pos]? = some ins := by
  obtain ⟨line, hline, hpatch⟩ := List.mem_flatMap.mp (h.collected.patches.mem_iff.mp hp)
  obtain ⟨j, hj⟩ := List.getElem?_of_mem hline
  rw [h.collected.pending_pos hj patch hpatch, h.collected.records, List.getElem?_map, hj]
  exact ⟨_, rfl⟩

/-- What is added to the immediate of an instruction with a reference. -/
theorem linkSum_patch (h : Assembled prog lines as db code instrs) (hp : patch ∈ as.patchWork) (ins : Instruction) :
    ins.ii + linkSum as db (as.instructions.map Instruction.linkSize) patch.pos + leftOut as db instrs patch =
      besides as db instrs patch ins + wanted as db instrs patch := by
  have hfilter : patch ∈ as.patchWork.filter (·.pos = patch.pos) := List.mem_filter.mpr ⟨hp, by simp⟩
  have hsum : ((as.patchWork.filter (·.pos = patch.pos)).map (placed as db (as.instructions.map Instruction.linkSize))).sum =
      labelOffset as db instrs patch +
        (((as.patchWork.filter (·.pos = patch.pos)).erase patch).map (labelOffset as db instrs)).sum := by
    rw [List.map_congr_left fun q _ => h.placed_eq q, ((List.perm_cons_erase hfilter).map _).sum_eq, List.map_cons,
      List.sum_cons]
  have hany : (as.patchWork.any (·.pos = patch.pos)) = true := List.any_eq_true.mpr ⟨patch, hp, by simp⟩
  rw [linkSum, if_pos hany, hsum, h.ipAt_eq, besides]
  generalize (((as.patchWork.filter (·.pos = patch.pos)).erase patch).map (labelOffset as db instrs)).sum = others
  unfold labelOffset leftOut wanted AssemblerCtx.target?
  rcases hsym : as.findSymbol patch.range.view with _ | sym
  · have hdef := h.defined patch hp
    rw [hsym] at hdef
    cases hdef
  · by_cases htag : sym.tag = .label
    · by_cases hlt : sym.id.toNat < instrs.length
      · simp only [Option.filter_some, htag, decide_true, if_true, Option.map_some, hlt]
        abel
      · simp only [Option.filter_some, htag, decide_true, if_true, Option.map_some, hlt, if_false]
        abel
    · simp only [Option.filter_some, htag, decide_false, Bool.false_eq_true, if_false, Option.map_none]
      abel

/-- A reference is resolved exactly when it can be. -/
theorem resolved_iff (h : Assembled prog lines as db code instrs) (hp : patch ∈ as.patchWork) :
    Resolved as db code instrs patch ↔ Resolvable as db instrs patch := by
  obtain ⟨ins, hins⟩ := h.exists_patched hp
  have hinstr : instrs[patch.pos]? =
      some (ins.plus (linkSum as db (as.instructions.map Instruction.linkSize) patch.pos)) := by rw [h.linked, hins]; rfl
  obtain ⟨himm, hii⟩ := (h.image.linkable _ (List.mem_of_getElem? hinstr)).stored_imm
  obtain ⟨n, hd, -⟩ := h.image.decodes hinstr
  have hat := Code.instructionAt_of_decodes hd
  have hlow := setWidth_eq_iff_of_add ins.ims.size_bits (h.linkSum_patch hp ins)
  have hiff : ins.hasImm → ((ins.plus (linkSum as db (as.instructions.map Instruction.linkSize) patch.pos)).stored.ii =
      wanted as db instrs patch ↔ ins.ims.InRange (wanted as db instrs patch).toInt ∧
        (besides as db instrs patch ins).setWidth (8 * ins.ims.size) =
          (leftOut as db instrs patch).setWidth (8 * ins.ims.size)) := by
    intro hi
    rw [hii hi, ← Mode.signTrunc_eq_iff, ← hlow]
    exact signTrunc_eq_iff_low ins.ims.size_bits _ _
  constructor
  · rintro ⟨_, _, hat', hi, hw⟩
    obtain ⟨-, rfl⟩ := Prod.mk.inj (Option.some.inj (hat.symm.trans hat'))
    rw [himm] at hi
    obtain ⟨hr, hb⟩ := (hiff hi).mp hw
    exact ⟨ins, hins, hi, hr, hb⟩
  · rintro ⟨ins', hins', hi, hr, hb⟩
    obtain rfl := Option.some.inj (hins.symm.trans hins')
    exact ⟨n, _, hat, himm.trans hi, (hiff hi).mpr ⟨hr, hb⟩⟩

end Assembled

/-- When the linker appends code, it has resolved exactly the references that can be; when one is to a symbol that
    is not defined, it appends nothing. -/
theorem AsmM.assemble_resolves {into code : Code} {toks : List Token} {stop : Range} {log : List Diagnostic}
    {uninit : Nat → U8} {n : Nat} {as' : AssemblerCtx}
    (h : (assemble into).Returns (AssemblerCtx.init toks stop log uninit) (n, code) as') :
    ∃ as, (parseStatements toks.length).Returns (AssemblerCtx.init toks stop log uninit) () as ∧
      ((∃ patch ∈ as.patchWork, as.findSymbol patch.range.view = none) → code = into) ∧
      (as'.errors = 0 → ∃ prog toks' db, Steps (AssemblerCtx.init toks stop log uninit) prog toks' as ∧
        as.itp.eof = true ∧ Image code db as'.instructions ∧
        ∀ patch ∈ as.patchWork, Resolved as db code as'.instructions patch ↔ Resolvable as db as'.instructions patch) := by
  obtain ⟨as, hparse, ⟨hne, rfl, rfl⟩ | ⟨hzero, hlink⟩⟩ := assemble_cases h
  · exact ⟨as', hparse, fun _ => rfl, fun herr => absurd herr hne⟩
  · refine ⟨as, hparse, link_undefined hlink, fun herr => ?_⟩
    obtain ⟨prog, toks', lines, db, hsteps, heof, ha, -⟩ := link_assembled hparse hzero hlink herr
    exact ⟨prog, toks', db, hsteps, heof, ha.image, fun patch hp => ha.resolved_iff hp⟩

theorem AsmM.assemble_resolves_selfJump :
    ∃ n code as', (assemble .empty).Returns (.init selfJump endRange [] fun _ => 0) (n, code) as' ∧ as'.errors = 0 ∧
      ∃ as db, (parseStatements selfJump.length).Returns (.init selfJump endRange [] fun _ => 0) () as ∧
        ∀ patch ∈ as.patchWork, Resolved as db code as'.instructions patch ↔ Resolvable as db as'.instructions patch := by
  obtain ⟨⟨n, code⟩, as', h, herr⟩ := Prog.exists_of_passes (m := assemble .empty) (s := .init selfJump endRange [] fun _ => 0)
    (p := fun _ as' => as'.errors == 0) (by decide)
  obtain ⟨as, hparse, -, hok⟩ := assemble_resolves h
  obtain ⟨prog, toks', db, -, -, -, hiff⟩ := hok (beq_iff_eq.mp herr)
  exact ⟨n, code, as', h, beq_iff_eq.mp herr, as, db, hparse, hiff⟩

/-- `mov r0 x` and `$x = 1` -/
def forwardVariable : List Token :=
  [wordToken .tokIdentifier ['m', 'o', 'v'], wordToken .tokIdentifier ['r', '0'], wordToken .tokIdentifier ['x'],
    wordToken .tokNl ['n'], wordToken .tokDollar ['$'], wordToken .tokIdentifier ['x'], wordToken .tokAssign ['='],
    wordToken .tokInteger ['1'] (.int 1)]

/-- The offset of the instruction is subtracted from that of a variable, which is not added. -/
theorem AsmM.reference_unresolved : ∃ n code as', (assemble .empty).Returns (.init forwardVariable endRange [] fun _ => 0)
    (n, code) as' ∧ as'.errors = 0 ∧ ∃ patch ∈ as'.patchWork, ∃ sym, as'.findSymbol patch.range.view = some sym ∧
      sym.tag = .var ∧ sym.id = 16 ∧ patch.pos = 0 ∧ emitOffset 24 as'.instructions 0 = 24 ∧
      ∃ k ins, code.instructionAt {} 24 = some (k, ins) ∧ ins.hasImm ∧ ins.ii = -24 := by
  let patch : Patch := ⟨0, (wordToken .tokIdentifier ['x']).range⟩
  let sym : Symbol := { id := 16, size := 8, tag := .var, name := ascii ['x'], range := patch.range }
  let ins : Instruction := { osz := 3, opc := 24, rmd := .imm, imd := .quad, ims := .word, ii := -24 }
  obtain ⟨⟨n, code⟩, as', h, htest⟩ := Prog.exists_of_passes (m := assemble .empty)
    (s := .init forwardVariable endRange [] fun _ => 0)
    (p := fun r as' => as'.errors = 0 ∧ patch ∈ as'.patchWork ∧
      as'.findSymbol patch.range.view = some sym ∧
      r.2.instructionAt {} 24 = some (7, ins)) (by decide +kernel)
  obtain ⟨herr, hpatch, hsym, hins⟩ := of_decide_eq_true htest
  exact ⟨n, code, as', h, herr, patch, hpatch, sym, hsym, rfl, rfl, rfl, rfl, 7, ins, hins, rfl, rfl⟩

end Cyntatic
