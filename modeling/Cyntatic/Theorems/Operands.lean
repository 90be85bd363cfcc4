import Cyntatic.Theorems.Resolution

/-! # Operands of the source

Which two-operand instructions are emitted with the operands that are written. -/

namespace Cyntatic
open Library

/-! ### What is written -/

/-- Where an argument lies in a machine, for the number that it stands for. -/
def Arg.operand (arg : Arg) (v : U64) (vm : Vm) : Operand :=
  match arg.head with
  | .reg r => vm.regOperand ⟨r.toNat, r.toNat_lt⟩ arg.isMem (if arg.ea.isSome then v else 0)
  | _ => if arg.isMem then .mem none v 0 else .imm

/-- The machine finds the operands of a decoded instruction where the arguments lie, and its immediate is the number
    of the second one. -/
structure Denotes (dec : Instruction) (a b : Arg) (va vb : U64) : Prop where
  first : ∀ vm : Vm, (vm.operandA dec).place = (a.operand va vm).place
  second : ∀ vm : Vm, (vm.operandB dec).place = (b.operand vb vm).place
  imm : b.isImm → dec.ii = vb

section Definitions
variable (as ctx : AssemblerCtx) (db : Nat) (instrs : List Instruction) (j : Nat) (arg : Arg)

/-- What the second part of an effective address adds. -/
def EaPart.number : EaPart → U64
  | .int n isNeg => if isNeg then -n else n
  | .symbol isSizeOp range => ((ctx.eaValue? isSizeOp range).getD 0).setWidth 64

/-- The number that an argument of instruction `j` stands for in the whole program: a symbol that is left to the
    linker is the distance of a label, or the offset of a variable. -/
def Arg.linked : U64 :=
  match arg.head.pending ctx with
  | [] => arg.number ctx 0
  | patch :: _ => wanted as db instrs patch + (arg.ea.map (EaPart.number ctx)).getD 0

/-- The width of an argument with a symbol that is left to the linker. -/
def Arg.pendingMode : Mode :=
  match arg.ea with
  | none => .word
  | some (.int n _) => .integerSize n
  | some (.symbol _ _) => .quad

/-- The number of an argument is what its immediate comes to. A symbol that is left to the linker is one of which
    nothing is left out. -/
def Arg.Carried : Prop :=
  match arg.head.pending ctx with
  | [] => arg.isImm → arg.Fits ctx 0
  | patch :: _ => (leftOut as db instrs patch).setWidth (8 * arg.pendingMode.size) = 0 ∧
      arg.pendingMode.InRange (arg.linked as ctx db instrs).toInt

end Definitions

/-! ### First operands -/

variable {ctx : AssemblerCtx} {src : SourceInstr} {a b : Arg} {d : U64}

theorem SourceInstr.record_two (h : src.args = [a, b]) : src.record ctx = b.second ctx (a.first ctx src.base) := by
  rw [record, h]

variable (ctx d) in
/-- A record with two arguments, as it is decoded. -/
theorem SourceInstr.stored_two_args (h : src.args = [a, b]) :
    ((src.record ctx).plus d).stored.osz = 3 ∧ ((src.record ctx).plus d).stored.ra = (src.record ctx).ra ∧
      ((src.record ctx).plus d).stored.iam = a.isMem := by
  have hosz : ((src.record ctx).plus d).osz = 3 := by
    change (src.record ctx).osz = 3
    rw [(src.record_frame ctx).1, base, h]
    rfl
  rw [Instruction.stored_three hosz]
  exact ⟨hosz, rfl, (src.record_first ctx h).1⟩

theorem ArgHead.record_rmd (as : AssemblerCtx) (head : ArgHead) (instr : Instruction) :
    (head.record as instr).rmd = .reg ↔ ∃ r, head = .reg r := by
  cases head with
  | reg r => exact iff_of_true rfl ⟨r, rfl⟩
  | symbol isSizeOp range sub => cases sub <;> exact iff_of_false nofun nofun
  | char | int => exact iff_of_false nofun nofun

theorem Arg.record_rmd (as : AssemblerCtx) (arg : Arg) (instr : Instruction) :
    (arg.record as instr).rmd = .reg ↔ ∃ r, arg.head = .reg r := by
  rw [← arg.head.record_rmd as instr, Arg.record]
  rcases arg.ea with _ | ⟨n, isNeg⟩ | ⟨isSizeOp, range⟩ <;> exact Iff.rfl

variable (ctx d) in
/-- A first operand is found exactly when it is a register: the machine takes every first operand for one. -/
theorem first_iff (hargs : src.args = [a, b]) (hea : a.ea = none) (va : U64) :
    (∀ vm : Vm, (vm.operandA ((src.record ctx).plus d).stored).place = (a.operand va vm).place) ↔
      ∃ r, a.head = .reg r := by
  obtain ⟨hosz, hra, hiam⟩ := src.stored_two_args ctx d hargs
  have hplace (vm : Vm) : vm.operandA ((src.record ctx).plus d).stored = vm.regOperand (src.record ctx).ra a.isMem 0 := by
    rw [Vm.operandA, hosz, hra, hiam]
    rfl
  have hrec := (src.record_first ctx hargs).2
  simp only [hplace]
  constructor
  · intro h
    by_contra hne
    have hrmd : (a.record ctx src.base).rmd = .imm := by
      cases hr : (a.record ctx src.base).rmd with
      | reg => exact absurd ((a.record_rmd ctx src.base).mp hr) hne
      | imm => rfl
    rw [AsmM.Instruction.argRa, if_pos hrmd] at hrec
    have hop (vm : Vm) : a.operand va vm = if a.isMem then .mem none va 0 else .imm := by
      unfold Arg.operand
      split
      · rename_i r hr
        exact absurd ⟨r, hr⟩ hne
      · rfl
    cases hmem : a.isMem with
    | false =>
      have hbad := h VmM.edgeVm
      rw [hop, hmem] at hbad
      cases hbad
    | true =>
      -- The register whose number is the mode of the immediate may hold any address.
      obtain ⟨r, hr⟩ : ∃ r, Register.ofNat? (src.record ctx).ra = some r := by
        rw [← Option.isSome_iff_exists, Register.ofNat?_isSome_iff, hrec]
        exact Nat.lt_trans (Mode.toNat_lt _) (by decide)
      have hbad := h (VmM.edgeVm.setReg r (va + 1))
      rw [hop, hmem, Vm.regOperand, if_pos rfl, if_pos rfl, Vm.reg?, hr, Option.map_some, Vm.reg_setReg, Option.getD_some] at hbad
      have haddr := (Place.ram.inj hbad).2
      rw [add_zero, add_zero] at haddr
      exact absurd (left_eq_add.mp haddr.symm) (by decide)
  · rintro ⟨r, hr⟩ vm
    have hrmd : (a.record ctx src.base).rmd = .reg := (a.record_rmd ctx src.base).mpr ⟨r, hr⟩
    rw [AsmM.Instruction.argRa, if_neg (by rw [hrmd]; decide), hr] at hrec
    rw [hrec, Arg.operand, hr, hea]
    rfl

/-! ### Second operands -/

variable (ctx d) in
/-- The fields of a decoded record that the second argument has set. -/
theorem SourceInstr.stored_second (h : src.args = [a, b]) (hea : a.ea = none) :
    ((src.record ctx).plus d).stored.rb = ⟨b.head.register.toNat, b.head.register.toNat_lt⟩ ∧
      ((src.record ctx).plus d).stored.ibm = b.isMem ∧ ((src.record ctx).plus d).stored.iea = b.ea.isSome ∧
      ((src.record ctx).plus d).stored.rmd = (b.record ctx (a.first ctx src.base)).rmd := by
  have hosz : ((src.record ctx).plus d).osz = 3 := by
    change (src.record ctx).osz = 3
    rw [(src.record_frame ctx).1, base, h]
    rfl
  rw [Instruction.stored_three hosz]
  change (src.record ctx).rb = _ ∧ (src.record ctx).ibm = _ ∧ (src.record ctx).iea = _ ∧ (src.record ctx).rmd = _
  rw [record_two h]
  obtain ⟨-, -, -, -, -, hiea⟩ := b.record_frame ctx (a.first ctx src.base)
  obtain ⟨-, -, -, -, -, hiea'⟩ := a.record_frame ctx src.base
  refine ⟨rfl, rfl, ?_, rfl⟩
  change (b.record ctx (a.first ctx src.base)).iea = _
  rw [hiea]
  change (b.ea.isSome || (a.record ctx src.base).iea) = _
  rw [hiea', hea]
  exact Bool.or_false _

/-- An argument has an immediate when its record does. -/
theorem Arg.isImm_iff (arg : Arg) (as : AssemblerCtx) (instr : Instruction) :
    arg.isImm = true ↔ (arg.record as instr).rmd = .imm ∨ arg.ea.isSome := by
  obtain ⟨isMem, head, ea⟩ := arg
  cases ea with
  | some e => exact iff_of_true (by cases head <;> rfl) (.inr rfl)
  | none =>
    have hrmd := Arg.record_rmd as ⟨isMem, head, none⟩ instr
    cases head with
    | reg r => exact iff_of_false nofun (by rintro (hr | hr) <;> cases hr)
    | symbol isSizeOp range sub => cases sub <;> exact iff_of_true rfl (.inl rfl)
    | char | int => exact iff_of_true rfl (.inl rfl)

/-- A second operand is found where it lies if its number is. -/
theorem second_of_imm (hargs : src.args = [a, b]) (hea : a.ea = none) {vb : U64}
    (himm : b.isImm → ((src.record ctx).plus d).stored.ii = vb) (vm : Vm) :
    (vm.operandB ((src.record ctx).plus d).stored).place = (b.operand vb vm).place := by
  obtain ⟨hosz, -, -⟩ := src.stored_two_args ctx d hargs
  obtain ⟨hrb, hibm, hiea, hrmd⟩ := src.stored_second ctx d hargs hea
  rw [Vm.operandB, if_pos hosz, hrb, hibm, hiea, hrmd]
  by_cases hr : ∃ r, b.head = .reg r
  · rw [if_pos ((b.record_rmd ctx _).mpr hr)]
    obtain ⟨r, hr⟩ := hr
    have hii : (if b.ea.isSome = true then ((src.record ctx).plus d).stored.ii else 0) = if b.ea.isSome then vb else 0 := by
      split
      · rename_i hsome
        exact himm ((b.isImm_iff ctx src.base).mpr (.inr hsome))
      · rfl
    rw [hii, Arg.operand, hr]
    rfl
  · rw [if_neg (mt (b.record_rmd ctx _).mp hr)]
    have hrmd' : (b.record ctx src.base).rmd = .imm := by
      cases h : (b.record ctx src.base).rmd with
      | reg => exact absurd ((b.record_rmd ctx src.base).mp h) hr
      | imm => rfl
    have hii := himm ((b.isImm_iff _ _).mpr (.inl hrmd'))
    have hop : b.operand vb vm = if b.isMem then .mem none vb 0 else .imm := by
      unfold Arg.operand
      split
      · rename_i r hreg
        exact absurd ⟨r, hreg⟩ hr
      · rfl
    rw [hop, Vm.immOperand, hii]

variable (ctx d) in
/-- What the immediate of a decoded record comes from. -/
theorem SourceInstr.stored_ii (h : src.args = [a, b]) (hea : a.ea = none) (hreg : ∃ r, a.head = .reg r) (himm : b.isImm) :
    ∃ instr : Instruction, instr.ii = 0 ∧ (src.record ctx).ii = (b.record ctx instr).ii ∧
      ((src.record ctx).plus d).stored.ii =
        signTrunc (b.record ctx instr).ims.size ((b.record ctx instr).ii + d) := by
  obtain ⟨r, hr⟩ := hreg
  have hosz : ((src.record ctx).plus d).osz = 3 := by
    change (src.record ctx).osz = 3
    rw [(src.record_frame ctx).1, base, h]
    rfl
  obtain ⟨-, -, hiea, hrmd⟩ := src.stored_second ctx d h hea
  rw [Instruction.stored_three hosz] at hiea hrmd ⊢
  have hhas : ((src.record ctx).plus d).hasImm = true := by
    rw [Instruction.hasImm, Bool.or_eq_true, beq_iff_eq]
    rcases (b.isImm_iff ctx (a.first ctx src.base)).mp himm with hi | hi
    · exact .inl (hrmd.trans hi)
    · exact .inr (hiea.trans hi)
  have hzero : (a.first ctx src.base).ii = 0 := by
    change (a.record ctx src.base).ii = 0
    rw [a.record_ii ctx, Arg.number, hea, ArgHead.number.eq_def, hr]
    rfl
  refine ⟨a.first ctx src.base, hzero, by rw [record_two h]; rfl, ?_⟩
  rw [if_pos hhas, record_two h]
  rfl

/-- The record of an argument with a symbol that is left to the linker. -/
theorem Arg.pending_record {as : AssemblerCtx} {arg : Arg} (instr : Instruction) {patch : Patch} {rest : List Patch}
    (hd : arg.Defined as) (hp : arg.head.pending as = patch :: rest) :
    rest = [] ∧ arg.isImm ∧ (arg.record as instr).ims = arg.pendingMode ∧
      (arg.record as instr).ii = (arg.ea.map (EaPart.number as)).getD 0 := by
  obtain ⟨isMem, head, ea⟩ := arg
  cases head with
  | reg | char | int => cases hp
  | symbol isSizeOp range sub =>
    simp only [ArgHead.pending, AssemblerCtx.pending] at hp
    split at hp
    · rename_i hc
      obtain ⟨rfl, href⟩ := hc
      have hsub : sub = none := by
        obtain ⟨v, hv, hpos⟩ := hd.head
        rw [AssemblerCtx.value?, href] at hv
        obtain rfl := Option.some.inj hv
        cases sub with
        | none => rfl
        | some n => exact absurd (hpos rfl) (BitVec.lt_irrefl _)
      subst hsub
      refine ⟨(List.cons.inj hp).2.symm, by cases ea <;> rfl, ?_⟩
      rw [Arg.record, SourceInstr.label_record instr href]
      rcases ea with _ | ⟨n, isNeg⟩ | ⟨isSizeOp, range'⟩
      · exact ⟨rfl, rfl⟩
      · refine ⟨rfl, ?_⟩
        change 0 + (if isNeg = true then -n else n) = _
        rw [zero_add]
        rfl
      · refine ⟨rfl, ?_⟩
        change 0 + ((as.eaValue? isSizeOp range').getD 0).setWidth 64 = _
        rw [zero_add]
        rfl
    · cases hp

namespace Assembled
variable {prog : List Stmt} {lines : List Line} {as : AssemblerCtx} {db : Nat} {code : Code} {instrs : List Instruction}
  {j : Nat} {line : Line}

/-- The number of the only argument that may leave something to the linker is the immediate exactly when it is carried. -/
theorem imm_iff_only (h : Assembled prog lines as db code instrs) (hj : lines[j]? = some line) {instr : Instruction}
    (hdb : b.Defined line.ctx) (hpend : line.pending = b.head.pending line.ctx) (himm : b.isImm) (hzero : instr.ii = 0)
    (hii : (line.src.record line.ctx).ii = (b.record line.ctx instr).ii)
    (hstored : ((line.src.record line.ctx).plus (linkSum as db (as.instructions.map Instruction.linkSize) j)).stored.ii =
      signTrunc (b.record line.ctx instr).ims.size
        ((b.record line.ctx instr).ii + linkSum as db (as.instructions.map Instruction.linkSize) j)) :
    ((line.record.plus (linkSum as db (as.instructions.map Instruction.linkSize) j)).stored.ii = b.linked as line.ctx db instrs ↔
      b.Carried as line.ctx db instrs) := by
  rw [Line.record, hstored]
  rcases hp : b.head.pending line.ctx with _ | ⟨patch, rest⟩
  · have hsum : linkSum as db (as.instructions.map Instruction.linkSize) j = 0 := by
      rw [h.collected.linkSum_eq hj, hpend, hp, if_pos rfl, List.map_nil, List.sum_nil, sub_zero]
    have hnum := b.record_ii line.ctx instr
    rw [hzero] at hnum
    have hfits := b.signTrunc_iff line.ctx instr himm
    rw [hzero] at hfits
    rw [hsum, add_zero, Arg.linked, hp, ← hnum, hfits, Arg.Carried, hp]
    exact ⟨fun hf _ => hf, fun hf => hf himm⟩
  · obtain ⟨rfl, -, hims, hnum⟩ := b.pending_record instr hdb hp
    have hpos : patch.pos = j := h.collected.pending_pos hj patch (by rw [hpend, hp]; exact List.mem_singleton_self _)
    have hmem : patch ∈ as.patchWork := by
      rw [h.collected.patches.mem_iff]
      exact List.mem_flatMap.mpr ⟨line, List.mem_of_getElem? hj, by rw [hpend, hp]; exact List.mem_singleton_self _⟩
    have hsum := h.linkSum_patch hmem (line.src.record line.ctx)
    have hothers : ((as.patchWork.filter (·.pos = patch.pos)).erase patch) = [] := by
      have hperm := h.collected.patches_at hj
      rw [hpend, hp, ← hpos] at hperm
      have herase := hperm.erase patch
      rw [List.erase_cons_head] at herase
      exact herase.eq_nil
    rw [besides, hothers, List.map_nil, List.sum_nil, add_zero, hii, hnum, hpos] at hsum
    have hlinked : b.linked as line.ctx db instrs = wanted as db instrs patch + (b.ea.map (EaPart.number line.ctx)).getD 0 := by
      rw [Arg.linked, hp]
    have htotal : (b.ea.map (EaPart.number line.ctx)).getD 0 + linkSum as db (as.instructions.map Instruction.linkSize) j +
        leftOut as db instrs patch = 0 + b.linked as line.ctx db instrs := by rw [hsum, hlinked, zero_add, add_comm]
    have hlow := setWidth_eq_iff_of_add b.pendingMode.size_bits htotal
    rw [hnum, hims, signTrunc_eq_iff_low b.pendingMode.size_bits, hlow, Mode.signTrunc_eq_iff, Arg.Carried, hp, and_comm]
    have hz : (0 : U64).setWidth (8 * b.pendingMode.size) = 0 := BitVec.setWidth_zero _ _
    rw [hz]
    exact and_congr_left fun _ => eq_comm

/-- After a register, the number of the second argument is the immediate exactly when it is carried. -/
theorem imm_iff (h : Assembled prog lines as db code instrs) (hj : lines[j]? = some line) (hargs : line.src.args = [a, b])
    (hreg : ∃ r, a.head = .reg r) (himm : b.isImm) :
    ((line.record.plus (linkSum as db (as.instructions.map Instruction.linkSize) j)).stored.ii = b.linked as line.ctx db instrs ↔
      b.Carried as line.ctx db instrs) := by
  have hdef := h.collected.defined line (List.mem_of_getElem? hj)
  have hea : a.ea = none := hdef.ea a (by rw [hargs]; rfl)
  obtain ⟨instr, hzero, hii, hstored⟩ := line.src.stored_ii line.ctx
    (linkSum as db (as.instructions.map Instruction.linkSize) j) hargs hea hreg himm
  refine h.imm_iff_only hj (hdef.args b (by rw [hargs]; simp)) ?_ himm hzero hii hstored
  obtain ⟨r, hr⟩ := hreg
  rw [Line.pending, SourceInstr.pending, hargs, List.flatMap_cons, List.flatMap_singleton, hr]
  rfl

/-- A two-operand instruction denotes its operands exactly when the first is a register and the number of the second
    is carried. -/
theorem denotes_iff (h : Assembled prog lines as db code instrs) (hj : lines[j]? = some line) (hargs : line.src.args = [a, b]) :
    ∃ n dec, code.instructionAt {} (emitOffset db instrs j) = some (n, dec) ∧ dec.op = some line.src.opc ∧
      (Denotes dec a b (a.linked as line.ctx db instrs) (b.linked as line.ctx db instrs) ↔
        (∃ r, a.head = .reg r) ∧ b.Carried as line.ctx db instrs) := by
  have hins : instrs[j]? = some (line.record.plus (linkSum as db (as.instructions.map Instruction.linkSize) j)) := by
    rw [h.linked, h.collected.records, List.getElem?_map, hj]
    rfl
  have hdef := h.collected.defined line (List.mem_of_getElem? hj)
  have hea : a.ea = none := hdef.ea a (by rw [hargs]; rfl)
  obtain ⟨n, hd, -⟩ := h.image.decodes hins
  refine ⟨n, _, Code.instructionAt_of_decodes hd, ?_, ?_⟩
  · exact line.stored_op (h.collected.linkable line (List.mem_of_getElem? hj)) _
  · have hfirst := first_iff line.ctx (linkSum as db (as.instructions.map Instruction.linkSize) j) hargs hea
      (a.linked as line.ctx db instrs)
    constructor
    · rintro ⟨h1, -, h3⟩
      have hreg := hfirst.mp h1
      refine ⟨hreg, ?_⟩
      by_cases himm : b.isImm = true
      · exact (h.imm_iff hj hargs hreg himm).mp (h3 himm)
      · unfold Arg.Carried
        split
        · exact fun hi => absurd hi himm
        · rename_i patch rest hp
          exact absurd (b.pending_record {} (hdef.args b (by rw [hargs]; simp)) hp).2.1 himm
    · rintro ⟨hreg, hcarried⟩
      have himm : b.isImm → _ := fun hi => (h.imm_iff hj hargs hreg hi).mpr hcarried
      exact ⟨hfirst.mpr hreg, second_of_imm hargs hea himm, himm⟩

end Assembled

/-- The two-operand instructions of an assembled program: which of them denote the operands that are written. -/
theorem AsmM.assemble_denotes {into code : Code} {toks : List Token} {stop : Range} {log : List Diagnostic}
    {uninit : Nat → U8} {n : Nat} {as' : AssemblerCtx}
    (h : (assemble into).Returns (AssemblerCtx.init toks stop log uninit) (n, code) as') (herr : as'.errors = 0) :
    ∃ prog toks' as db, Steps (AssemblerCtx.init toks stop log uninit) prog toks' as ∧ as.itp.eof = true ∧
      as'.instructions.length = (instrsOf prog).length ∧ Image code db as'.instructions ∧
      ∀ j src a b, (instrsOf prog)[j]? = some src → src.args = [a, b] →
        ∃ before read ctx, Steps (AssemblerCtx.init toks stop log uninit) before read ctx ∧
          before ++ [.instr src] <+: prog ∧ ctx.instructions.length = j ∧
          ∃ k dec, code.instructionAt {} (emitOffset db as'.instructions j) = some (k, dec) ∧ dec.op = some src.opc ∧
            (Denotes dec a b (a.linked as ctx db as'.instructions) (b.linked as ctx db as'.instructions) ↔
              (∃ r, a.head = .reg r) ∧ b.Carried as ctx db as'.instructions) := by
  obtain ⟨prog, toks', lines, as, db, hsteps, heof, ha, hreached⟩ := assemble_returns h herr
  refine ⟨prog, toks', as, db, hsteps, heof, ha.length_instrs, ha.image, fun j src a b hj hargs => ?_⟩
  obtain ⟨line, hmem, hline, rfl, -⟩ := ha.exists_line hj
  obtain ⟨before, read, hread, hprefix⟩ := hreached line hmem
  exact ⟨before, read, line.ctx, hread, hprefix, ha.collected.pos j line hline, ha.denotes_iff hline hargs⟩

/-- `mov r0 r1` -/
def registerMove : List Token :=
  [wordToken .tokIdentifier ['m', 'o', 'v'], wordToken .tokIdentifier ['r', '0'], wordToken .tokIdentifier ['r', '1']]

theorem AsmM.assemble_denotes_registerMove :
    ∃ n code as', (assemble .empty).Returns (.init registerMove endRange [] fun _ => 0) (n, code) as' ∧ as'.errors = 0 ∧
      ∃ prog toks' as db, Steps (.init registerMove endRange [] fun _ => 0) prog toks' as ∧ Image code db as'.instructions := by
  obtain ⟨⟨n, code⟩, as', h, herr⟩ := Prog.exists_of_passes (m := assemble .empty) (s := .init registerMove endRange [] fun _ => 0)
    (p := fun _ as' => as'.errors == 0) (by decide)
  obtain ⟨prog, toks', as, db, hsteps, -, -, himage, -⟩ := assemble_denotes h (beq_iff_eq.mp herr)
  exact ⟨n, code, as', h, beq_iff_eq.mp herr, prog, toks', as, db, hsteps, himage⟩

/-- `mov 5 r1` -/
def numberMove : List Token :=
  [wordToken .tokIdentifier ['m', 'o', 'v'], wordToken .tokInteger ['5'] (.int 5), wordToken .tokIdentifier ['r', '1']]

/-- The first operand 5 is emitted as the register with the number of its width. -/
theorem AsmM.operand_not_denoted :
    ∃ n code as', (assemble .empty).Returns (.init numberMove endRange [] fun _ => 0) (n, code) as' ∧ as'.errors = 0 ∧
      ∃ k dec, code.instructionAt {} 16 = some (k, dec) ∧
        ∀ vm : Vm, (vm.operandA dec).place = .reg 0 ∧ (vm.operandA dec).place ≠ (Arg.operand ⟨false, .int 5 false, none⟩ 5 vm).place := by
  let dec : Instruction := { osz := 3, opc := 24, imd := .quad, rb := 1 }
  obtain ⟨⟨n, code⟩, as', h, htest⟩ := Prog.exists_of_passes (m := assemble .empty) (s := .init numberMove endRange [] fun _ => 0)
    (p := fun r as' => as'.errors = 0 ∧ r.2.instructionAt {} 16 = some (3, dec)) (by decide +kernel)
  obtain ⟨herr, hdec⟩ := of_decide_eq_true htest
  exact ⟨n, code, as', h, herr, 3, dec, hdec, fun vm => ⟨rfl, nofun⟩⟩

end Cyntatic
