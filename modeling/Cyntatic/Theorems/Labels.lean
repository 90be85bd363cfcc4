import Cyntatic.Theorems.AsmLink
import Cyntatic.Theorems.Sandbox

/-! # Labels

The displacement of a label, from the instruction that refers to it to the instruction after it. -/

namespace Cyntatic
open Library

namespace Collected
variable {prog : List Stmt} {lines : List Line} {as : AssemblerCtx} {line : Line} {j : Nat}

theorem pending_pos (h : Collected prog lines as) (hj : lines[j]? = some line) : ∀ p ∈ line.pending, p.pos = j := by
  intro p hp
  obtain ⟨arg, -, harg⟩ := List.mem_flatMap.mp hp
  have hlen := h.pos j line hj
  cases hhead : arg.head with
  | symbol isSizeOp range sub =>
    rw [hhead] at harg
    simp only [ArgHead.pending, AssemblerCtx.pending] at harg
    split at harg
    · rw [List.mem_singleton.mp harg]
      exact hlen
    · cases harg
  | reg | char | int =>
    rw [hhead] at harg
    cases harg

/-- The references of an instruction are found by its index. -/
theorem patches_at (h : Collected prog lines as) (hj : lines[j]? = some line) :
    (as.patchWork.filter (·.pos = j)).Perm line.pending := by
  refine (h.patches.filter _).trans ?_
  have hsplit := take_append_cons_drop hj
  have hother {i : Nat} {line' : Line} (hi : lines[i]? = some line') (hne : i ≠ j) :
      line'.pending.filter (·.pos = j) = [] := by
    refine List.filter_eq_nil_iff.mpr fun p hp => ?_
    rw [decide_eq_true_eq, h.pending_pos hi p hp]
    exact hne
  have hbefore : ((lines.take j).flatMap Line.pending).filter (·.pos = j) = [] := by
    rw [List.filter_flatMap, List.flatMap_eq_nil_iff]
    intro line' hmem
    obtain ⟨i, hi⟩ := List.getElem?_of_mem hmem
    have hlt := (List.getElem?_eq_some_iff.mp hi).1
    rw [List.length_take] at hlt
    rw [List.getElem?_take_of_lt (by omega)] at hi
    exact hother hi (by omega)
  have hafter : ((lines.drop (j + 1)).flatMap Line.pending).filter (·.pos = j) = [] := by
    rw [List.filter_flatMap, List.flatMap_eq_nil_iff]
    intro line' hmem
    obtain ⟨i, hi⟩ := List.getElem?_of_mem hmem
    rw [List.getElem?_drop] at hi
    exact hother hi (by omega)
  have hself : line.pending.filter (·.pos = j) = line.pending :=
    List.filter_eq_self.mpr fun p hp => by simp [h.pending_pos hj p hp]
  rw [← hsplit, List.flatMap_append, List.flatMap_cons, List.filter_append, List.filter_append, hbefore, hafter, hself,
    List.nil_append, List.append_nil]

/-- What linking adds to an instruction, by its own references. -/
theorem linkSum_eq (h : Collected prog lines as) (hj : lines[j]? = some line) (db : Nat) (sizes : List Nat) :
    linkSum as db sizes j =
      (line.pending.map (placed as db sizes)).sum - if line.pending = [] then 0 else ipAt db sizes j := by
  have hperm := h.patches_at hj
  have hany : (as.patchWork.any (·.pos = j)) = true ↔ ¬line.pending = [] := by
    rw [List.any_eq_true]
    constructor
    · rintro ⟨p, hp, hpos⟩ hnil
      have hmem := hperm.mem_iff.mp (List.mem_filter.mpr ⟨hp, hpos⟩)
      rw [hnil] at hmem
      cases hmem
    · intro hne
      obtain ⟨p, hp⟩ := List.exists_mem_of_ne_nil _ hne
      obtain ⟨hmem, hpos⟩ := List.mem_filter.mp (hperm.mem_iff.mpr hp)
      exact ⟨p, hmem, hpos⟩
  rw [linkSum, (hperm.map _).sum_eq]
  by_cases hnil : line.pending = []
  · rw [if_pos hnil, if_neg (mt hany.mp (not_not.mpr hnil))]
  · rw [if_neg hnil, if_pos (hany.mpr hnil)]

/-- A reference to a label is left to the linker wherever it stands. -/
theorem reference?_of_label (h : Collected prog lines as) (hline : line ∈ lines) {name : List U8} {k : Nat}
    (hk : labelIndex prog name = some k) : line.ctx.reference? name = none := by
  obtain ⟨sym, hfind, htag, -⟩ := h.labelled name k hk
  obtain ⟨rest, hrest⟩ := h.symbols line hline
  rw [AssemblerCtx.reference?]
  rcases hctx : line.ctx.findSymbol name with _ | sym'
  · rfl
  · rw [AssemblerCtx.findSymbol] at hfind hctx
    rw [← hrest, List.find?_append, hctx, Option.some_or] at hfind
    cases hfind
    simp [htag]

theorem target?_of_label (h : Collected prog lines as) {patch : Patch} {k : Nat}
    (hk : labelIndex prog patch.range.view = some k) : as.target? patch = some k := by
  obtain ⟨sym, hfind, htag, hid⟩ := h.labelled _ k hk
  have hle := labelIndex_le hk
  have hlen := h.len
  rw [h.length_instrs] at hle
  simp only [AssemblerCtx.target?, hfind, Option.filter_some, htag, decide_true, if_true, Option.map_some, hid,
    BitVec.toNat_ofNat, Option.some.injEq]
  omega

end Collected

/-! ### Instructions that refer to a label -/

/-- The last argument is a label without brackets, and no other one is a symbol. -/
structure SourceInstr.RefersTo (src : SourceInstr) (range : Range) : Prop where
  last : src.args.getLast? = some ⟨false, .symbol false range none, none⟩
  others : ∀ arg ∈ src.args.dropLast, ∀ isSizeOp range sub, arg.head ≠ .symbol isSizeOp range sub

theorem OpCode.mem_of_lookup? {name : List U8} {opc : OpCode} {n : Nat} (h : OpCode.lookup? name = some (opc, n)) :
    (opc, n) ∈ OpCode.table.map fun (o, _, n) => (o, n) := by
  obtain ⟨e, hfind, he⟩ := Option.map_eq_some_iff.mp h
  exact List.mem_map.mpr ⟨e, List.mem_of_find?_eq_some hfind, he⟩

theorem SourceInstr.Spelled.mem_table {src : SourceInstr} {toks : List Token} (h : src.Spelled toks) :
    (src.opc, src.args.length) ∈ OpCode.table.map fun (o, _, n) => (o, n) := by
  cases h with
  | mk _ hopc _ _ => exact OpCode.mem_of_lookup? hopc

theorem SourceInstr.Spelled.length_le {src : SourceInstr} {toks : List Token} (h : src.Spelled toks) : src.args.length ≤ 2 := by
  cases h with
  | mk _ hopc _ _ => exact AsmM.lookup?_le hopc

/-- An argument that is not a symbol leaves nothing to the linker. -/
theorem ArgHead.pending_eq_nil {as : AssemblerCtx} {head : ArgHead}
    (h : ∀ isSizeOp range sub, head ≠ .symbol isSizeOp range sub) : head.pending as = [] := by
  cases head with
  | symbol isSizeOp range sub => exact absurd rfl (h isSizeOp range sub)
  | _ => rfl

namespace SourceInstr
variable {as : AssemblerCtx} {src : SourceInstr} {range : Range}

/-- The arguments of an instruction that refers to a label. -/
theorem RefersTo.args (h : src.RefersTo range) (hlen : src.args.length ≤ 2) :
    src.args = [⟨false, .symbol false range none, none⟩] ∨ ∃ arg,
      (∀ isSizeOp range sub, arg.head ≠ .symbol isSizeOp range sub) ∧
      src.args = [arg, ⟨false, .symbol false range none, none⟩] := by
  have hlast := h.last
  have hothers := h.others
  rcases hargs : src.args with _ | ⟨a, _ | ⟨b, _ | ⟨c, rest⟩⟩⟩
  · rw [hargs] at hlast
    cases hlast
  · rw [hargs] at hlast
    obtain rfl := Option.some.inj hlast
    exact .inl rfl
  · rw [hargs] at hlast hothers
    obtain rfl := Option.some.inj hlast
    exact .inr ⟨a, hothers a (List.mem_singleton_self a), rfl⟩
  · rw [hargs] at hlen
    simp at hlen

theorem RefersTo.pending (h : src.RefersTo range) (hlen : src.args.length ≤ 2) (href : as.reference? range.view = none) :
    src.pending as = [⟨as.instructions.length, range⟩] := by
  have hlabel : ArgHead.pending as (.symbol false range none) = [⟨as.instructions.length, range⟩] := if_pos ⟨rfl, href⟩
  rw [SourceInstr.pending]
  rcases h.args hlen with hargs | ⟨arg, hsym, hargs⟩
  · rw [hargs, List.flatMap_singleton, hlabel]
  · rw [hargs, List.flatMap_cons, List.flatMap_singleton, hlabel, ArgHead.pending_eq_nil hsym, List.nil_append]

/-- A reference that is left to the linker is an immediate of four bytes. -/
theorem label_record (instr : Instruction) (href : as.reference? range.view = none) :
    ArgHead.record as instr (.symbol false range none) = { instr with rmd := .imm, ii := 0, ims := .word } := by
  have hvalue : as.value? false range = some 0 := by rw [AssemblerCtx.value?, href]; rfl
  rw [ArgHead.record, hvalue]
  rfl

theorem RefersTo.record (h : src.RefersTo range) (hlen : src.args.length ≤ 2) (href : as.reference? range.view = none) :
    (src.record as).rmd = .imm ∧ (src.record as).ims = .word ∧ (src.record as).ii = 0#64 ∧ (src.record as).osz ≠ 1 := by
  rw [SourceInstr.record]
  rcases h.args hlen with hargs | ⟨arg, hsym, hargs⟩
  · rw [hargs]
    dsimp only [Arg.first, Arg.record, Instruction.withEa]
    rw [label_record _ href, base, hargs]
    exact ⟨rfl, rfl, rfl, show (2 : Fin 4) ≠ 1 by decide⟩
  · have hosz := (arg.record_frame as src.base).1
    rw [hargs]
    dsimp only [Arg.second]
    rw [Arg.record, label_record _ href]
    refine ⟨rfl, rfl, rfl, ?_⟩
    change (arg.record as src.base).osz ≠ 1
    rw [hosz, base, hargs]
    exact show (3 : Fin 4) ≠ 1 by decide

end SourceInstr

theorem Instruction.Encodable.stored_opc {ins : Instruction} (h : ins.Encodable) : ins.stored.opc = ins.opc := by
  rcases h.osz_cases with h1 | h2 | h3
  · rw [stored_one h1]
  · rw [stored_two h2]
    split <;> rfl
  · rw [stored_three h3]

/-- The op code of a line, as it is decoded. -/
theorem Line.stored_op (line : Line) (h : line.record.Linkable) (d : U64) : (line.record.plus d).stored.op = some line.src.opc := by
  rw [Instruction.op, (h.plus d).stored_opc]
  change OpCode.ofNat? (line.src.record line.ctx).opc = _
  rw [(line.src.record_frame line.ctx).2.1]
  exact OpCode.ofNat?_toNat _

/-- The immediate of a decoded record, and what it leaves as it is. -/
theorem Instruction.stored_imm {ins : Instruction} (henc : ins.Encodable) (hosz : ins.osz ≠ 1) (hrmd : ins.rmd = .imm) :
    ins.stored.osz = ins.osz ∧ ins.stored.opc = ins.opc ∧ ins.stored.iam = ins.iam ∧ ins.stored.rmd = .imm ∧
      ins.stored.ims = ins.ims ∧ ins.stored.ii = signTrunc ins.ims.size ins.ii := by
  rcases henc.osz_cases with h1 | h2 | h3
  · exact absurd h1 hosz
  · rw [stored_two h2, if_pos hrmd]
    exact ⟨rfl, rfl, rfl, hrmd, rfl, rfl⟩
  · rw [stored_three h3, if_pos (by simp [hasImm, hrmd])]
    exact ⟨rfl, rfl, rfl, hrmd, rfl, rfl⟩

/-! ### Where a label is -/

/-- The difference of two offsets fits in four bytes. -/
theorem signTrunc_sub {a b : Nat} (ha : a < 2 ^ 31) (hb : b < 2 ^ 31) :
    signTrunc 4 (BitVec.ofNat 64 a - BitVec.ofNat 64 b) = BitVec.ofInt 64 ((a : Int) - b) := by
  have hsub : BitVec.ofNat 64 a - BitVec.ofNat 64 b = BitVec.ofInt 64 ((a : Int) - b) := by
    rw [← BitVec.ofInt_natCast, ← BitVec.ofInt_natCast, ← BitVec.toInt_inj, BitVec.toInt_sub, BitVec.toInt_ofInt,
      BitVec.toInt_ofInt, BitVec.toInt_ofInt, ← Int.sub_bmod]
  have hint : (BitVec.ofInt 64 ((a : Int) - b)).toInt = a - b := by
    rw [BitVec.toInt_ofInt]
    exact Int.bmod_eq_of_le (by omega) (by omega)
  rw [hsub]
  refine (signTrunc_eq_iff (by decide) (by decide) _).mpr ?_
  rw [hint]
  constructor <;> omega

namespace Assembled
variable {prog : List Stmt} {lines : List Line} {as : AssemblerCtx} {db : Nat} {code : Code} {instrs : List Instruction}

theorem sizes (h : Assembled prog lines as db code instrs) :
    as.instructions.map Instruction.linkSize = instrs.map Instruction.linkSize := by
  refine List.ext_getElem? fun j => ?_
  rw [List.getElem?_map, List.getElem?_map, h.linked, Option.map_map]
  rfl

theorem length_instrs (h : Assembled prog lines as db code instrs) : instrs.length = (instrsOf prog).length := by
  rw [h.collected.length_instrs, ← List.length_map Instruction.linkSize, ← h.sizes, List.length_map]

theorem emitOffset_lt (h : Assembled prog lines as db code instrs) (k : Nat) : emitOffset db instrs k < 2 ^ 31 :=
  lt_of_le_of_lt (h.image.emitOffset_le k) code.len_lt

/-- The linker and `VM_code_append_` agree on where an instruction is. -/
theorem ipAt_eq (h : Assembled prog lines as db code instrs) (k : Nat) :
    ipAt db (as.instructions.map Instruction.linkSize) k = BitVec.ofNat 64 (emitOffset db instrs k) := by
  have hlt := h.emitOffset_lt k
  rw [ipAt, h.sizes, ← h.image.emitOffset_eq]
  apply BitVec.eq_of_toNat_eq
  rw [BitVec.toNat_setWidth, BitVec.toNat_ofNat, BitVec.toNat_ofNat]
  omega

/-- An instruction of the program, as it is in the image. -/
theorem exists_line (h : Assembled prog lines as db code instrs) {j : Nat} {src : SourceInstr}
    (hj : (instrsOf prog)[j]? = some src) : ∃ line, line ∈ lines ∧ lines[j]? = some line ∧ line.src = src ∧
      instrs[j]? = some (line.record.plus (linkSum as db (as.instructions.map Instruction.linkSize) j)) := by
  rw [h.collected.instrs, List.getElem?_map] at hj
  obtain ⟨line, hline, hsrc⟩ := Option.map_eq_some_iff.mp hj
  refine ⟨line, List.mem_of_getElem? hline, hline, hsrc, ?_⟩
  rw [h.linked, h.collected.records, List.getElem?_map, hline]
  rfl

/-- The displacement of a label that has an instruction after it. -/
theorem linkSum_label (h : Assembled prog lines as db code instrs) {j k : Nat} {line : Line} {range : Range}
    (hline : lines[j]? = some line) (hpending : line.pending = [⟨j, range⟩])
    (hk : labelIndex prog range.view = some k) (hlt : k < (instrsOf prog).length) :
    linkSum as db (as.instructions.map Instruction.linkSize) j =
      BitVec.ofNat 64 (emitOffset db instrs k) - BitVec.ofNat 64 (emitOffset db instrs j) := by
  have htarget : as.target? ⟨j, range⟩ = some k := h.collected.target?_of_label hk
  have hsize : k < (as.instructions.map Instruction.linkSize).length := by rwa [List.length_map, ← h.collected.length_instrs]
  rw [h.collected.linkSum_eq hline, hpending, if_neg (List.cons_ne_nil _ _), List.map_singleton, List.sum_singleton, placed,
    htarget]
  simp only [if_pos hsize, h.ipAt_eq]

/-- An instruction that refers to a label, as it is decoded. -/
theorem decodes_label (h : Assembled prog lines as db code instrs) {j k : Nat} {src : SourceInstr} {range : Range}
    (hj : (instrsOf prog)[j]? = some src) (hr : src.RefersTo range) (hk : labelIndex prog range.view = some k)
    (hlt : k < (instrsOf prog).length) :
    ∃ n ins, code.Decodes (emitOffset db instrs j) n ins ∧ emitOffset db instrs (j + 1) = emitOffset db instrs j + n ∧
      ins.osz = Fin.ofNat 4 (src.args.length + 1) ∧ ins.op = some src.opc ∧
      (src.args.length = 1 → ins.iam = false) ∧ ins.rmd = .imm ∧ ins.ims = .word ∧
      ins.ii = BitVec.ofInt 64 ((emitOffset db instrs k : Int) - emitOffset db instrs j) := by
  obtain ⟨line, hmem, hline, rfl, hins⟩ := h.exists_line hj
  obtain ⟨toks, hspelled⟩ := h.collected.spelled line hmem
  have href := h.collected.reference?_of_label hmem hk
  have hpos := h.collected.pos j line hline
  have hpending : line.pending = [⟨j, range⟩] := by
    rw [Line.pending, hr.pending hspelled.length_le href, hpos]
  obtain ⟨hrmd, hims, hii, hosz⟩ := hr.record hspelled.length_le href
  obtain ⟨f1, f2, -⟩ := line.src.record_frame line.ctx
  obtain ⟨n, hd, hnext⟩ := h.image.decodes hins
  obtain ⟨s1, s2, s3, s4, s5, s6⟩ := Instruction.stored_imm (h.image.linkable _ (List.mem_of_getElem? hins)).toEncodable hosz hrmd
  refine ⟨n, _, hd, hnext, ?_, ?_, ?_, s4, s5.trans hims, ?_⟩
  · exact s1.trans f1
  · exact line.stored_op (h.collected.linkable line hmem) _
  · intro hone
    rcases hargs : line.src.args with _ | ⟨a, rest⟩
    · rw [hargs] at hone
      cases hone
    · rcases hr.args hspelled.length_le with hargs' | ⟨_, _, hargs'⟩
      · exact (s3.trans (SourceInstr.record_first _ hargs').1)
      · rw [hargs'] at hone
        cases hone
  · rw [s6]
    change signTrunc line.record.ims.size (line.record.ii + _) = _
    rw [Line.record, hims, hii, h.linkSum_label hline hpending hk hlt, BitVec.zero_add]
    exact signTrunc_sub (h.emitOffset_lt k) (h.emitOffset_lt j)

end Assembled

/-! ### Taking a jump -/

/-- A jump or a call is taken: the flags say so, and a call finds room on the stack. -/
def Vm.Takes (vm : Vm) : OpCode → Prop
  | .jmp => True
  | .jmpz => vm.HasFlag flgZero
  | .jmpnz => ¬vm.HasFlag flgZero
  | .jmpg => vm.HasFlag flgGreater
  | .jmps => vm.HasFlag flgLess
  | .call => vm.CanPush (vm.reg .sp) ∧ vm.CanPush (vm.reg .sp - 8)
  | _ => False

theorem Vm.Takes.arity {vm : Vm} {src : SourceInstr} {toks : List Token} (h : vm.Takes src.opc) (hs : src.Spelled toks) :
    src.args.length = 1 := by
  have hall : ∀ e ∈ OpCode.table.map (fun (o, _, n) => (o, n)),
      e.1 ∈ [OpCode.jmp, .jmpz, .jmpnz, .jmpg, .jmps, .call] → e.2 = 1 := by decide
  refine hall _ hs.mem_table ?_
  revert h
  cases src.opc <;> simp [Vm.Takes]

namespace VmM
open Prog

variable {vm vm' : Vm} {ins : Instruction} {iip : U64}

theorem jump_imm : (jump ins .imm .word iip).Returns vm () (vm.setReg .ip (iip + signTrunc 4 ins.ii)) := by
  simp only [jump, returns_bind, read_returns, setReg_returns]
  exact ⟨_, vm, ⟨trivial, rfl, rfl⟩, rfl⟩

theorem jumpIf_imm {flag : U64} {set : Bool} (h : (vm.reg .flg &&& flag != 0) = set) :
    (jumpIf ins .imm .word iip flag set).Returns vm () (vm.setReg .ip (iip + signTrunc 4 ins.ii)) := by
  simp only [jumpIf, returns_bind, getReg_returns]
  refine ⟨_, vm, ⟨rfl, rfl⟩, ?_⟩
  rw [if_pos h]
  exact jump_imm

variable (ins iip) in
theorem call_imm (h : vm.CanPush (vm.reg .sp)) (h' : vm.CanPush (vm.reg .sp - 8)) :
    ∃ vm', (call ins .imm .word iip).Returns vm () vm' ∧ vm'.reg .ip = iip + signTrunc 4 ins.ii := by
  simp only [call, returns_bind, push_getReg_returns (r := .ip) (by decide), push_getReg_returns (r := .bp) (by decide),
    getReg_returns, setReg_returns]
  exact ⟨_, ⟨(), _, ⟨h, rfl⟩, (), _, ⟨h', rfl⟩, _, _, ⟨rfl, rfl⟩, (), _, rfl, jump_imm⟩, Vm.reg_setReg ..⟩

variable (iip) in
/-- A jump or call that is taken adds its immediate to the offset of the instruction. -/
theorem execute_taken (host : Host) (hosz : ins.osz = 2) (hiam : ins.iam = false) (hrmd : ins.rmd = .imm)
    (hims : ins.ims = .word) {opc : OpCode} (hop : ins.op = some opc) (h : vm.Takes opc) :
    ∃ vm', (execute host ins iip).Returns vm () vm' ∧ vm'.reg .ip = iip + signTrunc 4 ins.ii := by
  have hoperands : (operands ins).Returns vm (.imm, .null) vm := by
    rw [operands, hosz]
    simp only [placeOnly, hrmd, placeImm, hiam, returns_bind, returns_pure]
    exact ⟨.imm, vm, by simp, rfl, rfl⟩
  have hmode : ins.modeB = .word := by simp [Instruction.modeB, hrmd, hims]
  have hexec {vm' : Vm} (ha : (apply host ins iip .imm .null).Returns vm () vm') : (execute host ins iip).Returns vm () vm' :=
    execute_returns.mpr ⟨_, _, hoperands, ha⟩
  simp only [apply, hop, hmode] at hexec
  cases opc with
  | jmp => exact ⟨_, hexec jump_imm, Vm.reg_setReg ..⟩
  | jmpz => exact ⟨_, hexec (jumpIf_imm (bne_iff_ne.mpr h)), Vm.reg_setReg ..⟩
  | jmpnz => exact ⟨_, hexec (jumpIf_imm (bne_eq_false_iff_eq.mpr (not_not.mp h))), Vm.reg_setReg ..⟩
  | jmpg => exact ⟨_, hexec (jumpIf_imm (bne_iff_ne.mpr h)), Vm.reg_setReg ..⟩
  | jmps => exact ⟨_, hexec (jumpIf_imm (bne_iff_ne.mpr h)), Vm.reg_setReg ..⟩
  | call =>
    obtain ⟨vm', hcall, hip⟩ := call_imm ins iip h.1 h.2
    exact ⟨vm', hexec hcall, hip⟩
  | _ => exact absurd h id

end VmM

/-- The offset of an instruction and the displacement from it. -/
theorem offset_add_displacement (a b : Nat) : BitVec.ofNat 64 a + BitVec.ofInt 64 ((b : Int) - a) = BitVec.ofNat 64 b := by
  rw [← BitVec.ofInt_natCast, ← BitVec.ofInt_add, add_sub_cancel, BitVec.ofInt_natCast]

namespace Assembled
variable {prog : List Stmt} {lines : List Line} {as : AssemblerCtx} {db : Nat} {code : Code} {instrs : List Instruction}

/-- An instruction that refers to a label has the distance of the instruction after the label as its immediate,
    and takes a jump there. -/
theorem label_correct (h : Assembled prog lines as db code instrs) {j k : Nat} {src : SourceInstr} {range : Range}
    (hj : (instrsOf prog)[j]? = some src) (hr : src.RefersTo range) (hk : labelIndex prog range.view = some k)
    (hlt : k < (instrsOf prog).length) :
    ∃ ins, ins.ii = BitVec.ofInt 64 ((emitOffset db instrs k : Int) - emitOffset db instrs j) ∧
      (∀ vm : Vm, vm.code = code → vm.reg .ip = BitVec.ofNat 64 (emitOffset db instrs j) →
        (VmM.fetch {}).Returns vm (BitVec.ofNat 64 (emitOffset db instrs j), ins)
          (vm.setReg .ip (BitVec.ofNat 64 (emitOffset db instrs (j + 1))))) ∧
      ∀ (host : Host) (vm : Vm), vm.Takes src.opc →
        ∃ vm', (VmM.execute host ins (BitVec.ofNat 64 (emitOffset db instrs j))).Returns vm () vm' ∧
          vm'.reg .ip = BitVec.ofNat 64 (emitOffset db instrs k) := by
  obtain ⟨n, ins, hd, hnext, hosz, hop, hiam, hrmd, hims, hii⟩ := h.decodes_label hj hr hk hlt
  refine ⟨ins, hii, ?_, ?_⟩
  · rintro vm rfl hip
    have hfetch := VmM.fetch_of_decodes hd
    rwa [Vm.goto_eq hip, ← hnext] at hfetch
  · intro host vm htakes
    obtain ⟨line, hmem, -, rfl, -⟩ := h.exists_line hj
    obtain ⟨toks, hspelled⟩ := h.collected.spelled line hmem
    have hone := htakes.arity hspelled
    rw [hone] at hosz
    obtain ⟨vm', hexec, hip⟩ := VmM.execute_taken (BitVec.ofNat 64 (emitOffset db instrs j)) host hosz (hiam hone) hrmd hims hop htakes
    refine ⟨vm', hexec, ?_⟩
    have hsub : BitVec.ofNat 64 (emitOffset db instrs k) - BitVec.ofNat 64 (emitOffset db instrs j) = ins.ii := by
      rw [hii, ← offset_add_displacement (emitOffset db instrs j) (emitOffset db instrs k)]
      rw [add_sub_cancel_left]
    have htrunc := signTrunc_sub (h.emitOffset_lt k) (h.emitOffset_lt j)
    rw [hsub, ← hii] at htrunc
    rw [hip, htrunc, hii, offset_add_displacement]

end Assembled

/-- Labels are linked correctly in every program that is assembled without errors. -/
theorem AsmM.assemble_links_labels {into code : Code} {toks : List Token} {stop : Range} {log : List Diagnostic}
    {uninit : Nat → U8} {n : Nat} {as' : AssemblerCtx}
    (h : (assemble into).Returns (AssemblerCtx.init toks stop log uninit) (n, code) as') (herr : as'.errors = 0) :
    ∃ prog toks' as db, Steps (AssemblerCtx.init toks stop log uninit) prog toks' as ∧ as.itp.eof = true ∧
      as'.instructions.length = (instrsOf prog).length ∧ Image code db as'.instructions ∧
      ∀ j src range k, (instrsOf prog)[j]? = some src → src.RefersTo range → labelIndex prog range.view = some k →
        k < (instrsOf prog).length →
        ∃ ins, ins.ii = BitVec.ofInt 64 ((emitOffset db as'.instructions k : Int) - emitOffset db as'.instructions j) ∧
          (∀ vm : Vm, vm.code = code → vm.reg .ip = BitVec.ofNat 64 (emitOffset db as'.instructions j) →
            (VmM.fetch {}).Returns vm (BitVec.ofNat 64 (emitOffset db as'.instructions j), ins)
              (vm.setReg .ip (BitVec.ofNat 64 (emitOffset db as'.instructions (j + 1))))) ∧
          ∀ (host : Host) (vm : Vm), vm.Takes src.opc →
            ∃ vm', (VmM.execute host ins (BitVec.ofNat 64 (emitOffset db as'.instructions j))).Returns vm () vm' ∧
              vm'.reg .ip = BitVec.ofNat 64 (emitOffset db as'.instructions k) := by
  obtain ⟨prog, toks', lines, as, db, hsteps, heof, ha, -⟩ := assemble_returns h herr
  exact ⟨prog, toks', as, db, hsteps, heof, ha.length_instrs, ha.image, fun _ _ _ _ => ha.label_correct⟩

/-- `a: jmp a` -/
def selfJump : List Token :=
  [wordToken .tokIdentifier ['a'], wordToken .tokColon [':'], wordToken .tokIdentifier ['j', 'm', 'p'],
    wordToken .tokIdentifier ['a']]

theorem AsmM.assemble_links_labels_selfJump :
    ∃ n code as', (assemble .empty).Returns (.init selfJump endRange [] fun _ => 0) (n, code) as' ∧
      ∃ prog toks' as db, Steps (.init selfJump endRange [] fun _ => 0) prog toks' as ∧ Image code db as'.instructions := by
  obtain ⟨⟨n, code⟩, as', h, herr⟩ := Prog.exists_of_passes (m := assemble .empty) (s := .init selfJump endRange [] fun _ => 0)
    (p := fun _ as' => as'.errors == 0) (by decide)
  obtain ⟨prog, toks', as, db, hsteps, -, -, himage, -⟩ := assemble_links_labels h (beq_iff_eq.mp herr)
  exact ⟨n, code, as', h, prog, toks', as, db, hsteps, himage⟩

end Cyntatic
