import Cyntatic.Theorems.Boundaries
import Cyntatic.Theorems.Machine
import Cyntatic.Theorems.Operands

/-! # Listings

What an assembly program means without its encoding: the operands are those that are written, and the next instruction
is found by its place in the listing. The machine that runs the image does what the listing says. -/

namespace Cyntatic
open Library

/-! ### What a listing means -/

/-- The width of the number of an argument: that of the last number that is written, of a character, or of the value of
    a symbol, which is four bytes as long as it is not known. In an effective address a variable has eight bytes. -/
def Arg.width (as : AssemblerCtx) (arg : Arg) : Mode :=
  match arg.ea, arg.head with
  | some (.int n _), _ => .integerSize n
  | some (.symbol _ _), _ => .quad
  | none, .reg _ => .byte
  | none, .char _ => .word
  | none, .int n _ => .integerSize n
  | none, .symbol _ _ (some n) => .integerSize n
  | none, .symbol isSizeOp range none =>
    let v := (as.value? isSizeOp range).getD 0
    if v = 0 then .word else .integerSize (v.setWidth 64)

/-- The argument is a register, or in the memory that one addresses. -/
def Arg.isReg (arg : Arg) : Bool :=
  match arg.head with
  | .reg _ => true
  | _ => false

/-- The operand that an argument is, for the number that it stands for. -/
def Arg.place (arg : Arg) (v : U64) : VmM Place :=
  match arg.head with
  | .reg r => VmM.placeReg ⟨r.toNat, r.toNat_lt⟩ arg.isMem (if arg.ea.isSome then v else 0)
  | _ => if arg.isMem then do return .ram (← VmM.mem (v.setWidth 32)) v else return .imm

/-- The operation of an instruction, with the number and the width of its last argument. -/
def SourceInstr.operation (src : SourceInstr) (v : U64) (w : Mode) : Instruction :=
  { src.base with
    iam := src.args.head?.any (·.isMem)
    rmd := if src.args.getLast?.all (·.isReg) then .reg else .imm
    ims := w
    ii := v }

/-- The instructions of a program, where each of them lies, and the numbers and widths of their arguments. -/
structure Listing where
  instrs : List SourceInstr
  pos : Nat → U64
  number : Nat → Arg → U64
  width : Nat → Arg → Mode

namespace Listing
open VmM

variable (L : Listing) (host : Host)

/-- The operation of instruction `i` on its operands. -/
def perform (i : Nat) (src : SourceInstr) : VmM Unit :=
  match src.args with
  | [] => apply host (src.operation 0 .byte) (L.pos i) .null .null
  | [a] => do
    let rA ← a.place (L.number i a)
    apply host (src.operation (L.number i a) (L.width i a)) (L.pos i) rA .null
  | a :: b :: _ => do
    let rA ← a.place (L.number i a)
    let rB ← b.place (L.number i b)
    apply host (src.operation (L.number i b) (L.width i b)) (L.pos i) rA rB

/-- Instruction `i`: what comes after it is the next one, unless it says otherwise. -/
def exec (i : Nat) (src : SourceInstr) : VmM Unit := do
  setReg .ip (L.pos (i + 1))
  L.perform host i src

/-- The instruction at an offset, and its place. -/
def at? (ip : U64) : Option (Nat × SourceInstr) :=
  ((List.range L.instrs.length).find? fun i => L.pos i = ip).bind fun i => L.instrs[i]?.map fun src => (i, src)

/-- The instructions one after the other: whether the program ends within some number of them. Nothing is said where
    control leaves the listing. -/
def loop : (fuel : Nat) → VmM (Option Bool)
  | 0 => return some false
  | fuel + 1 => do
    let ip ← getReg .ip
    if ip = L.pos L.instrs.length then return some true
    else match L.at? ip with
      | some (i, src) => do
        L.exec host i src
        if (← Prog.get).flags &&& eflHalt != 0 then return some true
        else loop fuel
      | none => return none

end Listing

/-- The listing of a program that was assembled: `ctx` is what the assembler knew at each instruction. -/
def listing (prog : List Stmt) (as : AssemblerCtx) (ctx : Nat → AssemblerCtx) (db : Nat) (instrs : List Instruction) : Listing where
  instrs := instrsOf prog
  pos i := BitVec.ofNat 64 (emitOffset db instrs i)
  number i arg := arg.linked as (ctx i) db instrs
  width i arg := arg.width (ctx i)

/-- The encoding has room for what an instruction says: the first of two arguments is a register, and the number of the
    last one is carried. -/
structure SourceInstr.Expressible (src : SourceInstr) (as ctx : AssemblerCtx) (db : Nat) (instrs : List Instruction) : Prop where
  first : src.args.length = 2 → src.args.head?.all (·.isReg)
  last : ∀ arg ∈ src.args.getLast?, arg.Carried as ctx db instrs

/-! ### Decoded instructions -/

theorem Arg.isReg_iff {arg : Arg} : arg.isReg = true ↔ ∃ r, arg.head = .reg r := by
  unfold Arg.isReg
  split
  · rename_i r hr
    exact iff_of_true rfl ⟨r, hr⟩
  · rename_i hne
    refine iff_of_false Bool.false_ne_true ?_
    rintro ⟨r, hr⟩
    exact hne r hr

/-- The width that the assembler chooses. -/
theorem Arg.record_ims {as : AssemblerCtx} {instr : Instruction} (h : instr.ims = .byte) (arg : Arg) :
    (arg.record as instr).ims = arg.width as := by
  obtain ⟨isMem, head, ea⟩ := arg
  rcases ea with _ | ⟨n, isNeg⟩ | ⟨isSizeOp, range⟩
  · cases head with
    | reg r => exact h
    | symbol isSizeOp range sub => cases sub <;> rfl
    | char | int => rfl
  · rfl
  · rfl

theorem Arg.record_mode {as : AssemblerCtx} {instr : Instruction} (arg : Arg) :
    (arg.record as instr).rmd = if arg.isReg then .reg else .imm := by
  split
  · rename_i h
    exact (arg.record_rmd as instr).mpr (Arg.isReg_iff.mp h)
  · rename_i h
    cases hr : (arg.record as instr).rmd with
    | imm => rfl
    | reg => exact absurd (Arg.isReg_iff.mpr ((arg.record_rmd as instr).mp hr)) h

/-- An argument that is only a register stands for no number. -/
theorem Arg.linked_of_not_imm {as ctx : AssemblerCtx} {db : Nat} {instrs : List Instruction} {arg : Arg} (h : ¬arg.isImm) :
    arg.linked as ctx db instrs = 0 := by
  obtain ⟨isMem, head, ea⟩ := arg
  cases ea with
  | some e => cases head <;> exact absurd rfl h
  | none =>
    cases head with
    | reg r => rfl
    | symbol | char | int => exact absurd rfl h

/-- A record has the operation of an instruction. Where its operands are is another matter. -/
structure SourceInstr.SaidBy (src : SourceInstr) (v : U64) (w : Mode) (ins : Instruction) : Prop where
  osz : ins.osz = (src.operation v w).osz
  opc : ins.opc = (src.operation v w).opc
  iam : ins.iam = (src.operation v w).iam
  rmd : ins.rmd = (src.operation v w).rmd
  imd : ins.imd = (src.operation v w).imd
  ims : ins.ims = w
  ii : ins.ii = v

namespace VmM
open Prog

variable {host : Host} {iip v : U64} {rA rB : Place} {ins : Instruction} {arg : Arg}

/-- An operation does not read where its operands are. -/
theorem apply_said {src : SourceInstr} {w : Mode} (h : src.SaidBy v w ins) :
    apply host ins iip rA rB = apply host (src.operation v w) iip rA rB := by
  obtain ⟨hosz, hopc, hiam, hrmd, himd, hims, hii⟩ := h
  obtain ⟨osz, opc, ra, iam, rmd, imd, ims, rb, ibm, iea, ii⟩ := ins
  dsimp only at hosz hopc hiam hrmd himd hims hii
  subst hosz hopc hiam hrmd himd hims hii
  rfl

theorem place_reg {r : Register} (h : arg.head = .reg r) :
    arg.place v = placeReg ⟨r.toNat, r.toNat_lt⟩ arg.isMem (if arg.ea.isSome then v else 0) := by
  rw [Arg.place, h]

theorem place_imm (h : ¬arg.isReg) (hii : ins.ii = v) : arg.place v = placeImm ins arg.isMem := by
  unfold Arg.place placeImm
  rw [hii]
  split
  · rename_i r hr
    exact absurd (Arg.isReg_iff.mpr ⟨r, hr⟩) h
  · rfl

/-- An instruction without operands. -/
theorem execute_none (hosz : ins.osz = 1) : execute host ins iip = apply host ins iip .null .null := by
  rw [execute, operands, hosz]
  rfl

/-- An instruction with one operand. -/
theorem execute_only (hosz : ins.osz = 2) :
    execute host ins iip = (do
      let rA ← placeOnly ins
      apply host ins iip rA .null : VmM Unit) := by
  rw [execute, operands, hosz]
  exact bind_then

/-- An instruction with two operands. -/
theorem execute_both (hosz : ins.osz = 3) :
    execute host ins iip = (do
      let rA ← placeReg ins.ra ins.iam 0
      let rB ← placeB ins
      apply host ins iip rA rB : VmM Unit) := by
  rw [execute, operands, hosz]
  refine bind_then.trans (congrArg (placeReg ins.ra ins.iam 0 >>= ·) (funext fun rA => ?_))
  exact bind_then

end VmM

namespace Assembled
open VmM Prog

variable {prog : List Stmt} {lines : List Line} {as : AssemblerCtx} {db : Nat} {code : Code} {instrs : List Instruction}
  {ctx : Nat → AssemblerCtx} {host : Host} {j : Nat} {line : Line} {a b : Arg}

/-- Instruction `j`, as it is decoded. -/
abbrev decodedAt (as : AssemblerCtx) (db : Nat) (j : Nat) (line : Line) : Instruction :=
  (line.record.plus (linkSum as db (as.instructions.map Instruction.linkSize) j)).stored

theorem perform_none (h : Assembled prog lines as db code instrs) (hj : lines[j]? = some line) (hargs : line.src.args = []) :
    execute host (decodedAt as db j line) (BitVec.ofNat 64 (emitOffset db instrs j)) =
      (listing prog as ctx db instrs).perform host j line.src := by
  obtain ⟨toks, hspelled⟩ := h.collected.spelled line (List.mem_of_getElem? hj)
  have hop := line.stored_op (h.collected.linkable line (List.mem_of_getElem? hj))
    (linkSum as db (as.instructions.map Instruction.linkSize) j)
  have hosz : (line.record.plus (linkSum as db (as.instructions.map Instruction.linkSize) j)).osz = 1 := by
    change (line.src.record line.ctx).osz = 1
    rw [(line.src.record_frame line.ctx).1, SourceInstr.base, hargs]
    rfl
  have hbare : line.src.opc = .halt ∨ line.src.opc = .dbg := by
    have hall : ∀ e ∈ OpCode.table, e.2.2 = 0 → e.1 = OpCode.halt ∨ e.1 = OpCode.dbg := by decide
    obtain ⟨e, he, heq⟩ := List.mem_map.mp hspelled.mem_table
    obtain ⟨hopc, hnargs⟩ := Prod.mk.inj heq
    exact hopc ▸ hall e he (by rw [hnargs, hargs, List.length_nil])
  have hsame : ∀ ins ins' : Instruction, ins.op = some line.src.opc → ins'.op = some line.src.opc → ∀ iip,
      apply host ins iip .null .null = apply host ins' iip .null .null := by
    intro ins ins' hop hop' iip
    rw [apply, apply, hop, hop']
    rcases hbare with hb | hb <;> rw [hb]
  have hdec : (decodedAt as db j line).osz = 1 := by
    rw [decodedAt, Instruction.stored_one hosz]
    exact hosz
  rw [execute_none hdec, Listing.perform, hargs]
  exact hsame _ _ hop (show (line.src.operation 0 .byte).op = _ from OpCode.ofNat?_toNat _) _

/-- What an instruction with one argument is decoded to. -/
theorem decoded_one (h : Assembled prog lines as db code instrs) (hj : lines[j]? = some line) (hargs : line.src.args = [a])
    (hcarried : a.Carried as line.ctx db instrs) :
    (decodedAt as db j line).ra = ⟨a.head.register.toNat, a.head.register.toNat_lt⟩ ∧
      line.src.SaidBy (a.linked as line.ctx db instrs) (a.width line.ctx) (decodedAt as db j line) := by
  have hdef := h.collected.defined line (List.mem_of_getElem? hj)
  have hea : a.ea = none := hdef.ea a (by rw [hargs]; rfl)
  have hrec : line.src.record line.ctx = a.first line.ctx line.src.base := by rw [SourceInstr.record, hargs]
  have hosz : (line.record.plus (linkSum as db (as.instructions.map Instruction.linkSize) j)).osz = 2 := by
    change (line.src.record line.ctx).osz = 2
    rw [(line.src.record_frame line.ctx).1, SourceInstr.base, hargs]
    rfl
  obtain ⟨-, hopc, himd⟩ := line.src.record_frame line.ctx
  obtain ⟨hiam, hra⟩ := SourceInstr.record_first line.ctx hargs
  have hrmd : (line.src.record line.ctx).rmd = if a.isReg then .reg else .imm := by rw [hrec]; exact a.record_mode
  have hims : (line.src.record line.ctx).ims = a.width line.ctx := by rw [hrec]; exact a.record_ims rfl
  have hsize : (line.src.operation (a.linked as line.ctx db instrs) (a.width line.ctx)).osz = 2 := by
    rw [SourceInstr.operation, SourceInstr.base, hargs]
    rfl
  have hmode : (line.src.operation (a.linked as line.ctx db instrs) (a.width line.ctx)).rmd = if a.isReg then .reg else .imm := by
    simp only [SourceInstr.operation, hargs, List.getLast?_singleton, Option.all_some]
  have hmem : (line.src.operation (a.linked as line.ctx db instrs) (a.width line.ctx)).iam = a.isMem := by
    simp only [SourceInstr.operation, hargs, List.head?_cons, Option.any_some]
  by_cases hreg : a.isReg = true
  · rw [if_pos hreg] at hrmd hmode
    obtain ⟨r, hr⟩ := Arg.isReg_iff.mp hreg
    have hnot : ¬a.isImm = true := by
      rw [Arg.isImm, hr, hea]
      exact Bool.false_ne_true
    have hstored : decodedAt as db j line = _ := (Instruction.stored_two hosz).trans
      (if_neg (show (line.src.record line.ctx).rmd ≠ .imm by rw [hrmd]; decide))
    have hrmd' : (a.record line.ctx line.src.base).rmd = .reg := (a.record_rmd _ _).mpr ⟨r, hr⟩
    rw [AsmM.Instruction.argRa, if_neg (by rw [hrmd']; decide)] at hra
    rw [hstored]
    refine ⟨hra, hosz.trans hsize.symm, hopc, hiam.trans hmem.symm, hrmd.trans hmode.symm, himd, ?_, ?_⟩
    · rw [Arg.width, hea, hr]
    · exact (Arg.linked_of_not_imm hnot).symm
  · rw [if_neg hreg] at hrmd hmode
    have himm : a.isImm = true := by
      rw [a.isImm_iff line.ctx line.src.base, a.record_mode, if_neg hreg]
      exact .inl rfl
    have hstored : decodedAt as db j line = _ := (Instruction.stored_two hosz).trans (if_pos hrmd)
    have hregister : a.head.register = .r0 := by
      cases hhead : a.head with
      | reg r => exact absurd (Arg.isReg_iff.mpr ⟨r, hhead⟩) hreg
      | _ => rfl
    have hii : (decodedAt as db j line).ii = a.linked as line.ctx db instrs := by
      refine (h.imm_iff_only hj (hdef.args a (by rw [hargs]; exact List.mem_singleton_self a)) ?_ himm
        (show line.src.base.ii = 0 from rfl) (by rw [hrec]; rfl) ?_).mpr hcarried
      · rw [Line.pending, SourceInstr.pending, hargs, List.flatMap_singleton]
      · rw [← Line.record, show (line.record.plus _).stored = _ from hstored]
        change signTrunc (line.src.record line.ctx).ims.size ((line.src.record line.ctx).ii + _) = _
        rw [hrec]
        rfl
    refine ⟨?_, ?_, ?_, ?_, ?_, ?_, ?_, hii⟩ <;> rw [hstored]
    · rw [hregister]
      rfl
    · exact hosz.trans hsize.symm
    · exact hopc
    · exact hiam.trans hmem.symm
    · exact hrmd.trans hmode.symm
    · exact himd
    · exact hims

theorem perform_one (h : Assembled prog lines as db code instrs) (hj : lines[j]? = some line) (hctx : ctx j = line.ctx)
    (hargs : line.src.args = [a]) (hcarried : a.Carried as line.ctx db instrs) :
    execute host (decodedAt as db j line) (BitVec.ofNat 64 (emitOffset db instrs j)) =
      (listing prog as ctx db instrs).perform host j line.src := by
  have hea : a.ea = none := (h.collected.defined line (List.mem_of_getElem? hj)).ea a (by rw [hargs]; rfl)
  obtain ⟨hra, hsaid⟩ := h.decoded_one hj hargs hcarried
  have hosz : (decodedAt as db j line).osz = 2 := by
    rw [hsaid.osz, SourceInstr.operation, SourceInstr.base, hargs]
    rfl
  have hiam : (decodedAt as db j line).iam = a.isMem := by
    simp only [hsaid.iam, SourceInstr.operation, hargs, List.head?_cons, Option.any_some]
  have hrmd : (decodedAt as db j line).rmd = if a.isReg then .reg else .imm := by
    simp only [hsaid.rmd, SourceInstr.operation, hargs, List.getLast?_singleton, Option.all_some]
  have hplace : placeOnly (decodedAt as db j line) = a.place (a.linked as line.ctx db instrs) := by
    rw [placeOnly, hrmd, hiam, hra]
    by_cases hreg : a.isReg = true
    · obtain ⟨r, hr⟩ := Arg.isReg_iff.mp hreg
      rw [if_pos (if_pos hreg), place_reg hr, hea, hr]
      rfl
    · rw [if_neg hreg, if_neg (by decide), place_imm hreg hsaid.ii]
  rw [execute_only hosz, hplace, Listing.perform, hargs]
  change (_ : VmM Unit) = a.place (a.linked as (ctx j) db instrs) >>= fun rA =>
    apply host (line.src.operation (a.linked as (ctx j) db instrs) (a.width (ctx j))) _ rA .null
  rw [hctx]
  exact congrArg (a.place (a.linked as line.ctx db instrs) >>= ·) (funext fun rA => apply_said hsaid)

/-- What an instruction with two arguments is decoded to. -/
theorem decoded_two (h : Assembled prog lines as db code instrs) (hj : lines[j]? = some line) (hargs : line.src.args = [a, b])
    (hreg : a.isReg = true) (hcarried : b.Carried as line.ctx db instrs) :
    line.src.SaidBy (b.linked as line.ctx db instrs) (b.width line.ctx) (decodedAt as db j line) := by
  have hea : a.ea = none := (h.collected.defined line (List.mem_of_getElem? hj)).ea a (by rw [hargs]; rfl)
  obtain ⟨r, hr⟩ := Arg.isReg_iff.mp hreg
  obtain ⟨hosz, -, hiam⟩ := line.src.stored_two_args line.ctx (linkSum as db (as.instructions.map Instruction.linkSize) j) hargs
  obtain ⟨-, -, hiea, hrmd⟩ := line.src.stored_second line.ctx (linkSum as db (as.instructions.map Instruction.linkSize) j) hargs hea
  obtain ⟨-, hopc, himd⟩ := line.src.record_frame line.ctx
  have hrec : line.src.record line.ctx = _ := SourceInstr.record_two hargs
  have hthree : (line.record.plus (linkSum as db (as.instructions.map Instruction.linkSize) j)).osz = 3 := by
    change (line.src.record line.ctx).osz = 3
    rw [(line.src.record_frame line.ctx).1, SourceInstr.base, hargs]
    rfl
  have hstored : decodedAt as db j line = _ := Instruction.stored_three hthree
  have hfirst : (a.first line.ctx line.src.base).ims = .byte := by
    change (a.record line.ctx line.src.base).ims = .byte
    rw [a.record_ims rfl, Arg.width, hea, hr]
  refine ⟨?_, ?_, ?_, ?_, ?_, ?_, ?_⟩
  · refine hosz.trans ?_
    rw [SourceInstr.operation, SourceInstr.base, hargs]
    rfl
  · rw [hstored]
    exact hopc
  · refine hiam.trans ?_
    simp only [SourceInstr.operation, hargs, List.head?_cons, Option.any_some]
  · refine hrmd.trans (b.record_mode.trans ?_)
    simp only [SourceInstr.operation, hargs, List.getLast?_cons_cons, List.getLast?_singleton, Option.all_some]
  · rw [hstored]
    exact himd
  · rw [hstored]
    change (line.src.record line.ctx).ims = _
    rw [hrec]
    exact b.record_ims hfirst
  · by_cases himm : b.isImm = true
    · exact (h.imm_iff hj hargs ⟨r, hr⟩ himm).mpr hcarried
    · have hnone : ¬(decodedAt as db j line).hasImm = true := by
        rw [Instruction.hasImm, Bool.or_eq_true, beq_iff_eq]
        rintro (hi | hi)
        · exact himm ((b.isImm_iff line.ctx (a.first line.ctx line.src.base)).mpr (.inl (hrmd.symm.trans hi)))
        · exact himm ((b.isImm_iff line.ctx line.src.base).mpr (.inr (hiea.symm.trans hi)))
      rw [Arg.linked_of_not_imm himm, hstored]
      exact if_neg (by rwa [hstored] at hnone)

theorem perform_two (h : Assembled prog lines as db code instrs) (hj : lines[j]? = some line) (hctx : ctx j = line.ctx)
    (hargs : line.src.args = [a, b]) (hreg : a.isReg = true) (hcarried : b.Carried as line.ctx db instrs) :
    execute host (decodedAt as db j line) (BitVec.ofNat 64 (emitOffset db instrs j)) =
      (listing prog as ctx db instrs).perform host j line.src := by
  have hea : a.ea = none := (h.collected.defined line (List.mem_of_getElem? hj)).ea a (by rw [hargs]; rfl)
  obtain ⟨r, hr⟩ := Arg.isReg_iff.mp hreg
  have hsaid := h.decoded_two hj hargs hreg hcarried
  obtain ⟨hosz, hra, hiam⟩ := line.src.stored_two_args line.ctx (linkSum as db (as.instructions.map Instruction.linkSize) j) hargs
  obtain ⟨hrb, hibm, hiea, hrmd⟩ := line.src.stored_second line.ctx (linkSum as db (as.instructions.map Instruction.linkSize) j) hargs hea
  have hrmdA : (a.record line.ctx line.src.base).rmd = .reg := (a.record_rmd _ _).mpr ⟨r, hr⟩
  rw [(SourceInstr.record_first line.ctx hargs).2, AsmM.Instruction.argRa, if_neg (by rw [hrmdA]; decide)] at hra
  have hplaceA : placeReg (decodedAt as db j line).ra (decodedAt as db j line).iam 0 = a.place (a.linked as line.ctx db instrs) := by
    rw [place_reg hr, hea]
    refine (congrArg₂ (fun n i => placeReg n i 0) hra hiam).trans ?_
    rw [hr]
    rfl
  have hplaceB : placeB (decodedAt as db j line) = b.place (b.linked as line.ctx db instrs) := by
    rw [placeB, show (decodedAt as db j line).rmd = _ from hrmd, show (decodedAt as db j line).rb = _ from hrb,
      show (decodedAt as db j line).ibm = _ from hibm, show (decodedAt as db j line).iea = _ from hiea, hsaid.ii, b.record_mode]
    by_cases hb : b.isReg = true
    · obtain ⟨q, hq⟩ := Arg.isReg_iff.mp hb
      rw [if_pos (if_pos hb), place_reg hq, hq]
      rfl
    · rw [if_neg hb, if_neg (by decide), place_imm hb hsaid.ii]
  have hboth : execute host (decodedAt as db j line) (BitVec.ofNat 64 (emitOffset db instrs j)) = _ := execute_both hosz
  rw [hboth, hplaceA, hplaceB, Listing.perform, hargs]
  change (_ : VmM Unit) = a.place (a.linked as (ctx j) db instrs) >>= fun rA => b.place (b.linked as (ctx j) db instrs) >>= fun rB =>
    apply host (line.src.operation (b.linked as (ctx j) db instrs) (b.width (ctx j))) _ rA rB
  rw [hctx]
  refine congrArg (a.place (a.linked as line.ctx db instrs) >>= ·) (funext fun rA => ?_)
  exact congrArg (b.place (b.linked as line.ctx db instrs) >>= ·) (funext fun rB => apply_said hsaid)

/-- The machine does what an instruction says. -/
theorem execute_eq_perform (h : Assembled prog lines as db code instrs) (hj : lines[j]? = some line) (hctx : ctx j = line.ctx)
    (hexp : line.src.Expressible as line.ctx db instrs) :
    execute host (decodedAt as db j line) (BitVec.ofNat 64 (emitOffset db instrs j)) =
      (listing prog as ctx db instrs).perform host j line.src := by
  obtain ⟨toks, hspelled⟩ := h.collected.spelled line (List.mem_of_getElem? hj)
  have hlen := hspelled.length_le
  rcases hargs : line.src.args with _ | ⟨a, _ | ⟨b, _ | ⟨c, rest⟩⟩⟩
  · exact h.perform_none hj hargs
  · exact h.perform_one hj hctx hargs (hexp.last a (by rw [hargs]; rfl))
  · have hfirst := hexp.first (by rw [hargs]; rfl)
    rw [hargs] at hfirst
    exact h.perform_two hj hctx hargs hfirst (hexp.last b (by rw [hargs]; rfl))
  · rw [hargs] at hlen
    simp at hlen

end Assembled

/-! ### Runs -/

/-- `ctx` is what the assembler knew at each instruction, and the encoding has room for all of them. -/
structure Expressed (lines : List Line) (as : AssemblerCtx) (db : Nat) (instrs : List Instruction)
    (ctx : Nat → AssemblerCtx) : Prop where
  ctx : ∀ {j : Nat} {line : Line}, lines[j]? = some line → ctx j = line.ctx
  room : ∀ {j : Nat} {line : Line}, lines[j]? = some line → line.src.Expressible as line.ctx db instrs

/-- Nothing is accessed to fetch an instruction. -/
theorem VmM.always_fetch {ins : Instruction} {vm : Vm} {P : Access → Prop} : (fetch ins).Always P vm := by
  have hnext {vm : Vm} : nextByte.Always P vm := by simp [nextByte, setReg]
  have hcheck {vm : Vm} {n : U64} : (checkCode n).Always P vm := by simp [checkCode, abortIf]
  have hb3 {ins : Instruction} {vm : Vm} : (fetchB3 ins).Always P vm := by
    unfold fetchB3
    split <;> simp [hnext]
  have himm {ins : Instruction} {vm : Vm} : (fetchImm ins).Always P vm := by
    unfold fetchImm
    split <;> simp [setReg]
  unfold fetch
  refine Prog.always_bind.mpr ⟨by simp [getReg], fun _ _ _ => Prog.always_bind.mpr ⟨hcheck, fun _ _ _ => ?_⟩⟩
  refine Prog.always_bind.mpr ⟨hnext, fun _ _ _ => ?_⟩
  dsimp only
  split
  · exact Prog.always_pure
  · simp [hcheck, hnext, hb3, himm]

theorem VmM.loop_succ {host : Host} (fuel : Nat) (vm : Vm) :
    loop host (fuel + 1) vm = (if vm.reg .ip < BitVec.ofNat 64 vm.code.len then (do
      step host
      if (← Prog.get).flags &&& eflHalt != 0 then return true
      else loop host fuel) else pure true : VmM Bool) vm := rfl

namespace Listing

theorem loop_succ (L : Listing) (host : Host) (fuel : Nat) (vm : Vm) :
    L.loop host (fuel + 1) vm = (if vm.reg .ip = L.pos L.instrs.length then pure (some true)
      else match L.at? (vm.reg .ip) with
        | some (i, src) => do
          L.exec host i src
          if (← Prog.get).flags &&& eflHalt != 0 then return some true
          else L.loop host fuel
        | none => pure none : VmM (Option Bool)) vm := rfl

variable {L : Listing} {ip : U64} {i : Nat} {src : SourceInstr}

theorem of_at? (h : L.at? ip = some (i, src)) : L.pos i = ip ∧ L.instrs[i]? = some src := by
  obtain ⟨j, hj, hsrc⟩ := Option.bind_eq_some_iff.mp h
  obtain ⟨src', hsrc', heq⟩ := Option.map_eq_some_iff.mp hsrc
  obtain ⟨rfl, rfl⟩ := Prod.mk.inj heq
  exact ⟨by simpa using List.find?_some hj, hsrc'⟩

/-- There is an instruction at each place of the listing. -/
theorem at?_isSome (hi : i < L.instrs.length) (hip : L.pos i = ip) : (L.at? ip).isSome := by
  obtain ⟨j, hj⟩ := Option.isSome_iff_exists.mp (List.find?_isSome (p := fun i => L.pos i = ip).mpr
    ⟨i, List.mem_range.mpr hi, decide_eq_true hip⟩)
  have hlt : j < L.instrs.length := List.mem_range.mp (List.mem_of_find?_eq_some hj)
  rw [at?, hj, Option.bind_some, List.getElem?_eq_getElem hlt]
  rfl

end Listing

namespace Assembled
open VmM Prog

variable {prog : List Stmt} {lines : List Line} {as : AssemblerCtx} {db : Nat} {code : Code} {instrs : List Instruction}
  {ctx : Nat → AssemblerCtx} {host : Host} {j : Nat} {line : Line} {vm : Vm}

/-- One round of the loop is one instruction of the listing. -/
theorem step_eq_exec (h : Assembled prog lines as db code instrs) (hx : Expressed lines as db instrs ctx) (hj : lines[j]? = some line)
    (hcode : vm.code = code) (hip : vm.reg .ip = BitVec.ofNat 64 (emitOffset db instrs j)) :
    step host vm = (listing prog as ctx db instrs).exec host j line.src vm := by
  have hins : instrs[j]? = some (line.record.plus (linkSum as db (as.instructions.map Instruction.linkSize) j)) := by
    rw [h.linked, h.collected.records, List.getElem?_map, hj]
    rfl
  obtain ⟨n, hd, hnext⟩ := h.image.decodes hins
  subst hcode
  have hfetch := fetch_of_decodes hd
  rw [Vm.goto_eq hip, ← hnext] at hfetch
  refine (bind_of_returns hfetch always_fetch).trans ?_
  change execute host (decodedAt as db j line) _ _ = _
  rw [h.execute_eq_perform hj (hx.ctx hj) (hx.room hj)]
  rfl

theorem exists_line_of_at? (h : Assembled prog lines as db code instrs) {ip : U64} {src : SourceInstr}
    (hat : (listing prog as ctx db instrs).at? ip = some (j, src)) :
    ∃ line, lines[j]? = some line ∧ line.src = src ∧ ip = BitVec.ofNat 64 (emitOffset db instrs j) ∧ j < instrs.length := by
  obtain ⟨hpos, hsrc⟩ := Listing.of_at? hat
  obtain ⟨line, -, hline, hsrc', hins⟩ := h.exists_line hsrc
  exact ⟨line, hline, hsrc', hpos.symm, (List.getElem?_eq_some_iff.mp hins).1⟩

/-- The end of the listing is that of the code. -/
theorem pos_length (h : Assembled prog lines as db code instrs) :
    (listing prog as ctx db instrs).pos (listing prog as ctx db instrs).instrs.length = BitVec.ofNat 64 code.len := by
  change BitVec.ofNat 64 (emitOffset db instrs (instrsOf prog).length) = _
  rw [← h.length_instrs, h.image.emitOffset_length]

/-- An instruction is before the end of the code. -/
theorem offset_lt (h : Assembled prog lines as db code instrs) (hj : j < instrs.length) :
    BitVec.ofNat 64 (emitOffset db instrs j) < BitVec.ofNat 64 code.len := by
  obtain ⟨n, hd, -⟩ := h.image.decodes (List.getElem?_eq_getElem hj)
  obtain ⟨hpos, hle⟩ := hd.le_len
  have hlen : code.len < 2 ^ 31 := code.len_lt
  rw [BitVec.lt_def, BitVec.toNat_ofNat, BitVec.toNat_ofNat, Nat.mod_eq_of_lt (by omega), Nat.mod_eq_of_lt (by omega)]
  omega

/-- As long as control is in the listing, the machine does what the listing says. -/
theorem loop_tracks (h : Assembled prog lines as db code instrs) (hx : Expressed lines as db instrs ctx) (hhost : host.Keeps)
    (hcode : vm.code = code) (fuel : Nat) :
    (loop host fuel).Tracks ((listing prog as ctx db instrs).loop host fuel) vm := by
  induction fuel generalizing vm with
  | zero => exact tracks_pure
  | succ fuel ih =>
    refine tracks_congr (loop_succ fuel vm) ((listing prog as ctx db instrs).loop_succ host fuel vm) ?_
    by_cases hend : vm.reg .ip = (listing prog as ctx db instrs).pos (listing prog as ctx db instrs).instrs.length
    · rw [if_pos hend, if_neg]
      · exact tracks_pure
      · rw [hend, h.pos_length, hcode]
        exact BitVec.lt_irrefl _
    · rw [if_neg hend]
      rcases hat : (listing prog as ctx db instrs).at? (vm.reg .ip) with _ | ⟨i, src⟩
      · exact tracks_none
      · obtain ⟨line, hline, rfl, hip, hi⟩ := h.exists_line_of_at? hat
        rw [if_pos (by rw [hip, hcode]; exact h.offset_lt hi)]
        refine tracks_bind (h.step_eq_exec hx hline hcode hip) fun _ t ht => ?_
        refine tracks_congr (p := if t.flags &&& eflHalt != 0 then pure true else loop host fuel)
          (q := if t.flags &&& eflHalt != 0 then pure (some true) else (listing prog as ctx db instrs).loop host fuel) rfl rfl ?_
        split
        · exact tracks_pure
        · exact ih (((evolving_step hhost).of_returns ht).code.trans hcode)

/-- A program that stays on the instructions never leaves the listing. -/
theorem loop_in_listing (h : Assembled prog lines as db code instrs) (hx : Expressed lines as db instrs ctx)
    (hs : Structured prog) {fuel : Nat} (hb : vm.AtBoundary code db instrs) {vm' : Vm} :
    ¬((listing prog as ctx db instrs).loop host fuel).Returns vm none vm' := by
  induction fuel generalizing vm with
  | zero => exact nofun
  | succ fuel ih =>
    unfold Returns
    rw [Listing.loop_succ]
    obtain ⟨hcode, i, hi, hip⟩ := hb
    split
    · exact nofun
    · rename_i hend
      have hlt : i < instrs.length := by
        refine lt_of_le_of_ne hi fun heq => hend ?_
        rw [h.pos_length, hip, heq, h.image.emitOffset_length]
      have hsome : ((listing prog as ctx db instrs).at? (vm.reg .ip)).isSome := Listing.at?_isSome (i := i)
        (lt_of_lt_of_eq hlt h.length_instrs) hip.symm
      obtain ⟨⟨j, src⟩, hat⟩ := Option.isSome_iff_exists.mp hsome
      obtain ⟨line, hline, rfl, hip', hj⟩ := h.exists_line_of_at? hat
      rw [hat]
      intro hr
      obtain ⟨u, mid, hexec, hrest⟩ := returns_bind.mp hr
      have hstep : (step host).Returns vm u mid := by
        unfold Returns
        rw [h.step_eq_exec hx hline hcode hip']
        exact hexec
      have hmid := h.step_boundary hs (List.getElem?_eq_getElem hj) hcode hip' hstep
      obtain ⟨t, t', hget, hcont⟩ := returns_bind.mp hrest
      obtain ⟨rfl, rfl⟩ := returns_get.mp hget
      split at hcont
      · exact absurd (returns_pure.mp hcont).1 nofun
      · exact ih hmid hcont

end Assembled

/-- A program that was assembled does what its listing says, with whatever host that leaves the code as it is. If its
    jumps go to labels, that is all it does. -/
theorem AsmM.assemble_simulates {into code : Code} {toks : List Token} {stop : Range} {log : List Diagnostic}
    {uninit : Nat → U8} {n : Nat} {as' : AssemblerCtx}
    (h : (assemble into).Returns (AssemblerCtx.init toks stop log uninit) (n, code) as') (herr : as'.errors = 0) :
    ∃ prog toks' lines as db, Steps (AssemblerCtx.init toks stop log uninit) prog toks' as ∧ as.itp.eof = true ∧
      Assembled prog lines as db code as'.instructions ∧
      (∀ line ∈ lines, line.Reached (AssemblerCtx.init toks stop log uninit) prog) ∧
      ∀ ctx, Expressed lines as db as'.instructions ctx → ∀ host : Host, host.Keeps → ∀ (vm : Vm) (fuel : Nat), vm.code = code →
        (VmM.loop host fuel).Tracks ((listing prog as ctx db as'.instructions).loop host fuel) vm ∧
        (Structured prog → vm.AtBoundary code db as'.instructions →
          (listing prog as ctx db as'.instructions).loop host fuel vm = (some <$> VmM.loop host fuel) vm) := by
  obtain ⟨prog, toks', lines, as, db, hsteps, heof, ha, hreached⟩ := assemble_returns h herr
  refine ⟨prog, toks', lines, as, db, hsteps, heof, ha, hreached, fun ctx hx host hhost vm fuel hcode => ?_⟩
  have htracks := ha.loop_tracks hx hhost hcode fuel
  exact ⟨htracks, fun hs hb => htracks.eq fun _ => ha.loop_in_listing hx hs hb⟩

/-- `halt` -/
def haltOnly : List Token := [wordToken .tokIdentifier ['h', 'a', 'l', 't']]

theorem AsmM.assemble_simulates_haltOnly :
    ∃ n code as', (assemble .empty).Returns (.init haltOnly endRange [] fun _ => 0) (n, code) as' ∧ as'.errors = 0 ∧
      ∃ prog as ctx db, (instrsOf prog).length = 1 ∧ ∀ (os : Os) (vm : Vm) (fuel : Nat), vm.code = code →
        (VmM.loop (.builtins os .idle) fuel).Tracks ((listing prog as ctx db as'.instructions).loop (.builtins os .idle) fuel) vm := by
  obtain ⟨⟨n, code⟩, as', h, htest⟩ := Prog.exists_of_passes (m := assemble .empty) (s := .init haltOnly endRange [] fun _ => 0)
    (p := fun _ as' => as'.errors = 0 ∧ as'.instructions.map Instruction.osz = [1]) (by decide)
  obtain ⟨herr, hosz⟩ := of_decide_eq_true htest
  obtain ⟨prog, toks', lines, as, db, -, -, ha, -, hsim⟩ := assemble_simulates h herr
  have hlen : as'.instructions.length = 1 := by rw [← List.length_map Instruction.osz, hosz, List.length_singleton]
  have hx : Expressed lines as db as'.instructions fun j => (lines[j]?.map Line.ctx).getD as := by
    refine ⟨fun hj => by rw [hj, Option.map_some, Option.getD_some], fun {j line} hj => ?_⟩
    have hsrc : (instrsOf prog)[j]? = some line.src := by rw [ha.collected.instrs, List.getElem?_map, hj, Option.map_some]
    obtain ⟨line', -, hline, -, hins⟩ := ha.exists_line hsrc
    obtain rfl := Option.some.inj (hj.symm.trans hline)
    have hone : line.record.osz = 1 := by
      have hmem := List.mem_map_of_mem (f := Instruction.osz) (List.mem_of_getElem? hins)
      rw [hosz] at hmem
      exact List.mem_singleton.mp hmem
    have hnil : line.src.args = [] := by
      rw [Line.record, (line.src.record_frame line.ctx).1, SourceInstr.base] at hone
      obtain ⟨toks, hspelled⟩ := ha.collected.spelled line (List.mem_of_getElem? hj)
      have hle := hspelled.length_le
      have hval := congrArg Fin.val hone
      exact List.length_eq_zero_iff.mp (by simp at hval; omega)
    constructor
    · intro htwo
      rw [hnil] at htwo
      cases htwo
    · intro arg harg
      rw [hnil] at harg
      cases harg
  exact ⟨n, code, as', h, herr, prog, as, _, db, ha.length_instrs ▸ hlen,
    fun os vm fuel hcode => (hsim _ hx _ ((show Host.idle.Keeps from fun _ _ _ => Evolves.refl).builtins os) vm fuel hcode).1⟩

end Cyntatic
