import Cyntatic.Theorems.AsmArgs
import Cyntatic.Theorems.Decode
import Cyntatic.Compiler.Assemble

/-! # Programs

How the statements of a program are written, and what the assembler collects from them. -/

namespace Cyntatic
open Library

/-! ### Instructions -/

/-- The mode after a mnemonic. -/
inductive ModeSpelled : Mode → List Token → Prop
  | none : ModeSpelled .quad []
  | some {dot tok : Token} {mode : Mode} (hd : dot.kind = .tokDot) (h : tok.kind = .tokIdentifier)
      (hm : Mode.ofExt? tok.text = some mode) : ModeSpelled mode [dot, tok]

inductive ArgsSpelled : List Arg → List Token → Prop
  | nil : ArgsSpelled [] []
  | cons {arg : Arg} {args : List Arg} {toks toks' : List Token} (h : arg.Spelled toks) (hs : ArgsSpelled args toks') :
      ArgsSpelled (arg :: args) (toks ++ toks')

/-- An instruction of the source. -/
structure SourceInstr where
  opc : OpCode
  mode : Mode
  args : List Arg

/-- The tokens of an instruction. -/
inductive SourceInstr.Spelled : SourceInstr → List Token → Prop
  | mk {src : SourceInstr} {tok : Token} {ms toks : List Token} (h : tok.kind = .tokIdentifier)
      (hopc : OpCode.lookup? tok.text = some (src.opc, src.args.length)) (hm : ModeSpelled src.mode ms)
      (ha : ArgsSpelled src.args toks) : Spelled src (tok :: ms ++ toks)

/-- The record with a first argument. -/
def Arg.first (as : AssemblerCtx) (instr : Instruction) (arg : Arg) : Instruction :=
  let instr := arg.record as instr
  { instr with iam := arg.isMem, ra := AsmM.Instruction.argRa instr arg.head.register }

/-- The record with a second argument. -/
def Arg.second (as : AssemblerCtx) (instr : Instruction) (arg : Arg) : Instruction :=
  { arg.record as instr with ibm := arg.isMem, rb := ⟨arg.head.register.toNat, arg.head.register.toNat_lt⟩ }

namespace SourceInstr
variable (as : AssemblerCtx) (src : SourceInstr)

/-- The record without arguments. -/
def base : Instruction :=
  { osz := Fin.ofNat 4 (src.args.length + 1), opc := ⟨src.opc.toNat, src.opc.toNat_lt⟩, imd := src.mode }

/-- The record of an instruction. -/
def record : Instruction :=
  match src.args with
  | [] => src.base
  | [a] => a.first as src.base
  | a :: b :: _ => b.second as (a.first as src.base)

/-- The references of an instruction that are left to the linker. -/
def pending : List Patch := src.args.flatMap (·.head.pending as)

/-- The symbols of an instruction have values where the assembler needs them, and the first of its arguments has
    no effective address. -/
structure Defined : Prop where
  args : ∀ arg ∈ src.args, arg.Defined as
  ea : ∀ arg ∈ src.args.head?, arg.ea = none

end SourceInstr

/-! ### What an argument changes -/

section Records
variable {as as' : AssemblerCtx} {instr : Instruction}

variable (as) in
theorem ArgHead.record_frame (head : ArgHead) (instr : Instruction) :
    (head.record as instr).osz = instr.osz ∧ (head.record as instr).opc = instr.opc ∧
      (head.record as instr).imd = instr.imd ∧ (head.record as instr).ra = instr.ra ∧
      (head.record as instr).iam = instr.iam ∧ (head.record as instr).iea = instr.iea := by
  cases head with
  | symbol isSizeOp range sub => cases sub <;> exact ⟨rfl, rfl, rfl, rfl, rfl, rfl⟩
  | _ => exact ⟨rfl, rfl, rfl, rfl, rfl, rfl⟩

variable (as) in
theorem Arg.record_frame (arg : Arg) (instr : Instruction) :
    (arg.record as instr).osz = instr.osz ∧ (arg.record as instr).opc = instr.opc ∧
      (arg.record as instr).imd = instr.imd ∧ (arg.record as instr).ra = instr.ra ∧
      (arg.record as instr).iam = instr.iam ∧ (arg.record as instr).iea = (arg.ea.isSome || instr.iea) := by
  obtain ⟨h1, h2, h3, h4, h5, h6⟩ := arg.head.record_frame as instr
  unfold Arg.record
  rcases arg.ea with _ | ⟨n, isNeg⟩ | ⟨isSizeOp, range⟩
  · exact ⟨h1, h2, h3, h4, h5, h6⟩
  · exact ⟨h1, h2, h3, h4, h5, rfl⟩
  · exact ⟨h1, h2, h3, h4, h5, rfl⟩

variable (as) in
/-- The arguments leave the size, the op code and the mode as they are. -/
theorem SourceInstr.record_frame (src : SourceInstr) :
    (src.record as).osz = src.base.osz ∧ (src.record as).opc = src.base.opc ∧ (src.record as).imd = src.base.imd := by
  have hfirst (a : Arg) : (a.first as src.base).osz = src.base.osz ∧ (a.first as src.base).opc = src.base.opc ∧
      (a.first as src.base).imd = src.base.imd := by
    obtain ⟨h1, h2, h3, -⟩ := a.record_frame as src.base
    exact ⟨h1, h2, h3⟩
  rw [record]
  rcases src.args with _ | ⟨a, _ | ⟨b, _⟩⟩
  · exact ⟨rfl, rfl, rfl⟩
  · exact hfirst a
  · obtain ⟨h1, h2, h3, -⟩ := b.record_frame as (a.first as src.base)
    obtain ⟨h1', h2', h3'⟩ := hfirst a
    exact ⟨h1.trans h1', h2.trans h2', h3.trans h3'⟩

variable (as) in
/-- What a first argument leaves in the record. -/
theorem SourceInstr.record_first {src : SourceInstr} {a : Arg} {rest : List Arg} (h : src.args = a :: rest) :
    (src.record as).iam = a.isMem ∧ (src.record as).ra = AsmM.Instruction.argRa (a.record as src.base) a.head.register := by
  rw [record, h]
  rcases rest with _ | ⟨b, _⟩
  · exact ⟨rfl, rfl⟩
  · obtain ⟨-, -, -, h4, h5, -⟩ := b.record_frame as (a.first as src.base)
    exact ⟨h5, h4⟩

theorem Reads.argRecord {toks : List Token} {patches : List Patch} (h : Reads as as' toks patches) (arg : Arg)
    (instr : Instruction) : arg.record as' instr = arg.record as instr := by
  unfold Arg.record
  rw [h.headRecord, h.withEa]

theorem Reads.first {toks : List Token} {patches : List Patch} (h : Reads as as' toks patches) (arg : Arg)
    (instr : Instruction) : arg.first as' instr = arg.first as instr := by
  unfold Arg.first
  rw [h.argRecord]

theorem Reads.second {toks : List Token} {patches : List Patch} (h : Reads as as' toks patches) (arg : Arg)
    (instr : Instruction) : arg.second as' instr = arg.second as instr := by
  unfold Arg.second
  rw [h.argRecord]

theorem Reads.argDefined {toks : List Token} {patches : List Patch} (h : Reads as as' toks patches) {arg : Arg}
    (hd : arg.Defined as') : arg.Defined as := ⟨h.headDefined hd.head, fun e he => h.eaDefined (hd.ea e he)⟩

/-- Instructions as the parser pushes them: one without arguments has no immediate either. -/
structure Instruction.Linkable (ins : Instruction) : Prop extends ins.Encodable where
  imm_one : ins.osz = 1 → ins.hasImm = false

/-- A record without arguments. -/
theorem Instruction.linkable_of_one {ins : Instruction} (h : ins.osz = 1) (himm : ins.hasImm = false) : ins.Linkable where
  osz_ne := by rw [h]; decide
  ra_eq h' := absurd (h.symm.trans h') (by decide)
  iea_eq h' := absurd (h.symm.trans h') (by decide)
  imm_one _ := himm

/-- A record with two arguments. -/
theorem Instruction.linkable_of_three {ins : Instruction} (h : ins.osz = 3) : ins.Linkable where
  osz_ne := by rw [h]; decide
  ra_eq h' := absurd (h.symm.trans h') (by decide)
  iea_eq h' := absurd (h.symm.trans h') (by decide)
  imm_one h' := absurd (h.symm.trans h') (by decide)

/-- The record of a one-operand instruction. -/
theorem Arg.first_linkable {arg : Arg} (hosz : instr.osz = 2) (hiea : instr.iea = false) (hea : arg.ea = none) :
    (arg.first as instr).Linkable := by
  obtain ⟨h1, -, -, -, -, h6⟩ := Arg.record_frame as arg instr
  have h2 : (arg.first as instr).osz = 2 := h1.trans hosz
  refine ⟨⟨?_, fun _ hrmd => ?_, fun _ => ?_⟩, fun h => absurd (h2.symm.trans h) (by decide)⟩
  · rw [h2]
    decide
  · have hrmd' : (arg.record as instr).rmd = .imm := hrmd
    change (AsmM.Instruction.argRa (arg.record as instr) _).val = _
    rw [AsmM.Instruction.argRa, if_pos hrmd']
    rfl
  · change (arg.record as instr).iea = false
    rw [h6, hea, hiea]
    rfl

end Records

namespace AsmM
open Prog

variable {as as' : AssemblerCtx} {instr instr' : Instruction} {u : Unit} {nargs : Nat}

theorem lookup?_le {name : List U8} {opc : OpCode} (h : OpCode.lookup? name = some (opc, nargs)) : nargs ≤ 2 := by
  obtain ⟨⟨o, m, n⟩, hfind, he⟩ := Option.map_eq_some_iff.mp h
  obtain ⟨rfl, rfl⟩ := Prod.mk.inj he
  have hall : ∀ e ∈ OpCode.table, e.2.2 ≤ 2 := by decide
  exact hall _ (List.mem_of_find?_eq_some hfind)

theorem parseInstructionMode_returns (h : (parseInstructionMode instr).Returns as instr' as') (himd : instr.imd = .quad) :
    ∃ mode toks, ModeSpelled mode toks ∧ instr' = { instr with imd := mode } ∧ Reads as as' toks [] := by
  obtain ⟨dot, mid, hdot, hbody⟩ := returns_bind.mp h
  obtain ⟨dots, hopt, hr⟩ := accept_returns hdot
  cases hopt with
  | none =>
    obtain ⟨rfl, rfl⟩ := returns_pure.mp hbody
    exact ⟨.quad, [], .none, by rw [← himd], hr⟩
  | some hd =>
    simp only [if_true, parseModes, returns_bind, returns_pure] at hbody
    obtain ⟨mode, _, ⟨tok, mid', htok, hmode⟩, rfl, rfl⟩ := hbody
    obtain ⟨hk, hr'⟩ := consume_returns htok
    split at hmode
    · exact absurd hmode failAt_returns
    · rename_i mode' hm
      simp only [List.contains_nil, Bool.false_eq_true, if_false, returns_pure] at hmode
      obtain ⟨rfl, rfl⟩ := hmode
      exact ⟨_, _, .some hd hk hm, rfl, hr.trans hr'⟩

theorem parseFirstArg_returns (h : (parseFirstArg nargs instr).Returns as instr' as') :
    nargs = 0 ∧ instr' = instr ∧ as' = as ∨ 1 ≤ nargs ∧ ∃ (arg : Arg) (toks : List Token), arg.ea = none ∧
      arg.Spelled toks ∧ arg.Defined as ∧ Reads as as' toks (arg.head.pending as) ∧ instr' = arg.first as instr := by
  unfold parseFirstArg at h
  split at h
  · rename_i hn
    simp only [returns_bind, returns_pure] at h
    obtain ⟨⟨isMem, reg, instr''⟩, _, harg, rfl, rfl⟩ := h
    rcases parseInstructionArg_returns harg with ⟨_, hrb, -⟩ | ⟨arg, toks, rfl, hs, hd, hr, rfl, rfl, hea⟩
    · cases hrb
    · refine .inr ⟨hn, arg, toks, ?_, hs, hd, hr, rfl⟩
      rcases harg' : arg.ea with _ | e
      · rfl
      · exact absurd (hea (by rw [harg']; rfl)).2 (by decide)
  · obtain ⟨rfl, rfl⟩ := returns_pure.mp h
    exact .inl ⟨by omega, rfl, rfl⟩

theorem parseSecondArg_returns (h : (parseSecondArg nargs instr).Returns as instr' as') :
    nargs ≠ 2 ∧ instr' = instr ∧ as' = as ∨
      nargs = 2 ∧ (as.errors < as'.errors ∧ as'.instructions = as.instructions ∧ instr'.osz = instr.osz ∨ ∃ (arg : Arg) (toks : List Token),
        arg.Spelled toks ∧ arg.Defined as ∧ Reads as as' toks (arg.head.pending as) ∧ instr' = arg.second as instr) := by
  unfold parseSecondArg at h
  split at h
  · rename_i hn
    simp only [returns_bind, returns_pure] at h
    obtain ⟨⟨isMem, reg, instr''⟩, _, harg, rfl, rfl⟩ := h
    rcases parseInstructionArg_returns harg with ⟨head, -, herr, hinstrs, rfl⟩ | ⟨arg, toks, rfl, hs, hd, hr, rfl, rfl, -⟩
    · exact .inr ⟨hn, .inl ⟨herr, hinstrs, (head.record_frame as instr).1⟩⟩
    · exact .inr ⟨hn, .inr ⟨arg, toks, hs, hd, hr, rfl⟩⟩
  · rename_i hn
    obtain ⟨rfl, rfl⟩ := returns_pure.mp h
    exact .inl ⟨hn, rfl, rfl⟩

theorem pushInstruction_returns (h : (pushInstruction instr).Returns as u as') :
    as.instructions.length + 1 < 2 ^ 31 ∧ as' = { as with instructions := as.instructions ++ [instr] } := by
  simp only [pushInstruction, returns_bind, returns_get, returns_stopIf, returns_modify] at h
  obtain ⟨_, _, ⟨rfl, rfl⟩, _, _, ⟨hlen, rfl⟩, rfl⟩ := h
  exact ⟨not_le.mp hlen, rfl⟩

/-- `Assembler_parse_instruction` pushes one instruction. If no error was logged, then it is the record of the
    instruction that was read. -/
theorem parseInstruction_returns (h : parseInstruction.Returns as u as') :
    as.instructions.length + 1 < 2 ^ 31 ∧ ∃ ins, ins.Linkable ∧ as'.instructions = as.instructions ++ [ins] ∧ (as.curr.kind = .tokIdentifier →
      as.errors < as'.errors ∨ ∃ (src : SourceInstr) (toks : List Token) (mid : AssemblerCtx), src.Spelled toks ∧
        src.Defined as ∧ ins = src.record as ∧ Reads as mid toks (src.pending as) ∧
        as' = { mid with instructions := mid.instructions ++ [ins] }) := by
  obtain ⟨tok, s, hcurr, hbody⟩ := returns_bind.mp h
  obtain ⟨rfl, hstate⟩ := curr_returns.mp hcurr
  rw [hstate] at hbody
  split at hbody
  · exact absurd hbody fail_returns
  · rename_i opc nargs hopc
    simp only [returns_bind, advance_returns] at hbody
    obtain ⟨_, _, ⟨-, rfl⟩, ins1, as1, hmode, ins2, as2, hfirst, ins3, as3, hsecond, hpush⟩ := hbody
    obtain ⟨hlen, rfl⟩ := pushInstruction_returns hpush
    obtain ⟨mode, ms, hms, rfl, hr1⟩ := parseInstructionMode_returns hmode rfl
    have hr01 (hk : as.curr.kind = .tokIdentifier) : Reads as as1 (as.curr :: ms) [] :=
      (reads_curr (by rw [hk]; decide) (by rw [hk]; decide)).trans hr1
    have hinstrs1 : as1.instructions = as.instructions := hr1.instructions
    rcases parseFirstArg_returns hfirst with ⟨rfl, rfl, rfl⟩ | ⟨hn, arg, toks, hea, hs, hd, hr2, rfl⟩
    · rcases parseSecondArg_returns hsecond with ⟨-, rfl, rfl⟩ | ⟨h2, -⟩
      · refine ⟨hinstrs1 ▸ hlen, _, Instruction.linkable_of_one rfl rfl, by rw [hinstrs1], fun hk => .inr ?_⟩
        exact ⟨⟨opc, mode, []⟩, _, as3, .mk hk hopc hms .nil, ⟨by simp, by simp⟩, rfl,
          by simpa [SourceInstr.pending] using hr01 hk, rfl⟩
      · cases h2
    · have hinstrs2 : as2.instructions = as.instructions := hr2.instructions.trans hinstrs1
      rcases parseSecondArg_returns hsecond with ⟨hn2, rfl, rfl⟩ | ⟨rfl, ⟨herr, hinstrs, hosz⟩ | ⟨arg', toks', hs', hd', hr3, rfl⟩⟩
      · obtain rfl : nargs = 1 := by have := lookup?_le hopc; omega
        refine ⟨hinstrs2 ▸ hlen, _, Arg.first_linkable rfl rfl hea, by rw [hinstrs2], fun hk => .inr ?_⟩
        refine ⟨⟨opc, mode, [arg]⟩, _, as3, .mk hk hopc hms (.cons hs .nil), ⟨?_, ?_⟩, (hr01 hk).first arg _, ?_, rfl⟩
        · simpa using (hr01 hk).argDefined hd
        · simpa using hea
        · have hall := (hr01 hk).trans hr2
          rw [(hr01 hk).headPending] at hall
          simpa [SourceInstr.pending] using hall
      · refine ⟨hinstrs2 ▸ hinstrs ▸ hlen, _, Instruction.linkable_of_three ?_, by rw [hinstrs, hinstrs2], fun hk => .inl ?_⟩
        · exact hosz.trans (arg.record_frame _ _).1
        · have hall := (hr01 hk).trans hr2
          rwa [hall.errors] at herr
      · refine ⟨hinstrs2 ▸ hr3.instructions ▸ hlen, _, Instruction.linkable_of_three ?_, by rw [hr3.instructions, hinstrs2], fun hk => .inr ?_⟩
        · exact (arg'.record_frame _ _).1.trans (arg.record_frame _ _).1
        · have h12 := (hr01 hk).trans hr2
          have hall := h12.trans hr3
          rw [(hr01 hk).headPending, h12.headPending] at hall
          refine ⟨⟨opc, mode, [arg, arg']⟩, _, as3, .mk hk hopc hms (.cons hs (.cons hs' .nil)), ⟨?_, ?_⟩, ?_, ?_, rfl⟩
          · simpa using ⟨(hr01 hk).argDefined hd, h12.argDefined hd'⟩
          · simpa using hea
          · rw [h12.second, (hr01 hk).first]
            rfl
          · simpa [SourceInstr.pending] using hall

end AsmM

/-! ### Short sources -/

/-- A token that stands alone in the source. -/
def wordToken (kind : TokenKind) (text : List Char) (value : TokenValue := .none) : Token where
  kind := kind
  value := value
  range := { start := 0, stop := text.length, source := ascii text }

/-- The end of a source. -/
def endRange : Range := { start := 0, stop := 0, source := [] }

end Cyntatic
