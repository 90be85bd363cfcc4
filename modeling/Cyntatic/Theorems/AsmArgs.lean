import Cyntatic.Compiler.Asm

/-! # Arguments of instructions

How an argument is written, and what the assembler makes of it. -/

namespace Cyntatic
open Library

/-! ### What is written -/

/-- A token of some kind, or none. -/
inductive Optional (kind : TokenKind) : Bool → List Token → Prop
  | none : Optional kind false []
  | some {tok : Token} (h : tok.kind = kind) : Optional kind true [tok]

/-- A sign, or none. -/
inductive Signed : (isNeg : Bool) → List Token → Prop
  | none : Signed false []
  | plus {tok : Token} (h : tok.kind = .tokPlus) : Signed false [tok]
  | minus {tok : Token} (h : tok.kind = .tokMinus) : Signed true [tok]

/-- A number that is subtracted, or none. -/
inductive Subtracted : Option U64 → List Token → Prop
  | none : Subtracted none []
  | some {minus num : Token} {n : U64} (hm : minus.kind = .tokMinus) (hn : num.kind = .tokInteger)
      (hv : num.getInt? = Option.some n) : Subtracted (Option.some n) [minus, num]

/-- The first part of an argument: a symbol may have a number subtracted. -/
inductive ArgHead where
  | reg (r : Register)
  | symbol (isSizeOp : Bool) (range : Range) (sub : Option U64)
  | char (c : U32)
  | int (n : U64) (isNeg : Bool)

/-- The second part of an effective address. -/
inductive EaPart where
  | int (n : U64) (isNeg : Bool)
  | symbol (isSizeOp : Bool) (range : Range)

/-- Whether the size of a variable is asked for. -/
def ArgHead.isSizeOp : ArgHead → Bool
  | .symbol isSizeOp _ _ => isSizeOp
  | _ => false

/-- An argument of an instruction. -/
structure Arg where
  isMem : Bool
  head : ArgHead
  ea : Option EaPart

inductive ArgHead.Spelled : ArgHead → List Token → Prop
  | reg {tok : Token} {r : Register} (h : tok.kind = .tokIdentifier) (hr : Register.ofText? tok.text = some r) :
      Spelled (.reg r) [tok]
  | symbol {isSizeOp : Bool} {hash subs : List Token} {tok : Token} {sub : Option U64}
      (hhash : Optional .tokHash isSizeOp hash) (h : tok.kind = .tokIdentifier) (hr : Register.ofText? tok.text = none)
      (hsub : Subtracted sub subs) : Spelled (.symbol isSizeOp tok.range sub) (hash ++ tok :: subs)
  | char {isNeg isHash : Bool} {sign hash : List Token} {tok : Token} {c : U32} (hs : Signed isNeg sign)
      (hhash : Optional .tokHash isHash hash) (h : tok.kind = .tokChar) (hv : tok.getChar? = some c) :
      Spelled (.char c) (sign ++ hash ++ [tok])
  | int {isNeg isHash : Bool} {sign hash : List Token} {tok : Token} {n : U64} (hs : Signed isNeg sign)
      (hhash : Optional .tokHash isHash hash) (h : tok.kind = .tokInteger) (hv : tok.getInt? = some n) :
      Spelled (.int n isNeg) (sign ++ hash ++ [tok])

/-- The tokens of the second part, in which a variable stands for its size if the first part asks for one. -/
inductive EaPart.Spelled (isSizeOp : Bool) : EaPart → List Token → Prop
  | int {isNeg : Bool} {comma num : Token} {sign : List Token} {n : U64} (hc : comma.kind = .tokComma)
      (hs : Signed isNeg sign) (h : num.kind = .tokInteger) (hv : num.getInt? = some n) :
      Spelled isSizeOp (.int n isNeg) (comma :: sign ++ [num])
  | symbol {comma tok : Token} (hc : comma.kind = .tokComma) (h : tok.kind = .tokIdentifier) :
      Spelled isSizeOp (.symbol isSizeOp tok.range) [comma, tok]

/-- The tokens of an argument. -/
inductive Arg.Spelled : Arg → List Token → Prop
  | bare {head : ArgHead} {toks : List Token} (h : head.Spelled toks) : Spelled ⟨false, head, none⟩ toks
  | mem {head : ArgHead} {lb rb : Token} {toks : List Token} (hl : lb.kind = .tokLBracket) (h : head.Spelled toks)
      (hr : rb.kind = .tokRBracket) : Spelled ⟨true, head, none⟩ (lb :: toks ++ [rb])
  | ea {head : ArgHead} {e : EaPart} {lb rb : Token} {toks eas : List Token} (hl : lb.kind = .tokLBracket)
      (h : head.Spelled toks) (he : e.Spelled head.isSizeOp eas) (hr : rb.kind = .tokRBracket) :
      Spelled ⟨true, head, some e⟩ (lb :: toks ++ eas ++ [rb])

/-! ### What it means -/

namespace AssemblerCtx

/-- The size of a variable. -/
def sizeOf? (as : AssemblerCtx) (name : List U8) : Option U32 :=
  ((as.findSymbol name).filter (·.tag = .var)).map (·.size)

/-- The value of a symbol so far, which is 0 for one that is left to the linker. -/
def value? (as : AssemblerCtx) (isSizeOp : Bool) (range : Range) : Option U32 :=
  if isSizeOp then as.sizeOf? range.view else some ((as.reference? range.view).getD 0)

/-- The value of a symbol in an effective address. -/
def eaValue? (as : AssemblerCtx) (isSizeOp : Bool) (range : Range) : Option U32 :=
  if isSizeOp then as.sizeOf? range.view else as.reference? range.view

/-- The reference that is left to the linker. -/
def pending (as : AssemblerCtx) (isSizeOp : Bool) (range : Range) : List Patch :=
  if isSizeOp = false ∧ as.reference? range.view = none then [⟨as.instructions.length, range⟩] else []

end AssemblerCtx

/-- The symbols of an argument have values where the assembler needs them: a number is subtracted only from a
    value that is not 0. -/
def ArgHead.Defined (as : AssemblerCtx) : ArgHead → Prop
  | .symbol isSizeOp range sub => ∃ v, as.value? isSizeOp range = some v ∧ (sub.isSome → 0 < v)
  | _ => True

def EaPart.Defined (as : AssemblerCtx) : EaPart → Prop
  | .symbol isSizeOp range => (as.eaValue? isSizeOp range).isSome
  | _ => True

def ArgHead.pending (as : AssemblerCtx) : ArgHead → List Patch
  | .symbol isSizeOp range _ => as.pending isSizeOp range
  | _ => []

/-- The register of an argument; `r0` where there is none. -/
def ArgHead.register : ArgHead → Register
  | .reg r => r
  | _ => .r0

/-- The record with the immediate of an argument. -/
def ArgHead.record (as : AssemblerCtx) (instr : Instruction) : ArgHead → Instruction
  | .reg _ => { instr with rmd := .reg }
  | .symbol isSizeOp range sub =>
    let v := ((as.value? isSizeOp range).getD 0)
    match sub with
    | none => { instr with
      rmd := .imm, ii := v.setWidth 64, ims := if v = 0 then .word else .integerSize (v.setWidth 64) }
    | some n => { instr with rmd := .imm, ii := AsmM.addSigned (v.setWidth 64) n true, ims := .integerSize n }
  | .char c => { instr with rmd := .imm, ii := c.setWidth 64, ims := .word }
  | .int n isNeg => { instr with rmd := .imm, ii := AsmM.addSigned 0 n isNeg, ims := .integerSize n }

/-- The record with the second part of an effective address. -/
def EaPart.record (as : AssemblerCtx) (instr : Instruction) : EaPart → Instruction
  | .int n isNeg => { instr with ims := .integerSize n, ii := AsmM.addSigned instr.ii n isNeg, iea := true }
  | .symbol isSizeOp range => { instr with
    ims := .quad, ii := instr.ii + ((as.eaValue? isSizeOp range).getD 0).setWidth 64, iea := true }

/-- The record with an effective address, or without one. -/
def Instruction.withEa (instr : Instruction) (as : AssemblerCtx) : Option EaPart → Instruction
  | none => instr
  | some e => e.record as instr

/-- The record with an argument. -/
def Arg.record (as : AssemblerCtx) (instr : Instruction) (arg : Arg) : Instruction :=
  (arg.head.record as instr).withEa as arg.ea

structure Arg.Defined (as : AssemblerCtx) (arg : Arg) : Prop where
  head : arg.head.Defined as
  ea : ∀ e, arg.ea = some e → e.Defined as

/-! ### Moving past tokens -/

/-- Tokens are read, and references left to the linker. -/
structure Reads (as as' : AssemblerCtx) (toks : List Token) (patches : List Patch) : Prop where
  toks : as.itp.toks = toks ++ as'.itp.toks
  log : as'.itp.log = as.itp.log
  patchWork : as'.patchWork = patches.foldl (fun l p => l.orderedInsert (·.pos < ·.pos) p) as.patchWork
  rest : as' = { as with itp := as'.itp, patchWork := as'.patchWork }

variable {as as' as'' : AssemblerCtx} {toks toks' : List Token} {patches patches' : List Patch}

theorem Reads.refl : Reads as as [] [] := ⟨rfl, rfl, rfl, rfl⟩

theorem Reads.trans (h : Reads as as' toks patches) (h' : Reads as' as'' toks' patches') :
    Reads as as'' (toks ++ toks') (patches ++ patches') where
  toks := by rw [h.toks, h'.toks, List.append_assoc]
  log := h'.log.trans h.log
  patchWork := by rw [h'.patchWork, h.patchWork, List.foldl_append]
  rest := by rw [h'.rest, h.rest]

theorem Reads.rest_of_nil (h : Reads as as' toks []) : as' = { as with itp := as'.itp } := by
  have hpatch : as'.patchWork = as.patchWork := h.patchWork
  rw [h.rest, hpatch]

theorem Reads.curr {tok : Token} (h : Reads as as' (tok :: toks) patches) : as.curr = tok := by
  rw [AssemblerCtx.curr, ITokenParser.curr, h.toks, List.cons_append, List.headD_cons]

theorem Reads.symbols (h : Reads as as' toks patches) : as'.symbols = as.symbols := by rw [h.rest]

theorem Reads.instructions (h : Reads as as' toks patches) : as'.instructions = as.instructions := by rw [h.rest]

theorem Reads.reference? (h : Reads as as' toks patches) (name : List U8) : as'.reference? name = as.reference? name := by
  rw [AssemblerCtx.reference?, AssemblerCtx.findSymbol, h.symbols]
  rfl

theorem Reads.sizeOf? (h : Reads as as' toks patches) (name : List U8) : as'.sizeOf? name = as.sizeOf? name := by
  rw [AssemblerCtx.sizeOf?, AssemblerCtx.findSymbol, h.symbols]
  rfl

theorem Reads.value? (h : Reads as as' toks patches) {isSizeOp : Bool} {range : Range} :
    as'.value? isSizeOp range = as.value? isSizeOp range := by
  rw [AssemblerCtx.value?, AssemblerCtx.value?, h.reference?, h.sizeOf?]

theorem Reads.eaValue? (h : Reads as as' toks patches) {isSizeOp : Bool} {range : Range} :
    as'.eaValue? isSizeOp range = as.eaValue? isSizeOp range := by
  rw [AssemblerCtx.eaValue?, AssemblerCtx.eaValue?, h.reference?, h.sizeOf?]

theorem Reads.pending (h : Reads as as' toks patches) {isSizeOp : Bool} {range : Range} :
    as'.pending isSizeOp range = as.pending isSizeOp range := by
  rw [AssemblerCtx.pending, AssemblerCtx.pending, h.reference?, h.instructions]

theorem Reads.errors (h : Reads as as' toks patches) : as'.errors = as.errors := congrArg List.length h.log

theorem Reads.headRecord (h : Reads as as' toks patches) (head : ArgHead) (instr : Instruction) :
    head.record as' instr = head.record as instr := by
  cases head with
  | symbol => simp only [ArgHead.record, h.value?]
  | _ => rfl

theorem Reads.headDefined (h : Reads as as' toks patches) {head : ArgHead} (hd : head.Defined as') : head.Defined as := by
  cases head with
  | symbol =>
    obtain ⟨v, hv, hpos⟩ := hd
    exact ⟨v, h.value? ▸ hv, hpos⟩
  | _ => trivial

theorem Reads.headPending (h : Reads as as' toks patches) (head : ArgHead) : head.pending as' = head.pending as := by
  cases head with
  | symbol => exact h.pending
  | _ => rfl

theorem Reads.eaRecord (h : Reads as as' toks patches) (e : EaPart) (instr : Instruction) :
    e.record as' instr = e.record as instr := by
  cases e with
  | symbol => simp only [EaPart.record, h.eaValue?]
  | _ => rfl

theorem Reads.withEa (h : Reads as as' toks patches) (ea : Option EaPart) (instr : Instruction) :
    instr.withEa as' ea = instr.withEa as ea := by
  cases ea with
  | none => rfl
  | some e => exact h.eaRecord e instr

theorem Reads.eaDefined (h : Reads as as' toks patches) {e : EaPart} (hd : e.Defined as') : e.Defined as := by
  cases e with
  | symbol =>
    change (as.eaValue? _ _).isSome
    rw [← h.eaValue?]
    exact hd
  | _ => trivial

/-- Without a sign no token is read. -/
theorem Signed.eq_nil {isNeg : Bool} (hs : Signed isNeg toks) (hr : Reads as as' toks patches)
    (h : ¬(as.curr.kind = .tokPlus ∨ as.curr.kind = .tokMinus)) : toks = [] := by
  cases hs with
  | none => rfl
  | plus hk => exact absurd (.inl (hr.curr ▸ hk)) h
  | minus hk => exact absurd (.inr (hr.curr ▸ hk)) h

namespace AsmM
open Prog

variable {kind : TokenKind} {b isNeg isSizeOp : Bool} {tok sign tokP : Token} {fmt : String}
  {args : List DiagnosticArg} {range : Range} {u : Unit} {instr instr' : Instruction} {pos : Nat} {v : U32}

@[simp] theorem curr_returns : curr.Returns as tok as' ↔ tok = as.curr ∧ as' = as := by
  simp [curr, and_comm]

@[simp] theorem advance_returns :
    advance.Returns as tok as' ↔ tok = as.itp.advance.1 ∧ as' = { as with itp := as.itp.advance.2 } := by
  simp [advance]

@[simp] theorem error_returns : (error range fmt args).Returns as u as' ↔
    as' = { as with itp.log := as.itp.log ++ [⟨range, fmt, args⟩] } := returns_modify

@[simp] theorem failAt_returns {α : Type} {a : α} : ¬(failAt range fmt args : AsmM α).Returns as a as' := by
  simp [failAt]

@[simp] theorem fail_returns {α : Type} {a : α} : ¬(fail fmt args : AsmM α).Returns as a as' := by
  simp [fail]

@[simp] theorem failIf_returns {c : Prop} [Decidable c] :
    (failIf c range fmt args).Returns as u as' ↔ ¬c ∧ as' = as := by
  unfold failIf
  split
  · rename_i h
    exact iff_of_false failAt_returns fun h' => h'.1 h
  · rename_i h
    simp [h]

@[simp] theorem tokenGet_returns {α : Type} {a : α} {x : Option α} :
    (tokenGet x).Returns as a as' ↔ x = some a ∧ as' = as := returns_ofOption

theorem check_iff {itp : ITokenParser} {kinds : List TokenKind} (h : .tokEoF ∉ kinds) (h' : .tokCOUNT ∉ kinds) :
    itp.check kinds = true ↔ ∃ tok rest, itp.toks = tok :: rest ∧ tok.kind ∈ kinds := by
  rcases htoks : itp.toks with _ | ⟨tok, rest⟩
  · simp [ITokenParser.check, ITokenParser.eof, ITokenParser.curr, htoks, ITokenParser.last]
  · simp only [ITokenParser.check, ITokenParser.eof, ITokenParser.curr, htoks, List.headD_cons, Bool.and_eq_true,
      Bool.not_eq_true', decide_eq_false_iff_not, List.contains_iff_mem, not_or, List.cons.injEq]
    constructor
    · rintro ⟨-, hk⟩
      exact ⟨tok, rest, ⟨rfl, rfl⟩, hk⟩
    · rintro ⟨_, _, ⟨rfl, rfl⟩, hk⟩
      exact ⟨⟨fun he => h (he ▸ hk), fun he => h' (he ▸ hk)⟩, hk⟩

/-- The next token is not of two kinds. -/
theorem check_eq_false {kind : TokenKind} (hr : Reads as as' (tok :: toks) patches) (h : tok.kind ≠ kind)
    (hk : kind ≠ .tokEoF := by decide) (hk' : kind ≠ .tokCOUNT := by decide) : as.itp.check [kind] = false := by
  rw [Bool.eq_false_iff]
  intro hc
  obtain ⟨tok', rest, htoks, hmem⟩ := (check_iff (by simpa using hk.symm) (by simpa using hk'.symm)).mp hc
  obtain rfl : tok' = tok := (List.cons.inj (htoks.symm.trans hr.toks)).1
  exact h (List.mem_singleton.mp hmem)

@[simp] theorem log_advance (itp : ITokenParser) : itp.advance.2.log = itp.log := by
  unfold ITokenParser.advance
  split <;> rfl

theorem advance_fst (itp : ITokenParser) : itp.advance.1 = itp.curr := by
  unfold ITokenParser.advance
  split <;> rfl

/-- Moving past a token that is not the end of the source. -/
theorem reads_advance (hk : as.itp.advance.1.kind ≠ .tokEoF) (hk' : as.itp.advance.1.kind ≠ .tokCOUNT) :
    Reads as { as with itp := as.itp.advance.2 } [as.itp.advance.1] [] := by
  rw [advance_fst] at hk hk' ⊢
  rw [ITokenParser.advance, if_neg hk]
  rcases htoks : as.itp.toks with _ | ⟨tok, rest⟩
  · simp [ITokenParser.curr, htoks, ITokenParser.last] at hk'
  · exact ⟨by simp [ITokenParser.curr, htoks], rfl, rfl, rfl⟩

theorem reads_curr (hk : as.curr.kind ≠ .tokEoF) (hk' : as.curr.kind ≠ .tokCOUNT) :
    Reads as { as with itp := as.itp.advance.2 } [as.curr] [] := by
  have hadv : as.itp.advance.1 = as.curr := advance_fst _
  rw [← hadv] at hk hk' ⊢
  exact reads_advance hk hk'

/-- A token that was checked for is read. -/
theorem advance_of_check {kinds : List TokenKind} (h : .tokEoF ∉ kinds) (h' : .tokCOUNT ∉ kinds)
    (hc : as.itp.check kinds = true) : as.itp.advance.1.kind ∈ kinds ∧
      Reads as { as with itp := as.itp.advance.2 } [as.itp.advance.1] [] := by
  obtain ⟨tok, rest, htoks, hk⟩ := (check_iff h h').mp hc
  have hcurr : as.itp.curr = tok := by rw [ITokenParser.curr, htoks, List.headD_cons]
  have hkind : as.itp.advance.1.kind ∈ kinds := by
    rw [advance_fst, hcurr]
    exact hk
  exact ⟨hkind, reads_advance (fun he => h (he ▸ hkind)) fun he => h' (he ▸ hkind)⟩

theorem accept_iff : (accept kind).Returns as b as' ↔
    b = as.itp.check [kind] ∧ as' = if b then { as with itp := as.itp.advance.2 } else as := by
  simp only [accept, returns_bind, returns_get]
  constructor
  · rintro ⟨_, _, ⟨rfl, rfl⟩, hbody⟩
    split at hbody
    · rename_i hc
      simp only [returns_bind, advance_returns, returns_pure] at hbody
      obtain ⟨_, _, ⟨rfl, rfl⟩, rfl, rfl⟩ := hbody
      exact ⟨hc.symm, rfl⟩
    · rename_i hc
      obtain ⟨rfl, rfl⟩ := returns_pure.mp hbody
      exact ⟨(Bool.eq_false_iff.mpr hc).symm, rfl⟩
  · rintro ⟨rfl, rfl⟩
    refine ⟨_, _, ⟨rfl, rfl⟩, ?_⟩
    by_cases hc : as.itp.check [kind] = true
    · rw [if_pos hc, if_pos hc, hc]
      exact returns_bind.mpr ⟨_, _, advance_returns.mpr ⟨rfl, rfl⟩, returns_pure.mpr ⟨rfl, rfl⟩⟩
    · rw [if_neg hc, if_neg hc, Bool.eq_false_iff.mpr hc]
      exact returns_pure.mpr ⟨rfl, rfl⟩

theorem accept_returns (h : (accept kind).Returns as b as') (hk : kind ≠ .tokEoF := by decide)
    (hk' : kind ≠ .tokCOUNT := by decide) : ∃ toks, Optional kind b toks ∧ Reads as as' toks [] := by
  obtain ⟨hc, rfl⟩ := accept_iff.mp h
  cases b with
  | true =>
    obtain ⟨hmem, hr⟩ := advance_of_check (by simpa using hk.symm) (by simpa using hk'.symm) hc.symm
    exact ⟨_, .some (List.mem_singleton.mp hmem), hr⟩
  | false => exact ⟨[], .none, .refl⟩

theorem acceptIf_returns {c : Bool} (h : (acceptIf c kind).Returns as b as') (hk : kind ≠ .tokEoF := by decide)
    (hk' : kind ≠ .tokCOUNT := by decide) :
    ∃ toks, Optional kind b toks ∧ Reads as as' toks [] ∧ (b → c ∧ as.itp.check [kind]) := by
  unfold acceptIf at h
  split at h
  · rename_i hc
    obtain ⟨toks, hopt, hr⟩ := accept_returns h hk hk'
    exact ⟨toks, hopt, hr, fun hb => ⟨hc, (accept_iff.mp h).1 ▸ hb⟩⟩
  · obtain ⟨rfl, rfl⟩ := returns_pure.mp h
    exact ⟨[], .none, .refl, nofun⟩

theorem consume_returns (h : (consume kind fmt).Returns as tok as') (hk : kind ≠ .tokEoF := by decide)
    (hk' : kind ≠ .tokCOUNT := by decide) : tok.kind = kind ∧ Reads as as' [tok] [] := by
  obtain ⟨_, _, hget, hbody⟩ := returns_bind.mp h
  obtain ⟨rfl, rfl⟩ := returns_get.mp hget
  split at hbody
  · rename_i hc
    obtain ⟨hmem, hr⟩ := advance_of_check (by simpa using hk.symm) (by simpa using hk'.symm) hc
    obtain ⟨rfl, rfl⟩ := advance_returns.mp hbody
    exact ⟨List.mem_singleton.mp hmem, hr⟩
  · exact absurd hbody fail_returns

/-! ### Signs and symbols -/

theorem parseSign_returns (h : parseSign.Returns as (sign, isNeg) as') :
    sign = as.curr ∧ ∃ toks, Signed isNeg toks ∧ Reads as as' toks [] := by
  simp only [parseSign, returns_bind, curr_returns, returns_pure, Prod.mk.injEq] at h
  obtain ⟨_, _, ⟨rfl, rfl⟩, _, mid, hminus, isPlus, _, hplus, ⟨rfl, rfl⟩, rfl⟩ := h
  obtain ⟨toks, hopt, hr⟩ := accept_returns hminus
  obtain ⟨toks', hopt', hr', himp⟩ := acceptIf_returns hplus
  refine ⟨rfl, toks ++ toks', ?_, hr.trans hr'⟩
  cases hopt with
  | some hk =>
    cases hopt' with
    | none => exact .minus hk
    | some => exact absurd (himp rfl).1 (by decide)
  | none =>
    cases hopt' with
    | none => exact .none
    | some hk => exact .plus hk

theorem getVariableSize_returns (h : (getVariableSize range).Returns as v as') :
    as.sizeOf? range.view = some v ∧ as' = as := by
  obtain ⟨_, _, hget, hbody⟩ := returns_bind.mp h
  obtain ⟨rfl, rfl⟩ := returns_get.mp hget
  split at hbody
  · exact absurd hbody failAt_returns
  · rename_i sym hsym
    split at hbody
    · rename_i htag
      obtain ⟨rfl, rfl⟩ := returns_pure.mp hbody
      exact ⟨by simp [AssemblerCtx.sizeOf?, hsym, htag], rfl⟩
    · exact absurd hbody failAt_returns

theorem addPatch_reads (range : Range) :
    Reads as { as with patchWork := as.patchWork.orderedInsert (·.pos < ·.pos) ⟨as.instructions.length, range⟩ } []
      [⟨as.instructions.length, range⟩] := ⟨rfl, rfl, rfl, rfl⟩

theorem addSymbolReference_returns (h : (addSymbolReference pos range b).Returns as v as')
    (hpos : pos = as.instructions.length) :
    as.reference? range.view = some v ∧ as' = as ∨
      b = true ∧ as.reference? range.view = none ∧ v = 0 ∧ Reads as as' [] [⟨as.instructions.length, range⟩] := by
  subst hpos
  obtain ⟨_, _, hget, hbody⟩ := returns_bind.mp h
  obtain ⟨rfl, rfl⟩ := returns_get.mp hget
  split at hbody
  · rename_i id hid
    obtain ⟨rfl, rfl⟩ := returns_pure.mp hbody
    exact .inl ⟨hid, rfl⟩
  · rename_i hnone
    cases b with
    | true =>
      simp only [if_true, addPatch, returns_bind, returns_modify, returns_pure] at hbody
      obtain ⟨_, _, rfl, rfl, rfl⟩ := hbody
      exact .inr ⟨rfl, hnone, rfl, addPatch_reads range⟩
    | false => exact absurd hbody (by simp)

theorem symbolValue_returns (h : (symbolValue isSizeOp pos range true).Returns as v as')
    (hpos : pos = as.instructions.length) :
    as.value? isSizeOp range = some v ∧ Reads as as' [] (as.pending isSizeOp range) := by
  cases isSizeOp with
  | true =>
    obtain ⟨hv, rfl⟩ := getVariableSize_returns h
    exact ⟨hv, .refl⟩
  | false =>
    rcases addSymbolReference_returns h hpos with ⟨hv, rfl⟩ | ⟨-, hnone, rfl, hr⟩
    · refine ⟨by simp [AssemblerCtx.value?, hv], ?_⟩
      simpa [AssemblerCtx.pending, hv] using Reads.refl
    · exact ⟨by simp [AssemblerCtx.value?, hnone], by simpa [AssemblerCtx.pending, hnone] using hr⟩

theorem eaValue_returns (h : (symbolValue isSizeOp pos range false).Returns as v as')
    (hpos : pos = as.instructions.length) : as.eaValue? isSizeOp range = some v ∧ as' = as := by
  cases isSizeOp with
  | true => exact getVariableSize_returns h
  | false =>
    rcases addSymbolReference_returns h hpos with ⟨hv, rfl⟩ | ⟨hb, -⟩
    · exact ⟨hv, rfl⟩
    · cases hb

/-- A number is added to a symbol only after a minus. -/
theorem parseAddend_returns (h : (parseAddend instr).Returns as instr' as') :
    ∃ sub subs, Subtracted sub subs ∧ Reads as as' subs [] ∧ (sub.isSome → 0 < instr.ii) ∧
      instr' = match sub with
        | none => instr
        | some n => { instr with ims := .integerSize n, ii := addSigned instr.ii n true } := by
  obtain ⟨_, _, hget, hbody⟩ := returns_bind.mp h
  obtain ⟨rfl, rfl⟩ := returns_get.mp hget
  split at hbody
  · rename_i hc
    obtain ⟨hpos, hcheck⟩ := hc
    simp only [returns_bind, tokenGet_returns, returns_pure] at hbody
    obtain ⟨isNeg, mid, hminus, _, mid', hplus, num, mid'', hnum, n, _, ⟨hn, rfl⟩, rfl, rfl⟩ := hbody
    obtain ⟨toks, hopt, hr⟩ := accept_returns hminus
    obtain ⟨toks', hopt', hr', himp⟩ := acceptIf_returns hplus
    obtain ⟨hkind, hr''⟩ := consume_returns hnum
    have hreads := (hr.trans hr').trans hr''
    cases hopt with
    | some hk =>
      cases hopt' with
      | none => exact ⟨some n, _, .some hk hkind hn, hreads, fun _ => hpos, rfl⟩
      | some => exact absurd (himp rfl).1 (by decide)
    | none =>
      cases hopt' with
      | none =>
        -- A plus stays where it is, and no number can follow.
        obtain ⟨tok, rest, htoks, hk⟩ := (check_iff (by simp) (by simp)).mp hcheck
        obtain rfl : tok = num := (List.cons.inj (htoks.symm.trans hreads.toks)).1
        rw [hkind] at hk
        simp at hk
      | some =>
        obtain ⟨hfalse, rfl⟩ := accept_iff.mp hminus
        exact absurd (hfalse.trans (himp rfl).2) (by decide)
  · obtain ⟨rfl, rfl⟩ := returns_pure.mp hbody
    exact ⟨none, [], .none, .refl, by simp, rfl⟩

/-! ### The parts of an argument -/

theorem parseSymbol_returns (h : (parseSymbol instr isSizeOp pos tok).Returns as instr' as')
    (hpos : pos = as.instructions.length) :
    ∃ sub subs, Subtracted sub subs ∧ instr' = (ArgHead.symbol isSizeOp tok.range sub).record as instr ∧
      (ArgHead.symbol isSizeOp tok.range sub).Defined as ∧ Reads as as' subs (as.pending isSizeOp tok.range) := by
  obtain ⟨v, mid, hv, hadd⟩ := returns_bind.mp h
  obtain ⟨hval, hr⟩ := symbolValue_returns hv hpos
  obtain ⟨sub, subs, hsub, hr', hlt, rfl⟩ := parseAddend_returns hadd
  refine ⟨sub, subs, hsub, ?_, ⟨v, hval, fun hs => ?_⟩, by simpa using hr.trans hr'⟩
  · cases sub <;> simp only [ArgHead.record, hval, Option.getD_some]
  · have hlt' : 0 < (v.setWidth 64).toNat := hlt hs
    rwa [BitVec.toNat_setWidth, Nat.mod_eq_of_lt (by have := v.isLt; omega)] at hlt'

/-- An argument that starts with an identifier, which has been read. -/
theorem parseName_returns {reg : Register} (hk : tok.kind = .tokIdentifier)
    (h : (parseName instr isSizeOp pos sign tok).Returns as (reg, instr') as') (hpos : pos = as.instructions.length) :
    ¬(sign.kind = .tokPlus ∨ sign.kind = .tokMinus) ∧ ∃ (head : ArgHead) (toks : List Token), reg = head.register ∧
      head.isSizeOp = isSizeOp ∧ instr' = head.record as instr ∧ head.Defined as ∧ Reads as as' toks (head.pending as) ∧
      ∀ hash, Optional .tokHash isSizeOp hash → head.Spelled (hash ++ tok :: toks) := by
  obtain ⟨_, _, hfail, hbody⟩ := returns_bind.mp h
  obtain ⟨hsign, rfl⟩ := failIf_returns.mp hfail
  split at hbody
  · rename_i hreg
    simp only [returns_bind, returns_pure, Prod.mk.injEq] at hbody
    obtain ⟨_, _, hsym, ⟨rfl, rfl⟩, rfl⟩ := hbody
    obtain ⟨sub, subs, hsub, rfl, hdef, hr⟩ := parseSymbol_returns hsym hpos
    exact ⟨hsign, _, subs, rfl, rfl, rfl, hdef, hr, fun hash hh => .symbol hh hk hreg hsub⟩
  · rename_i hreg
    simp only [returns_bind, returns_get, failIf_returns, returns_pure, Prod.mk.injEq] at hbody
    obtain ⟨_, _, ⟨rfl, rfl⟩, _, _, ⟨hsize, rfl⟩, ⟨rfl, rfl⟩, rfl⟩ := hbody
    obtain rfl : isSizeOp = false := Bool.eq_false_iff.mpr hsize
    refine ⟨hsign, .reg _, [], rfl, rfl, rfl, trivial, .refl, fun hash hh => ?_⟩
    cases hh
    exact .reg hk hreg

theorem parseLiteral_returns (h : (parseLiteral instr isNeg tok).Returns as instr' as') :
    as' = as ∧ (tok.kind = .tokChar ∨ tok.kind = .tokInteger) ∧ ∃ head : ArgHead, head.register = .r0 ∧
      instr' = head.record as instr ∧ head.Defined as ∧ head.pending as = [] ∧
      ∀ isHash sign hash, Signed isNeg sign → Optional .tokHash isHash hash → head.Spelled (sign ++ hash ++ [tok]) := by
  unfold parseLiteral at h
  split at h
  · rename_i hk
    simp only [returns_bind, tokenGet_returns, returns_pure] at h
    obtain ⟨c, _, ⟨hc, rfl⟩, rfl, rfl⟩ := h
    exact ⟨rfl, .inl hk, .char c, rfl, rfl, trivial, rfl, fun _ _ _ hs hh => .char hs hh hk hc⟩
  · rename_i hk
    simp only [returns_bind, tokenGet_returns, returns_pure] at h
    obtain ⟨n, _, ⟨hn, rfl⟩, rfl, rfl⟩ := h
    exact ⟨rfl, .inr hk, .int n isNeg, rfl, rfl, trivial, rfl, fun _ _ _ hs hh => .int hs hh hk hn⟩
  · exact absurd h returns_stop

theorem parseEaSymbol_returns
    (h : (parseEaSymbol instr isSizeOp pos sign tok tokP).Returns as instr' as') (hpos : pos = as.instructions.length) :
    as' = as ∧ ¬(sign.kind = .tokPlus ∨ sign.kind = .tokMinus) ∧ (EaPart.symbol isSizeOp tokP.range).Defined as ∧
      { instr' with iea := true } = (EaPart.symbol isSizeOp tokP.range).record as instr := by
  simp only [parseEaSymbol, returns_bind, failIf_returns, returns_pure] at h
  obtain ⟨_, _, ⟨hsign, rfl⟩, v, _, hv, rfl, rfl⟩ := h
  obtain ⟨hval, rfl⟩ := eaValue_returns hv hpos
  exact ⟨rfl, hsign, by simp [EaPart.Defined, hval], by simp [EaPart.record, hval]⟩

/-- The second part of an effective address: an error is logged where it is neither a number nor a symbol, and
    no token is read after a `#`. -/
theorem parseEaPart_returns (h : (parseEaPart instr isSizeOp pos sign tok isNeg tokP).Returns as instr' as')
    (hpos : pos = as.instructions.length) :
    as.errors < as'.errors ∧ as'.instructions = as.instructions ∧ instr' = instr ∨ as' = as ∧ (as.itp.check [.tokIdentifier] ∨ ∃ e : EaPart, e.Defined as ∧
      { instr' with iea := true } = e.record as instr ∧
      (tokP.kind = .tokInteger ∧ (∃ n, tokP.getInt? = some n ∧ e = .int n isNeg) ∨
        tokP.kind = .tokIdentifier ∧ ¬(sign.kind = .tokPlus ∨ sign.kind = .tokMinus) ∧
          e = .symbol isSizeOp tokP.range)) := by
  unfold parseEaPart at h
  split at h
  · rename_i hk
    simp only [returns_bind, tokenGet_returns, returns_pure] at h
    obtain ⟨n, _, ⟨hn, rfl⟩, rfl, rfl⟩ := h
    exact .inr ⟨rfl, .inr ⟨.int n isNeg, trivial, rfl, .inl ⟨hk, n, hn, rfl⟩⟩⟩
  · simp only [returns_bind, returns_get, failIf_returns] at h
    obtain ⟨_, _, ⟨rfl, rfl⟩, _, _, ⟨hc, rfl⟩, hsym⟩ := h
    obtain ⟨rfl, -⟩ := parseEaSymbol_returns hsym hpos
    exact .inr ⟨rfl, .inl (not_not.mp hc)⟩
  · rename_i hk
    obtain ⟨rfl, hsign, hdef, hrec⟩ := parseEaSymbol_returns h hpos
    exact .inr ⟨rfl, .inr ⟨.symbol isSizeOp tokP.range, hdef, hrec, .inr ⟨hk, hsign, rfl⟩⟩⟩
  · simp only [returns_bind, error_returns, returns_pure] at h
    obtain ⟨_, _, rfl, rfl, rfl⟩ := h
    exact .inl ⟨by simp [AssemblerCtx.errors], rfl, rfl⟩

theorem parseEa_returns {isMemRb : Bool} (h : (parseEa instr isMemRb isSizeOp pos tok).Returns as instr' as')
    (hpos : pos = as.instructions.length) :
    isMemRb ∧ as.errors < as'.errors ∧ as'.instructions = as.instructions ∧ instr' = { instr with iea := true } ∨
      isMemRb ∧ as'.itp.check [.tokIdentifier] ∨
      ∃ ea toks, Reads as as' toks [] ∧ instr' = instr.withEa as ea ∧ (ea = none ∧ toks = [] ∨
        ∃ e, ea = some e ∧ isMemRb ∧ e.Defined as ∧ e.Spelled isSizeOp toks) := by
  obtain ⟨isEa, mid, hcomma, hbody⟩ := returns_bind.mp h
  obtain ⟨toks, hopt, hr, himp⟩ := acceptIf_returns hcomma
  cases hopt with
  | none =>
    obtain ⟨rfl, rfl⟩ := returns_pure.mp hbody
    exact .inr (.inr ⟨none, [], hr, rfl, .inl ⟨rfl, rfl⟩⟩)
  | some hcommaKind =>
    have hmem := (himp rfl).1
    simp only [if_true, returns_bind, advance_returns, returns_pure] at hbody
    obtain ⟨⟨sign, isNeg⟩, mid', hsign, _, _, ⟨rfl, rfl⟩, instr', _, hpart, rfl, rfl⟩ := hbody
    obtain ⟨rfl, signs, hsigns, hr'⟩ := parseSign_returns hsign
    have hreads := hr.trans hr'
    rcases parseEaPart_returns hpart (hpos.trans (congrArg List.length hreads.instructions.symm)) with
      ⟨herr, hinstrs, rfl⟩ | ⟨rfl, hident | ⟨e, hdef, hrec, hkinds⟩⟩
    · refine .inl ⟨hmem, ?_, hinstrs.trans hreads.instructions, rfl⟩
      rw [← hreads.errors]
      simpa [AssemblerCtx.errors] using herr
    · exact .inr (.inl ⟨hmem, hident⟩)
    · refine .inr (.inr ?_)
      rcases hkinds with ⟨hk, n, hn, rfl⟩ | ⟨hk, hplain, rfl⟩
      · have hr'' : Reads mid' _ _ [] := reads_advance (by rw [hk]; decide) (by rw [hk]; decide)
        exact ⟨some (.int n isNeg), _, hreads.trans hr'', hrec, .inr ⟨_, rfl, hmem, trivial, .int hcommaKind hsigns hk hn⟩⟩
      · have hr'' : Reads mid' _ _ [] := reads_advance (by rw [hk]; decide) (by rw [hk]; decide)
        obtain rfl := hsigns.eq_nil hr' hplain
        have hall := hreads.trans hr''
        refine ⟨some (.symbol isSizeOp mid'.itp.advance.1.range), _, hall, hrec.trans (hall.eaRecord _ _), .inr ?_⟩
        exact ⟨_, rfl, hmem, hall.eaDefined hdef, .symbol hcommaKind hk⟩

/-- What stands between the brackets, after its sign and its `#`. -/
theorem parseOperand_returns {isMemRb : Bool} {reg : Register}
    (h : (parseOperand instr isMemRb isSizeOp isNeg sign tok).Returns as (reg, instr') as') :
    (∃ head : ArgHead, isMemRb ∧ as.errors < as'.errors ∧ as'.instructions = as.instructions ∧
      instr' = { head.record as instr with iea := true }) ∨
      isMemRb ∧ as'.itp.check [.tokIdentifier] ∨
      tok.kind ∈ [.tokIdentifier, .tokChar, .tokInteger] ∧ ∃ (head : ArgHead) (ea : Option EaPart) (toks eas : List Token),
        reg = head.register ∧ instr' = (head.record as instr).withEa as ea ∧ head.Defined as ∧
        Reads as as' (toks ++ eas) (head.pending as) ∧
        (ea = none ∧ eas = [] ∨ ∃ e, ea = some e ∧ isMemRb ∧ e.Defined as ∧ e.Spelled head.isSizeOp eas) ∧
        ∀ signs hash, Signed isNeg signs → Optional .tokHash isSizeOp hash →
          (¬(sign.kind = .tokPlus ∨ sign.kind = .tokMinus) → signs = []) → head.Spelled (signs ++ hash ++ tok :: toks) := by
  obtain ⟨_, _, hget, hbody⟩ := returns_bind.mp h
  obtain ⟨rfl, rfl⟩ := returns_get.mp hget
  split at hbody
  · rename_i hk
    simp only [returns_bind, returns_pure, Prod.mk.injEq] at hbody
    obtain ⟨⟨_, _⟩, mid, hname, _, _, hea, ⟨rfl, rfl⟩, rfl⟩ := hbody
    obtain ⟨hsign, head, toks, rfl, rfl, rfl, hdef, hr, hspell⟩ := parseName_returns hk hname rfl
    rcases parseEa_returns hea (congrArg List.length hr.instructions.symm) with
      ⟨hmem, herr, hinstrs, rfl⟩ | hident | ⟨ea, eas, hr', rfl, hea'⟩
    · exact .inl ⟨head, hmem, hr.errors ▸ herr, hinstrs.trans hr.instructions, rfl⟩
    · exact .inr (.inl hident)
    · refine .inr (.inr ⟨by simp [hk], head, ea, toks, eas, rfl, hr.withEa ea _, hdef, by simpa using hr.trans hr', ?_, ?_⟩)
      · rcases hea' with hnone | ⟨e, he, hmem, hd, hs⟩
        · exact .inl hnone
        · exact .inr ⟨e, he, hmem, hr.eaDefined hd, hs⟩
      · intro signs hash _ hhash hnil
        rw [hnil hsign]
        exact hspell hash hhash
  · simp only [returns_bind, returns_pure, Prod.mk.injEq] at hbody
    obtain ⟨_, _, hlit, ⟨rfl, rfl⟩, rfl⟩ := hbody
    obtain ⟨rfl, hkind, head, hreg, rfl, hdef, hpend, hspell⟩ := parseLiteral_returns hlit
    refine .inr (.inr ⟨by rcases hkind with hk | hk <;> simp [hk], head, none, [], [], hreg.symm, rfl, hdef, ?_,
      .inl ⟨rfl, rfl⟩, ?_⟩)
    · rw [hpend]
      exact .refl
    · exact fun signs hash hs hh _ => hspell isSizeOp signs hash hs hh

theorem closeBracket_returns {isMem : Bool} (h : (closeBracket isMem).Returns as u as') :
    ∃ toks, Optional .tokRBracket isMem toks ∧ Reads as as' toks [] ∧ (isMem → as.itp.check [.tokIdentifier] = false) := by
  unfold closeBracket at h
  split at h
  · rename_i hmem
    simp only [returns_bind, returns_pure] at h
    obtain ⟨tok, mid, hc, -, rfl⟩ := h
    obtain ⟨hk, hr⟩ := consume_returns hc
    exact ⟨[tok], hmem ▸ .some hk, hr, fun _ => check_eq_false hr (by rw [hk]; decide)⟩
  · rename_i hmem
    obtain ⟨rfl, rfl⟩ := returns_pure.mp h
    exact ⟨[], (Bool.eq_false_iff.mpr hmem) ▸ .none, .refl, fun hm => absurd hm hmem⟩

/-- `Assembler_parse_instruction_arg` reads an argument, if it logs no error, and leaves what it means. -/
theorem parseInstructionArg_returns {isMem isRb : Bool} {reg : Register}
    (h : (parseInstructionArg instr isRb).Returns as (isMem, reg, instr') as') :
    (∃ head : ArgHead, isRb ∧ as.errors < as'.errors ∧ as'.instructions = as.instructions ∧
      instr' = { head.record as instr with iea := true }) ∨
      ∃ (arg : Arg) (toks : List Token), arg.isMem = isMem ∧ arg.Spelled toks ∧ arg.Defined as ∧
        Reads as as' toks (arg.head.pending as) ∧ reg = arg.head.register ∧ instr' = arg.record as instr ∧
        (arg.ea.isSome → isMem ∧ isRb) := by
  simp only [parseInstructionArg, returns_bind, returns_get, failIf_returns, advance_returns, returns_pure,
    Prod.mk.injEq] at h
  obtain ⟨_, as1, hmem, ⟨sign, isNeg⟩, as2, hsign, _, _, ⟨rfl, rfl⟩, _, _, ⟨-, rfl⟩, isSizeOp, as3, hhash, _, _,
    ⟨rfl, rfl⟩, ⟨_, _⟩, as4, hop, _, _, hclose, ⟨rfl, rfl, rfl⟩, rfl⟩ := h
  obtain ⟨lbs, hlb, hr1⟩ := accept_returns hmem
  obtain ⟨rfl, signs, hsigns, hr2⟩ := parseSign_returns hsign
  obtain ⟨hashes, hhashes, hr3⟩ := accept_returns hhash
  obtain ⟨rbs, hrb, hr5, hnot⟩ := closeBracket_returns hclose
  have hpre := (hr1.trans hr2).trans hr3
  rcases parseOperand_returns hop with
    ⟨head, hmemRb, herr, hinstrs, rfl⟩ | ⟨hmemRb, hcheck⟩ | ⟨hkind, head, ea, toks, eas, rfl, rfl, hdef, hr4, hea, hspell⟩
  · refine .inl ⟨head, (Bool.and_eq_true_iff.mp hmemRb).2, ?_, ?_, ?_⟩
    · rw [hr5.errors, ← hpre.errors]
      simpa [AssemblerCtx.errors] using herr
    · exact hr5.instructions.trans (hinstrs.trans hpre.instructions)
    · exact congrArg (fun r : Instruction => { r with iea := true }) (hpre.headRecord head instr)
  · rw [hnot (Bool.and_eq_true_iff.mp hmemRb).1] at hcheck
    cases hcheck
  · have hr3' : Reads as3 _ _ [] := reads_advance (by rintro hk; rw [hk] at hkind; simp at hkind)
      (by rintro hk; rw [hk] at hkind; simp at hkind)
    have hread := hpre.trans hr3'
    have hall := (hread.trans hr4).trans hr5
    have hhead := hspell signs hashes hsigns hhashes fun hplain => hsigns.eq_nil hr2 hplain
    rw [hread.headPending] at hall
    refine .inr ⟨⟨isMem, head, ea⟩, _, rfl, ?_, ⟨hread.headDefined hdef, ?_⟩, by simpa using hall, rfl, ?_, ?_⟩
    · rcases hea with ⟨rfl, rfl⟩ | ⟨e, rfl, hmemRb, -, hspelled⟩
      · cases hlb with
        | none =>
          cases hrb with
          | none => simpa using Arg.Spelled.bare hhead
        | some hl =>
          cases hrb with
          | some hr => simpa using Arg.Spelled.mem hl hhead hr
      · obtain rfl : isMem = true := (Bool.and_eq_true_iff.mp hmemRb).1
        cases hlb with
        | some hl =>
          cases hrb with
          | some hr => simpa using Arg.Spelled.ea hl hhead hspelled hr
    · rcases hea with ⟨rfl, rfl⟩ | ⟨e, rfl, -, hd, -⟩
      · rintro _ ⟨⟩
      · rintro _ ⟨⟩
        exact hread.eaDefined hd
    · rw [hread.headRecord, hread.withEa]
      rfl
    · rcases hea with ⟨rfl, rfl⟩ | ⟨e, rfl, hmemRb, -, -⟩
      · rintro ⟨⟩
      · exact fun _ => Bool.and_eq_true_iff.mp hmemRb

end AsmM

end Cyntatic
