import Cyntatic.Theorems.AsmProgram

/-! # Programs that are accepted

A program that is written by the rules is read as it is written. -/

namespace Cyntatic
open Library

/-- The kind of the first of some tokens, or of the end of the source. -/
def firstKind (toks : List Token) : TokenKind := (toks.head?.map Token.kind).getD .tokCOUNT

theorem ITokenParser.curr_kind (itp : ITokenParser) : itp.curr.kind = firstKind itp.toks := by
  rw [ITokenParser.curr]
  cases itp.toks <;> rfl

theorem AssemblerCtx.curr_kind (as : AssemblerCtx) : as.curr.kind = firstKind as.itp.toks := as.itp.curr_kind

variable {as as' as'' : AssemblerCtx} {toks toks' rest : List Token} {patches : List Patch}

theorem Reads.left (h : Reads as as' toks patches) (htoks : as.itp.toks = toks ++ rest) : as'.itp.toks = rest :=
  List.append_cancel_left (h.toks.symm.trans htoks)

/-- What follows a head is not taken for a number that is added to it: a symbol without one has the value 0, or no sign
    follows. -/
def ArgHead.EndsBefore (as : AssemblerCtx) (rest : List Token) : ArgHead → Prop
  | .symbol isSizeOp range none =>
    (as.value? isSizeOp range).getD 0 = 0 ∨ firstKind rest ∉ [.tokPlus, .tokMinus]
  | _ => True

/-- Whether an argument begins with an identifier. -/
def ArgHead.isName : ArgHead → Bool
  | .reg _ | .symbol _ _ _ => true
  | _ => false

/-- An argument in brackets ends with a bracket. -/
def Arg.EndsBefore (as : AssemblerCtx) (rest : List Token) (arg : Arg) : Prop :=
  arg.isMem = false → arg.head.EndsBefore as rest

/-- What the reader asks of an argument: its symbols have values, it ends where it should, and only a register or a symbol
    of a second argument is followed by a second part. -/
structure Arg.Readable (as : AssemblerCtx) (rest : List Token) (isRb : Bool) (arg : Arg) : Prop where
  defined : arg.Defined as
  ends : arg.EndsBefore as rest
  ea : arg.ea.isSome → isRb = true ∧ arg.head.isName = true

/-- The arguments of an instruction, where a second one may have a second part. -/
inductive ArgsWritten (as : AssemblerCtx) : Bool → List Arg → List Token → Prop
  | nil {isRb : Bool} : ArgsWritten as isRb [] []
  | cons {isRb : Bool} {arg : Arg} {args : List Arg} {toks toks' : List Token} (h : arg.Spelled toks)
      (hr : arg.Readable as toks' isRb) (hs : ArgsWritten as true args toks') : ArgsWritten as isRb (arg :: args) (toks ++ toks')

theorem Reads.headDefined_of (h : Reads as as' toks patches) {head : ArgHead} (hd : head.Defined as) : head.Defined as' := by
  cases head with
  | symbol =>
    obtain ⟨v, hv, hpos⟩ := hd
    exact ⟨v, h.value?.trans hv, hpos⟩
  | _ => trivial

theorem Reads.eaDefined_of (h : Reads as as' toks patches) {e : EaPart} (hd : e.Defined as) : e.Defined as' := by
  cases e with
  | symbol => exact (congrArg Option.isSome h.eaValue?).trans hd
  | int => trivial

theorem Reads.endsBefore (h : Reads as as' toks patches) {head : ArgHead} (hends : head.EndsBefore as rest) :
    head.EndsBefore as' rest := by
  rcases head with _ | ⟨isSizeOp, range, _ | n⟩ | _ | _
  · trivial
  · change (as'.value? isSizeOp range).getD 0 = 0 ∨ _
    rw [h.value?]
    exact hends
  all_goals trivial

theorem firstKind_append (h : toks ≠ []) : firstKind (toks ++ rest) = firstKind toks := by
  rw [firstKind, firstKind, List.head?_append_of_ne_nil _ h]

theorem ArgHead.endsBefore_of_first {head : ArgHead} (h : firstKind rest ∉ [.tokPlus, .tokMinus]) : head.EndsBefore as rest := by
  unfold ArgHead.EndsBefore
  split
  · exact .inr h
  · trivial

theorem Reads.readable (h : Reads as as' toks patches) {isRb : Bool} {arg : Arg} (hr : arg.Readable as rest isRb) :
    arg.Readable as' rest isRb where
  defined := ⟨h.headDefined_of hr.defined.head, fun e he => h.eaDefined_of (hr.defined.ea e he)⟩
  ends hmem := h.endsBefore (hr.ends hmem)
  ea := hr.ea

/-- An argument also ends before what follows the instruction. -/
theorem Arg.Readable.append {isRb : Bool} {arg : Arg} (h : arg.Readable as toks isRb)
    (hrest : toks = [] → firstKind rest ∉ [.tokPlus, .tokMinus]) : arg.Readable as (toks ++ rest) isRb where
  defined := h.defined
  ends hmem := by
    cases toks with
    | nil => exact ArgHead.endsBefore_of_first (hrest rfl)
    | cons tok toks =>
      have hends := h.ends hmem
      unfold ArgHead.EndsBefore at hends ⊢
      rwa [firstKind_append (List.cons_ne_nil _ _)]
  ea := h.ea

namespace AsmM
open Prog

variable {kind : TokenKind} {b isNeg isSizeOp isMem : Bool} {tok sign : Token} {instr : Instruction}
  {range : Range} {pos : Nat}

/-! ### Single tokens -/

/-- The parser after a token that it moves past. -/
theorem exists_reads (htoks : as.itp.toks = tok :: rest) (hk : tok.kind ≠ .tokEoF) (hk' : tok.kind ≠ .tokCOUNT) :
    as.itp.advance.1 = tok ∧ Reads as { as with itp := as.itp.advance.2 } [tok] [] := by
  have hcurr : as.itp.advance.1 = tok := by rw [advance_fst, ITokenParser.curr, htoks, List.headD_cons]
  have hr : Reads as _ [as.itp.advance.1] [] := reads_advance (by rwa [hcurr]) (by rwa [hcurr])
  exact ⟨hcurr, hcurr ▸ hr⟩

theorem advance_reads (htoks : as.itp.toks = tok :: rest) (hk : tok.kind ≠ .tokEoF) (hk' : tok.kind ≠ .tokCOUNT) :
    ∃ as', advance.Returns as tok as' ∧ Reads as as' [tok] [] := by
  obtain ⟨hcurr, hr⟩ := exists_reads htoks hk hk'
  exact ⟨_, advance_returns.mpr ⟨hcurr.symm, rfl⟩, hr⟩

theorem check_of_mem {kinds : List TokenKind} (htoks : as.itp.toks = tok :: rest) (h : tok.kind ∈ kinds) (hk : tok.kind ≠ .tokEoF)
    (hk' : tok.kind ≠ .tokCOUNT) : as.itp.check kinds = true := by
  simp [ITokenParser.check, ITokenParser.eof, ITokenParser.curr, htoks, h, hk, hk']

theorem check_of_not_mem {kinds : List TokenKind} (h : firstKind as.itp.toks ∉ kinds) : as.itp.check kinds = false := by
  rw [← as.curr_kind] at h
  simp only [ITokenParser.check, Bool.and_eq_false_iff, List.contains_eq_mem, decide_eq_false_iff_not]
  exact .inr h

theorem consume_reads (htoks : as.itp.toks = tok :: rest) (hk : tok.kind = kind) (hne : kind ≠ .tokEoF := by decide)
    (hne' : kind ≠ .tokCOUNT := by decide) : ∃ as', (∀ fmt, (consume kind fmt).Returns as tok as') ∧ Reads as as' [tok] [] := by
  obtain ⟨as', hadv, hr⟩ := advance_reads htoks (hk ▸ hne) (hk ▸ hne')
  refine ⟨as', fun fmt => returns_bind.mpr ⟨as, as, returns_get.mpr ⟨rfl, rfl⟩, ?_⟩, hr⟩
  rw [if_pos (check_of_mem htoks (List.mem_singleton.mpr hk) (hk ▸ hne) (hk ▸ hne'))]
  exact hadv

/-- A token that may be left out is read if it is there. -/
theorem accept_reads (hopt : Optional kind b toks) (htoks : as.itp.toks = toks ++ rest) (hrest : b = false → firstKind rest ≠ kind)
    (hne : kind ≠ .tokEoF := by decide) (hne' : kind ≠ .tokCOUNT := by decide) :
    ∃ as', (accept kind).Returns as b as' ∧ Reads as as' toks [] := by
  cases hopt with
  | none =>
    have hc : as.itp.check [kind] = false := check_of_not_mem (by rw [htoks]; simpa using hrest rfl)
    exact ⟨as, accept_iff.mpr ⟨hc.symm, rfl⟩, .refl⟩
  | some hk =>
    have hc : as.itp.check [kind] = true := check_of_mem htoks (List.mem_singleton.mpr hk) (hk ▸ hne) (hk ▸ hne')
    exact ⟨_, accept_iff.mpr ⟨hc.symm, rfl⟩, (exists_reads htoks (hk ▸ hne) (hk ▸ hne')).2⟩

theorem acceptIf_reads {c : Bool} (hopt : Optional kind b toks) (htoks : as.itp.toks = toks ++ rest) (hc : b = true → c = true)
    (hrest : b = false → c = true → firstKind rest ≠ kind) (hne : kind ≠ .tokEoF := by decide)
    (hne' : kind ≠ .tokCOUNT := by decide) : ∃ as', (acceptIf c kind).Returns as b as' ∧ Reads as as' toks [] := by
  cases c with
  | true => exact accept_reads hopt htoks (fun hb => hrest hb rfl) hne hne'
  | false =>
    cases hopt with
    | none => exact ⟨as, returns_pure.mpr ⟨rfl, rfl⟩, .refl⟩
    | some => exact absurd (hc rfl) Bool.false_ne_true

/-- A sign is read if there is one. -/
theorem parseSign_reads (hs : Signed isNeg toks) (htoks : as.itp.toks = toks ++ rest)
    (hrest : toks = [] → firstKind rest ∉ [.tokPlus, .tokMinus]) :
    ∃ as', parseSign.Returns as (as.curr, isNeg) as' ∧ Reads as as' toks [] ∧
      (toks = [] → ¬(as.curr.kind = .tokPlus ∨ as.curr.kind = .tokMinus)) := by
  have hreturns {mid as' : AssemblerCtx} {isPlus : Bool} (h : (accept .tokMinus).Returns as isNeg mid)
      (h' : (acceptIf (!isNeg) .tokPlus).Returns mid isPlus as') : parseSign.Returns as (as.curr, isNeg) as' :=
    returns_bind.mpr ⟨_, _, curr_returns.mpr ⟨rfl, rfl⟩, returns_bind.mpr ⟨_, _, h, returns_bind.mpr ⟨_, _, h',
      returns_pure.mpr ⟨rfl, rfl⟩⟩⟩⟩
  cases hs with
  | none =>
    have hfirst : firstKind rest ≠ .tokPlus ∧ firstKind rest ≠ .tokMinus := by simpa using hrest rfl
    obtain ⟨mid, hminus, hr⟩ := accept_reads (.none : Optional .tokMinus _ _) htoks fun _ => hfirst.2
    obtain ⟨as', hplus, hr'⟩ := acceptIf_reads (c := !false) (.none : Optional .tokPlus _ _) (hr.left htoks) nofun fun _ _ => hfirst.1
    refine ⟨as', hreturns hminus hplus, hr.trans hr', fun _ => ?_⟩
    rw [as.curr_kind, htoks]
    exact not_or.mpr hfirst
  | plus hk =>
    obtain ⟨mid, hminus, hr⟩ := accept_reads (.none : Optional .tokMinus _ _) htoks fun _ hm =>
      absurd (hk.symm.trans hm) (by decide)
    obtain ⟨as', hplus, hr'⟩ := acceptIf_reads (c := !false) (.some hk) (hr.left htoks) (fun _ => rfl) nofun
    exact ⟨as', hreturns hminus hplus, hr.trans hr', nofun⟩
  | minus hk =>
    obtain ⟨mid, hminus, hr⟩ := accept_reads (.some hk) htoks nofun
    obtain ⟨as', hplus, hr'⟩ := acceptIf_reads (c := !true) (.none : Optional .tokPlus _ _) (hr.left htoks) nofun nofun
    exact ⟨as', hreturns hminus hplus, hr.trans hr', nofun⟩

/-! ### Parts of an argument -/

theorem getVariableSize_reads {v : U32} (hv : as.sizeOf? range.view = some v) : (getVariableSize range).Returns as v as := by
  obtain ⟨sym, hsym, rfl⟩ := Option.map_eq_some_iff.mp hv
  obtain ⟨hfind, htag⟩ := Option.filter_eq_some_iff.mp hsym
  refine returns_bind.mpr ⟨as, as, returns_get.mpr ⟨rfl, rfl⟩, ?_⟩
  rw [hfind]
  simp only [if_pos (of_decide_eq_true htag), returns_pure, and_self]

theorem reference_reads {v : U32} (hv : as.reference? range.view = some v) :
    (addSymbolReference pos range b).Returns as v as := by
  refine returns_bind.mpr ⟨as, as, returns_get.mpr ⟨rfl, rfl⟩, ?_⟩
  rw [hv]
  exact returns_pure.mpr ⟨rfl, rfl⟩

theorem symbolValue_reads {v : U32} (hv : as.value? isSizeOp range = some v) (hpos : pos = as.instructions.length) :
    ∃ as', (symbolValue isSizeOp pos range true).Returns as v as' ∧ Reads as as' [] (as.pending isSizeOp range) := by
  subst hpos
  cases isSizeOp with
  | true => exact ⟨as, getVariableSize_reads hv, .refl⟩
  | false =>
    have hv' : (as.reference? range.view).getD 0 = v := Option.some.inj hv
    cases hr : as.reference? range.view with
    | some id =>
      rw [hr, Option.getD_some] at hv'
      refine ⟨as, reference_reads (hv' ▸ hr), ?_⟩
      simpa [AssemblerCtx.pending, hr] using Reads.refl
    | none =>
      rw [hr, Option.getD_none] at hv'
      refine ⟨{ as with patchWork := as.patchWork.orderedInsert (·.pos < ·.pos) ⟨as.instructions.length, range⟩ },
        returns_bind.mpr ⟨as, as, returns_get.mpr ⟨rfl, rfl⟩, ?_⟩, ?_⟩
      · rw [hr]
        exact returns_bind.mpr ⟨(), _, returns_modify.mpr rfl, returns_pure.mpr ⟨hv'.symm, rfl⟩⟩
      · simpa [AssemblerCtx.pending, hr] using addPatch_reads range

theorem eaValue_reads {v : U32} (hv : as.eaValue? isSizeOp range = some v) :
    (symbolValue isSizeOp pos range false).Returns as v as := by
  cases isSizeOp with
  | true => exact getVariableSize_reads hv
  | false => exact reference_reads hv

/-- A number after a symbol. -/
theorem parseAddend_reads {sub : Option U64} (hs : Subtracted sub toks) (htoks : as.itp.toks = toks ++ rest)
    (hpos : sub.isSome → 0 < instr.ii) (hrest : sub = none → instr.ii = 0 ∨ firstKind rest ∉ [.tokPlus, .tokMinus]) :
    ∃ as', (parseAddend instr).Returns as (match sub with
      | none => instr
      | some n => { instr with ims := .integerSize n, ii := addSigned instr.ii n true }) as' ∧ Reads as as' toks [] := by
  cases hs with
  | none =>
    refine ⟨as, returns_bind.mpr ⟨as, as, returns_get.mpr ⟨rfl, rfl⟩, ?_⟩, .refl⟩
    rw [if_neg]
    · exact returns_pure.mpr ⟨rfl, rfl⟩
    · rintro ⟨hlt, hc⟩
      rcases hrest rfl with hzero | hfirst
      · rw [hzero] at hlt
        exact absurd hlt (by decide)
      · rw [check_of_not_mem (by rw [htoks]; exact hfirst)] at hc
        cases hc
  | @some minus num n hm hn hv =>
    obtain ⟨mid, hminus, hr⟩ := accept_reads (.some hm) htoks nofun
    obtain ⟨mid', hplus, hr'⟩ := acceptIf_reads (c := !true) (.none : Optional .tokMinus _ _) (hr.left htoks) nofun nofun
    obtain ⟨as', hnum, hr''⟩ := consume_reads (hr'.left (hr.left htoks)) hn
    refine ⟨as', returns_bind.mpr ⟨as, as, returns_get.mpr ⟨rfl, rfl⟩, ?_⟩, (hr.trans hr').trans hr''⟩
    rw [if_pos ⟨hpos rfl, check_of_mem htoks (by rw [hm]; decide) (by rw [hm]; decide) (by rw [hm]; decide)⟩]
    refine returns_bind.mpr ⟨_, _, hminus, returns_bind.mpr ⟨_, _, hplus, returns_bind.mpr ⟨_, _, hnum _, ?_⟩⟩⟩
    exact returns_bind.mpr ⟨n, _, tokenGet_returns.mpr ⟨hv, rfl⟩, returns_pure.mpr ⟨rfl, rfl⟩⟩

theorem parseSymbol_reads {sub : Option U64} (hs : Subtracted sub toks) (htoks : as.itp.toks = toks ++ rest)
    (hd : (ArgHead.symbol isSizeOp tok.range sub).Defined as) (hends : (ArgHead.symbol isSizeOp tok.range sub).EndsBefore as rest)
    (hpos : pos = as.instructions.length) :
    ∃ as', (parseSymbol instr isSizeOp pos tok).Returns as ((ArgHead.symbol isSizeOp tok.range sub).record as instr) as' ∧
      Reads as as' toks (as.pending isSizeOp tok.range) := by
  obtain ⟨v, hv, hlt⟩ := hd
  obtain ⟨mid, hval, hr⟩ := symbolValue_reads hv hpos
  have hpositive : sub.isSome → (0 : U64) < v.setWidth 64 := by
    intro hsub
    have hlt' : 0 < v.toNat := hlt hsub
    change 0 < (v.setWidth 64).toNat
    rwa [BitVec.toNat_setWidth, Nat.mod_eq_of_lt (by have := v.isLt; omega)]
  have hfollow : sub = none → v.setWidth 64 = (0 : U64) ∨ firstKind rest ∉ [.tokPlus, .tokMinus] := by
    rintro rfl
    refine hends.imp_left fun hzero => ?_
    rw [hv, Option.getD_some] at hzero
    rw [hzero]
    rfl
  obtain ⟨as', hadd, hr'⟩ := @parseAddend_reads mid _ _ { instr with
    rmd := .imm, ii := v.setWidth 64, ims := if v = 0 then .word else .integerSize (v.setWidth 64) } sub hs (hr.left htoks)
    hpositive hfollow
  have hall := hr.trans hr'
  rw [List.nil_append, List.append_nil] at hall
  refine ⟨as', returns_bind.mpr ⟨v, mid, hval, ?_⟩, hall⟩
  cases sub with
  | none =>
    simp only [ArgHead.record, hv, Option.getD_some]
    exact hadd
  | some n =>
    simp only [ArgHead.record, hv, Option.getD_some]
    exact hadd

/-- The second part of an effective address, if there is one. -/
inductive EaSpelled (as : AssemblerCtx) (isMemRb isSizeOp : Bool) (rest : List Token) : Option EaPart → List Token → Prop
  | none (h : isMemRb = true → firstKind rest ≠ .tokComma) : EaSpelled as isMemRb isSizeOp rest none []
  | some {e : EaPart} {toks : List Token} (hmem : isMemRb = true) (hd : e.Defined as) (hs : e.Spelled isSizeOp toks) :
      EaSpelled as isMemRb isSizeOp rest (some e) toks

theorem parseEa_reads {isMemRb : Bool} {ea : Option EaPart} (h : EaSpelled as isMemRb isSizeOp rest ea toks)
    (htoks : as.itp.toks = toks ++ rest) :
    ∃ as', (parseEa instr isMemRb isSizeOp pos tok).Returns as (instr.withEa as ea) as' ∧ Reads as as' toks [] := by
  cases h with
  | none h =>
    obtain ⟨mid, hcomma, hr⟩ := acceptIf_reads (.none : Optional .tokComma _ _) htoks nofun fun _ => h
    exact ⟨mid, returns_bind.mpr ⟨_, _, hcomma, returns_pure.mpr ⟨rfl, rfl⟩⟩, hr⟩
  | @some e _ hmem hd hs =>
    cases hs with
    | @int isNeg comma num sign n hc hs hk hv =>
      obtain ⟨as1, hcomma, hr1⟩ := acceptIf_reads (.some hc) htoks (fun _ => hmem) nofun
      have htoks1 : as1.itp.toks = sign ++ (num :: rest) := by
        rw [hr1.left htoks]
        exact List.append_assoc sign [num] rest
      obtain ⟨as2, hsign, hr2, -⟩ := parseSign_reads hs htoks1 fun _ => by
        rw [show firstKind (num :: rest) = _ from hk]
        decide
      obtain ⟨as3, hnum, hr3⟩ := advance_reads (hr2.left htoks1) (by rw [hk]; decide) (by rw [hk]; decide)
      have hpart : (parseEaPart instr isSizeOp pos as1.curr tok isNeg num).Returns as3
          { instr with ims := .integerSize n, ii := addSigned instr.ii n isNeg } as3 := by
        rw [parseEaPart, hk]
        exact returns_bind.mpr ⟨n, _, tokenGet_returns.mpr ⟨hv, rfl⟩, returns_pure.mpr ⟨rfl, rfl⟩⟩
      refine ⟨as3, returns_bind.mpr ⟨_, _, hcomma, ?_⟩, by simpa using (hr1.trans hr2).trans hr3⟩
      exact returns_bind.mpr ⟨_, _, hsign, returns_bind.mpr ⟨_, _, hnum, returns_bind.mpr ⟨_, _, hpart, returns_pure.mpr ⟨rfl, rfl⟩⟩⟩⟩
    | @symbol comma sym hc hk =>
      obtain ⟨as1, hcomma, hr1⟩ := acceptIf_reads (.some hc) htoks (fun _ => hmem) nofun
      have htoks1 : as1.itp.toks = sym :: rest := hr1.left htoks
      obtain ⟨as2, hsign, hr2, hplain⟩ := @parseSign_reads as1 [] (sym :: rest) false .none htoks1 fun _ => by
        rw [show firstKind (sym :: rest) = _ from hk]
        decide
      obtain ⟨as3, hsym, hr3⟩ := advance_reads (hr2.left htoks1) (by rw [hk]; decide) (by rw [hk]; decide)
      have hall := (hr1.trans hr2).trans hr3
      obtain ⟨v, hv⟩ := Option.isSome_iff_exists.mp (show (as.eaValue? isSizeOp sym.range).isSome from hd)
      have hpart : (parseEaPart instr isSizeOp pos as1.curr tok false sym).Returns as3
          { instr with ims := .quad, ii := instr.ii + v.setWidth 64 } as3 := by
        rw [parseEaPart, hk]
        refine returns_bind.mpr ⟨(), _, failIf_returns.mpr ⟨hplain rfl, rfl⟩, ?_⟩
        exact returns_bind.mpr ⟨v, _, eaValue_reads (hall.eaValue?.trans hv), returns_pure.mpr ⟨rfl, rfl⟩⟩
      refine ⟨as3, returns_bind.mpr ⟨_, _, hcomma, ?_⟩, by simpa using hall⟩
      refine returns_bind.mpr ⟨_, _, hsign, returns_bind.mpr ⟨_, _, hsym, returns_bind.mpr ⟨_, _, hpart, returns_pure.mpr ⟨?_, rfl⟩⟩⟩⟩
      rw [Instruction.withEa, EaPart.record, hv, Option.getD_some]

theorem EaSpelled.of_reads {isMemRb : Bool} {ea : Option EaPart} {toks' : List Token} (h : EaSpelled as isMemRb isSizeOp rest ea toks')
    (hr : Reads as as' toks patches) : EaSpelled as' isMemRb isSizeOp rest ea toks' := by
  cases h with
  | none h => exact .none h
  | some hmem hd hs => exact .some hmem (hr.eaDefined_of hd) hs

theorem parseOperand_name {isMemRb : Bool} {reg : Register} {instr' : Instruction} {mid : AssemblerCtx} {ea : Option EaPart}
    (hk : tok.kind = .tokIdentifier)
    (h : (parseName instr isSizeOp as.instructions.length sign tok).Returns as (reg, instr') mid)
    (hr : Reads as mid toks patches) (hea : EaSpelled as isMemRb isSizeOp rest ea toks')
    (htoks : as.itp.toks = toks ++ (toks' ++ rest)) :
    ∃ as', (parseOperand instr isMemRb isSizeOp isNeg sign tok).Returns as (reg, instr'.withEa as ea) as' ∧
      Reads as as' (toks ++ toks') patches := by
  obtain ⟨as', hparse, hr'⟩ := parseEa_reads (hea.of_reads hr) (hr.left htoks)
  have hall := hr.trans hr'
  rw [List.append_nil] at hall
  refine ⟨as', returns_bind.mpr ⟨as, as, returns_get.mpr ⟨rfl, rfl⟩, ?_⟩, hall⟩
  rw [if_pos hk, ← hr.withEa]
  exact returns_bind.mpr ⟨_, _, h, returns_bind.mpr ⟨_, _, hparse, returns_pure.mpr ⟨rfl, rfl⟩⟩⟩

theorem parseOperand_literal {head : ArgHead} {isMemRb : Bool} (hk : tok.kind ≠ .tokIdentifier)
    (h : (parseLiteral instr isNeg tok).Returns as (head.record as instr) as) (hreg : head.register = .r0) :
    (parseOperand instr isMemRb isSizeOp isNeg sign tok).Returns as (head.register, head.record as instr) as := by
  refine returns_bind.mpr ⟨as, as, returns_get.mpr ⟨rfl, rfl⟩, ?_⟩
  rw [if_neg hk, hreg]
  exact returns_bind.mpr ⟨_, _, h, returns_pure.mpr ⟨rfl, rfl⟩⟩

/-- What stands between the brackets is read by its parts: a sign, a `#`, a token and what follows that. -/
theorem exists_parseOperand {head : ArgHead} (hs : head.Spelled toks) :
    ∃ (isNeg isSizeOp : Bool) (signs hash subs : List Token) (tok : Token), toks = signs ++ hash ++ tok :: subs ∧
      Signed isNeg signs ∧ Optional .tokHash isSizeOp hash ∧ tok.kind ∈ [.tokIdentifier, .tokChar, .tokInteger] ∧
      ∀ {as : AssemblerCtx} {instr : Instruction} {isMemRb : Bool} {ea : Option EaPart} {eas rest : List Token} {sign : Token},
        head.Defined as → head.EndsBefore as (eas ++ rest) → EaSpelled as isMemRb head.isSizeOp rest ea eas →
        (ea.isSome → head.isName = true) → as.itp.toks = subs ++ (eas ++ rest) →
        (signs = [] → ¬(sign.kind = .tokPlus ∨ sign.kind = .tokMinus)) →
        ∃ as', (parseOperand instr isMemRb isSizeOp isNeg sign tok).Returns as
            (head.register, (head.record as instr).withEa as ea) as' ∧ Reads as as' (subs ++ eas) (head.pending as) := by
  cases hs with
  | @reg tok r h hr =>
    refine ⟨false, false, [], [], [], tok, rfl, .none, .none, by simp [h], ?_⟩
    intro as instr isMemRb ea eas rest sign hd hends hea _ htoks hsign
    refine parseOperand_name h (returns_bind.mpr ⟨(), as, failIf_returns.mpr ⟨hsign rfl, rfl⟩, ?_⟩) .refl hea htoks
    rw [hr]
    refine returns_bind.mpr ⟨as, as, returns_get.mpr ⟨rfl, rfl⟩, ?_⟩
    exact returns_bind.mpr ⟨(), as, failIf_returns.mpr ⟨Bool.false_ne_true, rfl⟩, returns_pure.mpr ⟨rfl, rfl⟩⟩
  | @symbol isSizeOp hash subs tok sub hhash h hr hsub =>
    refine ⟨false, isSizeOp, [], hash, subs, tok, rfl, .none, hhash, by simp [h], ?_⟩
    intro as instr isMemRb ea eas rest sign hd hends hea _ htoks hsign
    obtain ⟨mid, hsym, hreads⟩ := @parseSymbol_reads as _ _ isSizeOp tok instr _ _ hsub htoks hd hends rfl
    refine parseOperand_name h (returns_bind.mpr ⟨(), as, failIf_returns.mpr ⟨hsign rfl, rfl⟩, ?_⟩) hreads hea htoks
    rw [hr]
    exact returns_bind.mpr ⟨_, _, hsym, returns_pure.mpr ⟨rfl, rfl⟩⟩
  | @char isNeg isHash sign hash tok c hs hhash h hv =>
    refine ⟨isNeg, isHash, sign, hash, [], tok, rfl, hs, hhash, by simp [h], ?_⟩
    intro as instr isMemRb ea eas rest sign' hd hends hea hident htoks _
    cases hea with
    | some => exact absurd (hident rfl) Bool.false_ne_true
    | none =>
      refine ⟨as, parseOperand_literal (by rw [h]; decide) ?_ rfl, .refl⟩
      rw [parseLiteral, h]
      exact returns_bind.mpr ⟨c, as, tokenGet_returns.mpr ⟨hv, rfl⟩, returns_pure.mpr ⟨rfl, rfl⟩⟩
  | @int isNeg isHash sign hash tok n hs hhash h hv =>
    refine ⟨isNeg, isHash, sign, hash, [], tok, rfl, hs, hhash, by simp [h], ?_⟩
    intro as instr isMemRb ea eas rest sign' hd hends hea hident htoks _
    cases hea with
    | some => exact absurd (hident rfl) Bool.false_ne_true
    | none =>
      refine ⟨as, parseOperand_literal (by rw [h]; decide) ?_ rfl, .refl⟩
      rw [parseLiteral, h]
      exact returns_bind.mpr ⟨n, as, tokenGet_returns.mpr ⟨hv, rfl⟩, returns_pure.mpr ⟨rfl, rfl⟩⟩

/-! ### Arguments -/

theorem firstKind_optional {hash : List Token} (hh : Optional .tokHash isSizeOp hash)
    (hk : tok.kind ∈ [.tokIdentifier, .tokChar, .tokInteger]) :
    firstKind (hash ++ tok :: rest) ∈ [.tokHash, .tokIdentifier, .tokChar, .tokInteger] := by
  cases hh with
  | none => exact List.mem_cons_of_mem _ hk
  | some h => exact List.mem_cons.mpr (.inl h)

theorem firstKind_signed {signs : List Token} (hs : Signed isNeg signs)
    (hk : firstKind rest ∈ [.tokHash, .tokIdentifier, .tokChar, .tokInteger]) :
    firstKind (signs ++ rest) ∈ [.tokPlus, .tokMinus, .tokHash, .tokIdentifier, .tokChar, .tokInteger] := by
  cases hs with
  | none => exact List.mem_cons_of_mem _ (List.mem_cons_of_mem _ hk)
  | plus h => exact List.mem_cons.mpr (.inl h)
  | minus h => exact List.mem_cons_of_mem _ (List.mem_cons.mpr (.inl h))

theorem not_mem_of_disjoint {kinds kinds' : List TokenKind} {kind : TokenKind} (h : kind ∈ kinds)
    (hdisj : kinds.all (!kinds'.contains ·) = true) : kind ∉ kinds' := by
  have hall := List.all_eq_true.mp hdisj kind h
  simpa using hall

theorem closeBracket_reads (hopt : Optional .tokRBracket isMem toks) (htoks : as.itp.toks = toks ++ rest) :
    ∃ as', (closeBracket isMem).Returns as () as' ∧ Reads as as' toks [] := by
  cases hopt with
  | none => exact ⟨as, returns_pure.mpr ⟨rfl, rfl⟩, .refl⟩
  | some hk =>
    obtain ⟨as', hc, hr⟩ := consume_reads htoks hk
    exact ⟨as', returns_bind.mpr ⟨_, _, hc _, returns_pure.mpr ⟨rfl, rfl⟩⟩, hr⟩

theorem check_of_first {kinds : List TokenKind} (h : firstKind as.itp.toks ∈ kinds) (hne : TokenKind.tokEoF ∉ kinds)
    (hne' : TokenKind.tokCOUNT ∉ kinds) : as.itp.check kinds = true := by
  rw [← as.curr_kind] at h
  simp only [ITokenParser.check, ITokenParser.eof, Bool.and_eq_true, Bool.not_eq_true', decide_eq_false_iff_not,
    List.contains_iff_mem, not_or]
  exact ⟨⟨fun he => hne (he ▸ h), fun he => hne' (he ▸ h)⟩, h⟩

/-- An argument is read by its parts. -/
theorem parseInstructionArg_parts {isRb : Bool} {arg : Arg} {lbs heads eas rbs : List Token} (hl : Optional .tokLBracket arg.isMem lbs)
    (hs : arg.head.Spelled heads) (hea : EaSpelled as (arg.isMem && isRb) arg.head.isSizeOp (rbs ++ rest) arg.ea eas)
    (hr : Optional .tokRBracket arg.isMem rbs) (hd : arg.head.Defined as) (hends : arg.head.EndsBefore as (eas ++ (rbs ++ rest)))
    (hname : arg.ea.isSome → arg.head.isName = true) (htoks : as.itp.toks = lbs ++ (heads ++ (eas ++ (rbs ++ rest)))) :
    ∃ as', (parseInstructionArg instr isRb).Returns as (arg.isMem, arg.head.register, arg.record as instr) as' ∧
      Reads as as' (lbs ++ heads ++ eas ++ rbs) (arg.head.pending as) := by
  obtain ⟨isNeg, isHash, signs, hash, subs, tok, rfl, hsigns, hhash, hkind, hop⟩ := exists_parseOperand hs
  simp only [List.append_assoc, List.cons_append] at htoks
  have hfirst := @firstKind_optional (subs ++ (eas ++ (rbs ++ rest))) isHash tok hash hhash hkind
  obtain ⟨as1, hmem, hr1⟩ := accept_reads hl htoks fun _ heq =>
    absurd heq (ne_of_mem_of_not_mem (firstKind_signed hsigns hfirst) (by decide))
  have htoks1 := hr1.left htoks
  obtain ⟨as2, hsign, hr2, hplain⟩ := parseSign_reads hsigns htoks1 fun _ => not_mem_of_disjoint hfirst (by decide)
  have htoks2 := hr2.left htoks1
  obtain ⟨as3, hhashes, hr3⟩ := accept_reads hhash htoks2 fun _ heq =>
    absurd heq (ne_of_mem_of_not_mem hkind (by decide))
  have htoks3 := hr3.left htoks2
  have hcheck : as2.itp.check [.tokInteger, .tokChar, .tokFloat, .tokIdentifier, .tokHash] = true := by
    refine check_of_first ?_ (by decide) (by decide)
    rw [htoks2]
    exact List.Subset.trans (fun _ h => h) (by decide) hfirst
  obtain ⟨as4, hadv, hr4⟩ := advance_reads htoks3 (ne_of_mem_of_not_mem hkind (by decide))
    (ne_of_mem_of_not_mem hkind (by decide))
  have hread := ((hr1.trans hr2).trans hr3).trans hr4
  obtain ⟨as5, hoperand, hr5⟩ := @hop as4 instr (arg.isMem && isRb) arg.ea eas (rbs ++ rest) as1.curr (hread.headDefined_of hd)
    (hread.endsBefore hends) (hea.of_reads hread) hname (hr4.left htoks3) hplain
  have htoks5 : as5.itp.toks = rbs ++ rest := hr5.left (by rw [List.append_assoc]; exact hr4.left htoks3)
  obtain ⟨as6, hclose, hr6⟩ := closeBracket_reads hr htoks5
  have hall := (hread.trans hr5).trans hr6
  refine ⟨as6, ?_, ?_⟩
  · rw [hread.headRecord, hread.withEa] at hoperand
    refine returns_bind.mpr ⟨_, _, hmem, returns_bind.mpr ⟨_, _, hsign, returns_bind.mpr ⟨as2, as2, returns_get.mpr ⟨rfl, rfl⟩, ?_⟩⟩⟩
    refine returns_bind.mpr ⟨(), as2, failIf_returns.mpr ⟨not_not_intro hcheck, rfl⟩, ?_⟩
    refine returns_bind.mpr ⟨_, _, hhashes, returns_bind.mpr ⟨_, _, hadv, returns_bind.mpr ⟨_, _, hoperand, ?_⟩⟩⟩
    exact returns_bind.mpr ⟨_, _, hclose, returns_pure.mpr ⟨rfl, rfl⟩⟩
  · simpa [hread.headPending] using hall

/-- An argument that is written by the rules is read as it is written. -/
theorem parseInstructionArg_reads {isRb : Bool} {arg : Arg} (hs : arg.Spelled toks) (h : arg.Readable as rest isRb)
    (htoks : as.itp.toks = toks ++ rest) :
    ∃ as', (parseInstructionArg instr isRb).Returns as (arg.isMem, arg.head.register, arg.record as instr) as' ∧
      Reads as as' toks (arg.head.pending as) := by
  cases hs with
  | @bare head _ hhead =>
    have hea : EaSpelled as (false && isRb) head.isSizeOp ([] ++ rest) none [] := .none nofun
    obtain ⟨as', hparse, hr⟩ := @parseInstructionArg_parts as rest instr isRb ⟨false, head, none⟩ _ _ _ _ .none hhead hea .none
      h.defined.head (h.ends rfl) nofun htoks
    exact ⟨as', hparse, by simpa using hr⟩
  | @mem head lb rb inner hl hhead hr =>
    have hea : EaSpelled as (true && isRb) head.isSizeOp ([rb] ++ rest) none [] :=
      .none fun _ hc => absurd (hr.symm.trans hc) (by decide)
    have hends : head.EndsBefore as ([] ++ ([rb] ++ rest)) := ArgHead.endsBefore_of_first (by simp [firstKind, hr])
    obtain ⟨as', hparse, hreads⟩ := @parseInstructionArg_parts as rest instr isRb ⟨true, head, none⟩ _ _ _ _ (.some hl) hhead hea
      (.some hr) h.defined.head hends nofun (by simpa using htoks)
    exact ⟨as', hparse, by simpa using hreads⟩
  | @ea head e lb rb inner eas hl hhead he hr =>
    obtain ⟨hrb, hname⟩ := h.ea rfl
    have hea : EaSpelled as (true && isRb) head.isSizeOp ([rb] ++ rest) (some e) eas := .some hrb (h.defined.ea e rfl) he
    have hends : head.EndsBefore as (eas ++ ([rb] ++ rest)) := by
      refine ArgHead.endsBefore_of_first ?_
      cases he with
      | int hc => simp [firstKind, hc]
      | symbol hc => simp [firstKind, hc]
    obtain ⟨as', hparse, hreads⟩ := @parseInstructionArg_parts as rest instr isRb ⟨true, head, some e⟩ _ _ _ _ (.some hl) hhead hea
      (.some hr) h.defined.head hends (fun _ => hname) (by simpa using htoks)
    exact ⟨as', hparse, by simpa using hreads⟩

/-- The kinds of tokens that an argument begins with. -/
def argKinds : List TokenKind := [.tokLBracket, .tokPlus, .tokMinus, .tokHash, .tokIdentifier, .tokChar, .tokInteger]

theorem firstKind_arg {arg : Arg} (hs : arg.Spelled toks) : firstKind (toks ++ rest) ∈ argKinds := by
  have hhead {head : ArgHead} {toks : List Token} (h : head.Spelled toks) : firstKind (toks ++ rest) ∈ argKinds := by
    obtain ⟨isNeg, isHash, signs, hash, subs, tok, rfl, hsigns, hhash, hkind, -⟩ := exists_parseOperand h
    simp only [List.append_assoc, List.cons_append]
    exact List.mem_cons_of_mem _ (firstKind_signed hsigns (firstKind_optional hhash hkind))
  cases hs with
  | bare h => exact hhead h
  | mem hl => exact List.mem_cons.mpr (.inl hl)
  | ea hl => exact List.mem_cons.mpr (.inl hl)

theorem parseFirstArg_reads {nargs : Nat} {arg : Arg} (hn : 1 ≤ nargs) (hs : arg.Spelled toks) (h : arg.Readable as rest false)
    (htoks : as.itp.toks = toks ++ rest) :
    ∃ as', (parseFirstArg nargs instr).Returns as (arg.first as instr) as' ∧ Reads as as' toks (arg.head.pending as) := by
  obtain ⟨as', hparse, hr⟩ := @parseInstructionArg_reads _ _ _ instr _ _ hs h htoks
  refine ⟨as', ?_, hr⟩
  rw [parseFirstArg, if_pos hn]
  exact returns_bind.mpr ⟨_, _, hparse, returns_pure.mpr ⟨rfl, rfl⟩⟩

theorem parseSecondArg_reads {arg : Arg} (hs : arg.Spelled toks) (h : arg.Readable as rest true) (htoks : as.itp.toks = toks ++ rest) :
    ∃ as', (parseSecondArg 2 instr).Returns as (arg.second as instr) as' ∧ Reads as as' toks (arg.head.pending as) := by
  obtain ⟨as', hparse, hr⟩ := @parseInstructionArg_reads _ _ _ instr _ _ hs h htoks
  refine ⟨as', ?_, hr⟩
  rw [parseSecondArg, if_pos rfl]
  exact returns_bind.mpr ⟨_, _, hparse, returns_pure.mpr ⟨rfl, rfl⟩⟩

end AsmM

end Cyntatic
