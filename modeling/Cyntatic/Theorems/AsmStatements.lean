import Cyntatic.Theorems.AsmData

/-! # Statements

What one statement of a program changes. -/

namespace Cyntatic
open Library

/-! ### One statement -/

inductive Stmt where
  | skip
  | label (range : Range)
  | var (range : Range) (init : Initializer)
  | instr (src : SourceInstr)

/-- The name of the entry point. -/
def mainName : List U8 := ascii ['m', 'a', 'i', 'n']

namespace AssemblerCtx

/-- The symbol of a label. -/
def labelSymbol (as : AssemblerCtx) (range : Range) : Symbol :=
  { id := BitVec.ofNat 64 as.instructions.length, tag := .label, name := range.view, range := range }

/-- What `main` is after a label. -/
def labelMain (as : AssemblerCtx) (range : Range) : U32 :=
  if range.view <+: mainName then BitVec.ofNat 32 as.instructions.length else as.main

/-- The symbol of a variable, before its size is known. -/
def varSymbol (as : AssemblerCtx) (range : Range) : Symbol :=
  { id := BitVec.ofNat 64 (as.constants.length + AsmM.headerSize), tag := .var, name := range.view, range := range }

end AssemblerCtx

/-- What a statement does, and the tokens that it is made of. -/
inductive StmtStep (as : AssemblerCtx) : Stmt → List Token → AssemblerCtx → Prop
  | skip {tok : Token} {as' : AssemblerCtx} (hk : tok.kind = .tokNl ∨ tok.kind = .tokComment)
      (hr : Reads as as' [tok] []) : StmtStep as .skip [tok] as'
  | label {tok colon : Token} {mid as' : AssemblerCtx} (hk : tok.kind = .tokIdentifier) (hc : colon.kind = .tokColon)
      (hnew : as.findSymbol tok.text = none) (hr : Reads as mid [tok, colon] [])
      (has : as' = { mid with symbols := as.symbols ++ [as.labelSymbol tok.range], main := as.labelMain tok.range }) :
      StmtStep as (.label tok.range) [tok, colon] as'
  | var {dollar tok assign : Token} {toks : List Token} {mid as' : AssemblerCtx} {init : Initializer} {bs : List U8}
      (hd : dollar.kind = .tokDollar) (hk : tok.kind = .tokIdentifier) (ha : assign.kind = .tokAssign)
      (hnew : as.findSymbol tok.text = none) (hr : Reads as mid [dollar, tok, assign] [])
      (htoks : mid.itp.toks = toks ++ as'.itp.toks) (hinit : init.Spelled toks) (hdata : init.Encodes bs)
      (has : as' = { as with
        itp := as'.itp
        constants := as.constants ++ bs
        symbols := as.symbols ++ [{ as.varSymbol tok.range with size := BitVec.ofNat 32 bs.length }] }) :
      StmtStep as (.var tok.range init) ([dollar, tok, assign] ++ toks) as'
  | instr {src : SourceInstr} {toks : List Token} {mid as' : AssemblerCtx} (hs : src.Spelled toks) (hd : src.Defined as)
      (hr : Reads as mid toks (src.pending as)) (hlink : (src.record as).Linkable)
      (hlen : as.instructions.length + 1 < 2 ^ 31)
      (has : as' = { mid with instructions := as.instructions ++ [src.record as] }) : StmtStep as (.instr src) toks as'

namespace AsmM
open Prog

variable {as as' : AssemblerCtx} {u : Unit}

theorem addSymbol_returns {pos : Nat} {tag : SymbolTag} {range : Range} (h : (addSymbol pos tag range).Returns as u as') :
    as.findSymbol range.view = none ∧ as' = { as with
      symbols := as.symbols ++ [{ id := BitVec.ofNat 64 pos, tag := tag, name := range.view, range := range }] } := by
  simp only [addSymbol, returns_bind, returns_get, failIf_returns, returns_modify] at h
  obtain ⟨_, _, ⟨rfl, rfl⟩, _, _, ⟨hnew, rfl⟩, rfl⟩ := h
  exact ⟨by simpa using hnew, rfl⟩

theorem parseLabel_returns (h : parseLabel.Returns as u as') : ∃ stmt toks, StmtStep as stmt toks as' := by
  simp only [parseLabel, returns_bind, returns_get, failIf_returns, returns_modify] at h
  obtain ⟨tok, mid, htok, colon, _, hcolon, _, _, ⟨rfl, rfl⟩, _, mid', ⟨-, rfl⟩, _, _, hadd, rfl⟩ := h
  obtain ⟨hk, hr⟩ := consume_returns htok
  obtain ⟨hc, hr'⟩ := consume_returns hcolon
  obtain ⟨hnew, rfl⟩ := addSymbol_returns hadd
  have hread := hr.trans hr'
  refine ⟨_, _, .label hk hc ?_ hread ?_⟩
  · rw [AssemblerCtx.findSymbol, hread.symbols] at hnew
    exact hnew
  · have hmain := congrArg AssemblerCtx.main hread.rest
    rw [← hread.symbols, AssemblerCtx.labelSymbol, AssemblerCtx.labelMain, ← hread.instructions]
    by_cases hname : tok.range.view <+: mainName
    · rw [if_pos hname]
      exact if_pos hname
    · rw [if_neg hname, ← hmain]
      exact if_neg hname

/-- The size of the last symbol is set, when no other has its name. -/
theorem map_setSize {symbols : List Symbol} {new : Symbol} {name : List U8} {size : U32}
    (hnew : symbols.find? (·.name = name) = none) (hname : new.name = name) :
    (symbols ++ [new]).map (fun sym => if sym.name = name then { sym with size := size } else sym) =
      symbols ++ [{ new with size := size }] := by
  rw [List.map_append, List.map_singleton, if_pos hname]
  congr 1
  conv_rhs => rw [← List.map_id symbols]
  refine List.map_congr_left fun sym hsym => if_neg ?_
  simpa using List.find?_eq_none.mp hnew sym hsym

theorem parseVarDecl_returns (hk : as.curr.kind = .tokDollar) (h : parseVarDecl.Returns as u as') (herr : as'.errors ≤ as.errors) :
    ∃ stmt toks, StmtStep as stmt toks as' := by
  simp only [parseVarDecl, returns_bind, advance_returns, returns_get, returns_modify] at h
  obtain ⟨_, _, ⟨-, rfl⟩, tok, mid, htok, assign, mid', hassign, _, _, ⟨rfl, rfl⟩, _, _, hadd, size, mid'', hinit, rfl⟩ := h
  obtain ⟨hname, hr⟩ := consume_returns htok
  obtain ⟨heq, hr'⟩ := consume_returns hassign
  obtain ⟨hnew, rfl⟩ := addSymbol_returns hadd
  have hread := ((reads_curr (by rw [hk]; decide) (by rw [hk]; decide)).trans hr).trans hr'
  obtain ⟨init, toks, bs, hspelled, hdata, hadds, rfl⟩ := parseInitializer_returns hinit (herr.trans (Nat.le_of_eq hread.errors.symm))
  rw [AssemblerCtx.findSymbol, hread.symbols] at hnew
  refine ⟨.var tok.range init, _, .var hk hname heq hnew hread hadds.toks hspelled hdata ?_⟩
  rw [hadds.rest, hread.rest_of_nil]
  simp only [AssemblerCtx.mk.injEq, true_and, and_true]
  exact map_setSize hnew rfl

theorem parseStatement_returns (h : parseStatement.Returns as u as') (herr : as'.errors = as.errors) :
    ∃ stmt toks, StmtStep as stmt toks as' := by
  obtain ⟨_, s, hget, hbody⟩ := returns_bind.mp h
  obtain ⟨rfl, rfl⟩ := returns_get.mp hget
  split at hbody
  · rename_i hk
    split at hbody
    · exact parseLabel_returns hbody
    · obtain ⟨hlen, ins, hlink, -, hins⟩ := parseInstruction_returns hbody
      rcases hins hk with hlt | ⟨src, toks, mid, hs, hd, rfl, hr, has⟩
      · omega
      · exact ⟨_, _, .instr hs hd hr hlink hlen (hr.instructions ▸ has)⟩
  · rename_i hk
    exact parseVarDecl_returns hk hbody (Nat.le_of_eq herr)
  · rename_i hk
    simp only [returns_bind, advance_returns, returns_pure] at hbody
    obtain ⟨_, _, ⟨-, rfl⟩, -, rfl⟩ := hbody
    exact ⟨_, _, .skip (.inl hk) (reads_curr (by rw [hk]; decide) (by rw [hk]; decide))⟩
  · rename_i hk
    simp only [returns_bind, advance_returns, returns_pure] at hbody
    obtain ⟨_, _, ⟨-, rfl⟩, -, rfl⟩ := hbody
    exact ⟨_, _, .skip (.inr hk) (reads_curr (by rw [hk]; decide) (by rw [hk]; decide))⟩
  · exact absurd hbody fail_returns

end AsmM

end Cyntatic
