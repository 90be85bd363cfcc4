import Cyntatic.Theorems.AsmLink

/-! # The data section

Where the variables of a program are in the image, and what is there. -/

namespace Cyntatic
open Library

/-- The variable of a statement. -/
def Stmt.var? : Stmt → Option (Range × Initializer)
  | .var range init => some (range, init)
  | _ => none

/-- The variables of a program. -/
def varsOf (prog : List Stmt) : List (Range × Initializer) := prog.filterMap Stmt.var?

/-- The symbol of a variable, whose data is at an offset in the constants. -/
def VarAt (as : AssemblerCtx) (name : List U8) (off size : Nat) : Prop :=
  ∃ sym, as.findSymbol name = some sym ∧ sym.tag = .var ∧ sym.id = BitVec.ofNat 64 (AsmM.headerSize + off) ∧
    sym.size = BitVec.ofNat 32 size

/-- The data of the variables of a program, one block after another. -/
structure DataOf (prog : List Stmt) (blocks : List (List U8)) (as : AssemblerCtx) : Prop where
  encodes : List.Forall₂ (fun var bs => var.2.Encodes bs) (varsOf prog) blocks
  constants : as.constants = blocks.flatten
  symbols : ∀ i var bs, (varsOf prog)[i]? = some var → blocks[i]? = some bs →
    VarAt as var.1.view (offset (blocks.map List.length) i) bs.length

namespace DataOf
variable {prog : List Stmt} {blocks : List (List U8)} {as as' : AssemblerCtx} {stmt : Stmt} {toks : List Token}

/-- A statement that is no variable. -/
theorem other (h : DataOf prog blocks as) (hstmt : stmt.var? = none) (hconst : as'.constants = as.constants)
    (hkeep : ∀ name sym, as.findSymbol name = some sym → as'.findSymbol name = some sym) : DataOf (prog ++ [stmt]) blocks as' := by
  have hvars : varsOf (prog ++ [stmt]) = varsOf prog := by
    rw [varsOf, List.filterMap_append, List.filterMap_cons_none hstmt, List.filterMap_nil, List.append_nil]
    rfl
  refine ⟨hvars ▸ h.encodes, hconst.trans h.constants, fun i var bs hvar hbs => ?_⟩
  rw [hvars] at hvar
  obtain ⟨sym, hfind, hrest⟩ := h.symbols i var bs hvar hbs
  exact ⟨sym, hkeep _ sym hfind, hrest⟩

theorem step (h : DataOf prog blocks as) (hs : StmtStep as stmt toks as') : ∃ blocks', DataOf (prog ++ [stmt]) blocks' as' := by
  cases hs with
  | skip hk hr =>
    refine ⟨blocks, h.other rfl (by rw [hr.rest]) fun name sym hfind => ?_⟩
    rwa [AssemblerCtx.findSymbol, hr.symbols]
  | instr hs hd hr hlink hlen has =>
    refine ⟨blocks, h.other rfl (by rw [has, hr.rest]) fun name sym hfind => ?_⟩
    rwa [has, AssemblerCtx.findSymbol, hr.symbols]
  | label hk hc hnew hr has =>
    refine ⟨blocks, h.other rfl (by rw [has, hr.rest]) fun name sym hfind => ?_⟩
    rename_i tok colon mid
    have hsym : as'.symbols = as.symbols ++ [as.labelSymbol tok.range] := by rw [has]
    rw [findSymbol_append hsym, hfind, Option.some_or]
  | @var dollar tok assign toks mid _ init bs hd hk ha hnew hr htoks hinit hdata has =>
    have hsym : as'.symbols = as.symbols ++ [{ as.varSymbol tok.range with size := BitVec.ofNat 32 bs.length }] := by rw [has]
    have hconst : as'.constants = as.constants ++ bs := by rw [has]
    have hvars : varsOf (prog ++ [.var tok.range init]) = varsOf prog ++ [(tok.range, init)] := List.filterMap_append
    have hlen := h.encodes.length_eq
    have hsum : (blocks.map List.length).sum = as.constants.length := by rw [h.constants, List.length_flatten]
    refine ⟨blocks ++ [bs], ⟨?_, ?_, fun i var bs' hvar hbs => ?_⟩⟩
    · rw [hvars]
      exact List.rel_append h.encodes (.cons hdata .nil)
    · rw [hconst, h.constants, List.flatten_append, List.flatten_singleton]
    · rw [hvars] at hvar
      rw [List.map_append]
      rcases Nat.lt_or_ge i blocks.length with hlt | hge
      · rw [List.getElem?_append_left (hlen ▸ hlt)] at hvar
        rw [List.getElem?_append_left hlt] at hbs
        obtain ⟨sym, hfind, hrest⟩ := h.symbols i var bs' hvar hbs
        rw [offset_append_of_le (by rw [List.length_map]; exact hlt.le)]
        exact ⟨sym, by rw [findSymbol_append hsym, hfind, Option.some_or], hrest⟩
      · -- The new variable begins where the data before it ends.
        rw [List.getElem?_append_right (hlen ▸ hge), List.getElem?_singleton] at hvar
        rw [List.getElem?_append_right hge, List.getElem?_singleton] at hbs
        split at hbs
        · rename_i hi
          obtain rfl : i = blocks.length := by omega
          obtain rfl := Option.some.inj hbs
          rw [if_pos (by omega)] at hvar
          obtain rfl := Option.some.inj hvar
          have hmap : blocks.length = (blocks.map List.length).length := (List.length_map _).symm
          rw [offset_append_of_le hmap.le, hmap, offset_length, hsum]
          refine ⟨{ as.varSymbol tok.range with size := BitVec.ofNat 32 bs.length }, ?_, rfl, ?_, rfl⟩
          · rw [findSymbol_append hsym, show as.findSymbol tok.range.view = none from hnew, Option.none_or]
            exact if_pos rfl
          · change BitVec.ofNat 64 (as.constants.length + AsmM.headerSize) = _
            rw [Nat.add_comm]
        · cases hbs

end DataOf

/-- The data of a program that was read. -/
theorem Steps.dataOf {as : AssemblerCtx} {stop : Range} {log : List Diagnostic} {uninit : Nat → U8} {toks toks' : List Token}
    {prog : List Stmt} (h : Steps (AssemblerCtx.init toks stop log uninit) prog toks' as) : ∃ blocks, DataOf prog blocks as := by
  induction h with
  | nil => exact ⟨[], .nil, rfl, fun i var bs hvar => by cases hvar⟩
  | snoc h hs ih =>
    obtain ⟨blocks, hlaid⟩ := ih
    exact hlaid.step hs

namespace AsmM

/-- In an image that begins with nothing, the data lies behind the header. -/
theorem link_data {as as' : AssemblerCtx} {code : Code} {n : Nat} (h : (link .empty).Returns as (n, code) as')
    (herr : as'.errors = 0) : headerSize + as.constants.length < 2 ^ 31 ∧
      code.db? = some (BitVec.ofNat 32 (headerSize + as.constants.length)) ∧
      ∃ head bs, head.length = headerSize ∧ code.bytes = head ++ as.constants ++ bs := by
  obtain ⟨refs, -, hemit⟩ := link_emits h herr
  obtain ⟨hdb, instrs, size, bs, -, -, -, hbytes⟩ := emitCode_bytes hemit
  have hlen : (codeBefore .empty as).length = headerSize + as.constants.length := by
    rw [codeBefore, List.length_append, List.length_append, List.length_map, List.length_range]
    exact congrArg (· + _) (Nat.zero_add _)
  have hdrop : (codeBefore .empty as).drop headerSize = as.constants := by
    refine List.drop_left' ?_
    rw [List.length_append, List.length_map, List.length_range]
    exact Nat.zero_add _
  rw [hlen, hdrop] at hbytes
  rw [hlen] at hdb
  refine ⟨hdb, db?_header (by rw [hbytes, List.append_assoc]), _, bs, ?_, hbytes⟩
  rw [codeHeader, List.length_append, List.length_append, length_leBytes, length_leBytes, length_leBytes]
  rfl

end AsmM

/-- A part of a list of blocks. -/
theorem flatten_block {α : Type} {blocks : List (List α)} {i : Nat} {bs : List α} (h : blocks[i]? = some bs) :
    ∃ pre post, blocks.flatten = pre ++ bs ++ post ∧ pre.length = offset (blocks.map List.length) i := by
  refine ⟨(blocks.take i).flatten, (blocks.drop (i + 1)).flatten, ?_, ?_⟩
  · conv_lhs => rw [← take_append_cons_drop h]
    rw [List.flatten_append, List.flatten_cons, List.append_assoc]
  · rw [List.length_flatten, List.map_take]
    rfl

/-- The data section of every program that is assembled without errors: every variable has its place behind the one
    before it, and what it is initialised with is there in the image. -/
theorem AsmM.assemble_lays_out_data {code : Code} {toks : List Token} {stop : Range} {log : List Diagnostic}
    {uninit : Nat → U8} {n : Nat} {as' : AssemblerCtx}
    (h : (assemble .empty).Returns (AssemblerCtx.init toks stop log uninit) (n, code) as') (herr : as'.errors = 0) :
    ∃ prog toks' as blocks, Steps (AssemblerCtx.init toks stop log uninit) prog toks' as ∧ as.itp.eof = true ∧
      List.Forall₂ (fun var bs => var.2.Encodes bs) (varsOf prog) blocks ∧
      headerSize + (blocks.map List.length).sum < 2 ^ 31 ∧
      code.db? = some (BitVec.ofNat 32 (headerSize + (blocks.map List.length).sum)) ∧
      (∀ i var bs, (varsOf prog)[i]? = some var → blocks[i]? = some bs →
        VarAt as var.1.view (offset (blocks.map List.length) i) bs.length ∧
        code.slice? (headerSize + offset (blocks.map List.length) i) bs.length = some bs) ∧
      ∀ i j bs, i < j → blocks[i]? = some bs →
        offset (blocks.map List.length) i + bs.length ≤ offset (blocks.map List.length) j := by
  obtain ⟨as, hparse, ⟨hne, -, rfl⟩ | ⟨hzero, hlink⟩⟩ := assemble_cases h
  · exact absurd herr hne
  · obtain ⟨prog, toks', lines, db, hsteps, heof, -, -⟩ := link_assembled hparse hzero hlink herr
    obtain ⟨blocks, hlaid⟩ := hsteps.dataOf
    obtain ⟨hlt, hdb, head, bs, hhead, hbytes⟩ := link_data hlink herr
    have hsum : as.constants.length = (blocks.map List.length).sum := by rw [hlaid.constants, List.length_flatten]
    rw [hsum] at hlt hdb
    refine ⟨prog, toks', as, blocks, hsteps, heof, hlaid.encodes, hlt, hdb, fun i var data hvar hdata => ?_, fun i j data hij hdata => ?_⟩
    · refine ⟨hlaid.symbols i var data hvar hdata, ?_⟩
      obtain ⟨pre, post, hflat, hpre⟩ := flatten_block hdata
      have hsplit : code.bytes = (head ++ pre) ++ data ++ (post ++ bs) := by
        rw [hbytes, hlaid.constants, hflat]
        simp only [List.append_assoc]
      have hslice := Code.slice?_append hsplit
      rwa [List.length_append, hhead, hpre] at hslice
    · refine offset_add_le_offset ?_ hij
      rw [List.getElem?_map, hdata]
      rfl

/-- `$a = 'x'`, and `$b = {1, 2}` after it -/
def twoVariables : List Token :=
  [wordToken .tokDollar ['$'], wordToken .tokIdentifier ['a'], wordToken .tokAssign ['='],
    wordToken .tokChar ['x'] (.char 0x78), wordToken .tokNl ['\n'], wordToken .tokDollar ['$'], wordToken .tokIdentifier ['b'],
    wordToken .tokAssign ['='], wordToken .tokLBrace ['\x7b'], wordToken .tokInteger ['1'] (.int 1), wordToken .tokComma [','],
    wordToken .tokInteger ['2'] (.int 2), wordToken .tokRBrace ['\x7d']]

theorem AsmM.assemble_lays_out_data_two :
    ∃ n code as', (assemble .empty).Returns (.init twoVariables endRange [] fun _ => 0) (n, code) as' ∧
      ∃ prog blocks, List.Forall₂ (fun var bs => Initializer.Encodes var.2 bs) (varsOf prog) blocks ∧
        code.db? = some (BitVec.ofNat 32 (headerSize + (blocks.map List.length).sum)) := by
  obtain ⟨⟨n, code⟩, as', h, herr⟩ := Prog.exists_of_passes (m := assemble .empty) (s := .init twoVariables endRange [] fun _ => 0)
    (p := fun _ as' => as'.errors == 0) (by decide +kernel)
  obtain ⟨prog, toks', as, blocks, -, -, hencodes, -, hdb, -⟩ := assemble_lays_out_data h (beq_iff_eq.mp herr)
  exact ⟨n, code, as', h, prog, blocks, hencodes, hdb⟩

end Cyntatic
