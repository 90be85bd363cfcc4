import Cyntatic.Theorems.AsmStatements

/-! # Passes over a program

What the loop of the assembler has collected when it is done. -/

namespace Cyntatic
open Library

/-- The statements of some tokens, one after another. -/
inductive Steps (as : AssemblerCtx) : List Stmt → List Token → AssemblerCtx → Prop
  | nil : Steps as [] [] as
  | snoc {prog : List Stmt} {stmt : Stmt} {toks toks' : List Token} {mid as' : AssemblerCtx} (h : Steps as prog toks mid)
      (hs : StmtStep mid stmt toks' as') : Steps as (prog ++ [stmt]) (toks ++ toks') as'

/-! ### What a program says -/

/-- The instruction of a statement. -/
def Stmt.instr? : Stmt → Option SourceInstr
  | .instr src => some src
  | _ => none

/-- The instructions of a program. -/
def instrsOf (prog : List Stmt) : List SourceInstr := prog.filterMap Stmt.instr?

/-- The number of instructions before a label. -/
def labelIndex : List Stmt → List U8 → Option Nat
  | [], _ => none
  | .label range :: prog, name => if range.view = name then some 0 else labelIndex prog name
  | .instr _ :: prog, name => (labelIndex prog name).map (· + 1)
  | _ :: prog, name => labelIndex prog name

theorem labelIndex_append (prog prog' : List Stmt) (name : List U8) :
    labelIndex (prog ++ prog') name =
      (labelIndex prog name).or ((labelIndex prog' name).map (· + (instrsOf prog).length)) := by
  induction prog with
  | nil => simp [labelIndex, instrsOf]
  | cons stmt prog ih =>
    cases stmt with
    | label range =>
      simp only [List.cons_append, labelIndex]
      split
      · rfl
      · exact ih
    | instr src =>
      simp only [List.cons_append, labelIndex, ih, instrsOf, List.filterMap_cons, Stmt.instr?, List.length_cons]
      cases labelIndex prog name <;> cases labelIndex prog' name <;> simp [Nat.add_assoc]
    | skip => exact ih
    | var => exact ih

theorem labelIndex_le {prog : List Stmt} {name : List U8} {k : Nat} (h : labelIndex prog name = some k) :
    k ≤ (instrsOf prog).length := by
  induction prog generalizing k with
  | nil => cases h
  | cons stmt prog ih =>
    cases stmt with
    | label range =>
      rw [labelIndex] at h
      split at h
      · cases h
        exact Nat.zero_le _
      · exact ih h
    | instr src =>
      obtain ⟨k', hk', rfl⟩ := Option.map_eq_some_iff.mp h
      exact Nat.succ_le_succ (ih hk')
    | skip => exact ih h
    | var => exact ih h

/-! ### Tokens -/

theorem StmtStep.toks {as as' : AssemblerCtx} {stmt : Stmt} {toks : List Token} (h : StmtStep as stmt toks as') :
    as.itp.toks = toks ++ as'.itp.toks ∧ toks ≠ [] := by
  cases h with
  | skip hk hr => exact ⟨hr.toks, nofun⟩
  | label hk hc hnew hr has => exact ⟨by rw [hr.toks, has], nofun⟩
  | var hd hk ha hnew hr htoks hinit hdata has => exact ⟨by rw [hr.toks, htoks, List.append_assoc], nofun⟩
  | instr hs hd hr hlink hlen has =>
    refine ⟨by rw [hr.toks, has], ?_⟩
    cases hs
    exact nofun

theorem Steps.toks {as as' : AssemblerCtx} {prog : List Stmt} {toks : List Token} (h : Steps as prog toks as') :
    as.itp.toks = toks ++ as'.itp.toks := by
  induction h with
  | nil => rfl
  | snoc h hs ih => rw [ih, hs.toks.1, List.append_assoc]

/-! ### What is collected -/

/-- An instruction of a program, with the state before it. -/
structure Line where
  src : SourceInstr
  ctx : AssemblerCtx

/-- The record of an instruction, as it is pushed. -/
def Line.record (line : Line) : Instruction := line.src.record line.ctx

/-- The references of an instruction that are left to the linker. -/
def Line.pending (line : Line) : List Patch := line.src.pending line.ctx

/-- The instructions of a program, and what the assembler has made of it. -/
structure Collected (prog : List Stmt) (lines : List Line) (as : AssemblerCtx) : Prop where
  instrs : instrsOf prog = lines.map Line.src
  records : as.instructions = lines.map Line.record
  len : as.instructions.length < 2 ^ 31
  spelled : ∀ line ∈ lines, ∃ toks, line.src.Spelled toks
  defined : ∀ line ∈ lines, line.src.Defined line.ctx
  linkable : ∀ line ∈ lines, line.record.Linkable
  symbols : ∀ line ∈ lines, line.ctx.symbols <+: as.symbols
  pos : ∀ j (line : Line), lines[j]? = some line → line.ctx.instructions.length = j
  patches : as.patchWork.Perm (lines.flatMap Line.pending)
  labelled : ∀ name k, labelIndex prog name = some k →
    ∃ sym, as.findSymbol name = some sym ∧ sym.tag = .label ∧ sym.id = BitVec.ofNat 64 k
  label : ∀ name sym, as.findSymbol name = some sym → sym.tag = .label → ∃ k, labelIndex prog name = some k

theorem findSymbol_append {as as' : AssemblerCtx} {new : Symbol} (h : as'.symbols = as.symbols ++ [new]) (name : List U8) :
    as'.findSymbol name = (as.findSymbol name).or (if new.name = name then some new else none) := by
  rw [AssemblerCtx.findSymbol, h, List.find?_append, List.find?_singleton]
  simp only [decide_eq_true_eq]
  rfl

theorem builtins_tag (sym : Symbol) (h : sym ∈ AssemblerCtx.builtins) : sym.tag = .define := by
  simp only [AssemblerCtx.builtins, List.mem_append, List.mem_cons, List.mem_map, List.not_mem_nil, or_false] at h
  rcases h with ((rfl | rfl) | ⟨_, _, rfl⟩) | rfl | rfl | rfl <;> rfl

namespace Collected
variable {prog : List Stmt} {lines : List Line} {as as' : AssemblerCtx} {stmt : Stmt} {toks : List Token}

theorem length_lines (h : Collected prog lines as) : lines.length = as.instructions.length := by
  rw [h.records, List.length_map]

theorem length_instrs (h : Collected prog lines as) : (instrsOf prog).length = as.instructions.length := by
  rw [h.instrs, List.length_map, h.length_lines]

/-- Nothing is known at the start. -/
theorem init {stop : Range} {log : List Diagnostic} {uninit : Nat → U8} :
    Collected [] [] (AssemblerCtx.init toks stop log uninit) where
  instrs := rfl
  records := rfl
  len := by simp [AssemblerCtx.init]
  spelled _ hl := absurd hl List.not_mem_nil
  defined _ hl := absurd hl List.not_mem_nil
  linkable _ hl := absurd hl List.not_mem_nil
  symbols _ hl := absurd hl List.not_mem_nil
  pos _ _ hl := by simp at hl
  patches := by simp [AssemblerCtx.init]
  labelled _ _ hk := by simp [labelIndex] at hk
  label name sym hfind htag := by
    rw [builtins_tag sym (List.mem_of_find?_eq_some hfind)] at htag
    cases htag

/-- A statement that is neither an instruction nor a label. -/
theorem other (h : Collected prog lines as) (hstmt : instrsOf [stmt] = []) (hlabel : ∀ name, labelIndex [stmt] name = none)
    (hinstrs : as'.instructions = as.instructions) (hpatch : as'.patchWork = as.patchWork)
    (hsym : as.symbols <+: as'.symbols)
    (hkeep : ∀ name sym, as.findSymbol name = some sym → as'.findSymbol name = some sym)
    (hnew : ∀ name sym, as'.findSymbol name = some sym → sym.tag = .label → as.findSymbol name = some sym) :
    Collected (prog ++ [stmt]) lines as' where
  instrs := by
    rw [instrsOf, List.filterMap_append]
    change instrsOf prog ++ instrsOf [stmt] = _
    rw [hstmt, List.append_nil, h.instrs]
  records := hinstrs.trans h.records
  len := hinstrs ▸ h.len
  spelled := h.spelled
  defined := h.defined
  linkable := h.linkable
  symbols line hl := (h.symbols line hl).trans hsym
  pos := h.pos
  patches := hpatch ▸ h.patches
  labelled name k hk := by
    rw [labelIndex_append, hlabel, Option.map_none, Option.or_none] at hk
    obtain ⟨sym, hfind, htag, hid⟩ := h.labelled name k hk
    exact ⟨sym, hkeep name sym hfind, htag, hid⟩
  label name sym hfind htag := by
    obtain ⟨k, hk⟩ := h.label name sym (hnew name sym hfind htag) htag
    exact ⟨k, by rw [labelIndex_append, hk, Option.some_or]⟩

theorem label_step (h : Collected prog lines as) {range : Range} {new : Symbol} (hnew : as.findSymbol range.view = none)
    (hname : new.name = range.view) (htag : new.tag = .label) (hid : new.id = BitVec.ofNat 64 as.instructions.length)
    (hinstrs : as'.instructions = as.instructions) (hpatch : as'.patchWork = as.patchWork)
    (hsym : as'.symbols = as.symbols ++ [new]) : Collected (prog ++ [.label range]) lines as' where
  instrs := by
    rw [instrsOf, List.filterMap_append]
    exact (List.append_nil _).trans h.instrs
  records := hinstrs.trans h.records
  len := hinstrs ▸ h.len
  spelled := h.spelled
  defined := h.defined
  linkable := h.linkable
  symbols line hl := (h.symbols line hl).trans (hsym ▸ List.prefix_append _ _)
  pos := h.pos
  patches := hpatch ▸ h.patches
  labelled name k hk := by
    rw [labelIndex_append, Option.or_eq_some_iff] at hk
    rcases hk with hk | ⟨-, hk⟩
    · obtain ⟨sym, hfind, hrest⟩ := h.labelled name k hk
      exact ⟨sym, by rw [findSymbol_append hsym, hfind, Option.some_or], hrest⟩
    · obtain ⟨k', hk', rfl⟩ := Option.map_eq_some_iff.mp hk
      rw [labelIndex] at hk'
      split at hk'
      · rename_i hview
        cases hk'
        refine ⟨new, ?_, htag, by rw [hid, h.length_instrs, Nat.zero_add]⟩
        rw [findSymbol_append hsym, ← hview, hnew, Option.none_or, if_pos hname]
      · cases hk'
  label name sym hfind hsymtag := by
    rw [findSymbol_append hsym, Option.or_eq_some_iff] at hfind
    rw [labelIndex_append]
    rcases hfind with hfind | ⟨hnone, hfind⟩
    · obtain ⟨k, hk⟩ := h.label name sym hfind hsymtag
      exact ⟨k, by rw [hk, Option.some_or]⟩
    · split at hfind
      · rename_i hnm
        rcases hprev : labelIndex prog name with _ | k
        · refine ⟨0 + (instrsOf prog).length, ?_⟩
          rw [Option.none_or, labelIndex, if_pos (hname.symm.trans hnm), Option.map_some]
        · exact ⟨k, rfl⟩
      · cases hfind

theorem instr_step (h : Collected prog lines as) {src : SourceInstr} (hspelled : src.Spelled toks) (hd : src.Defined as)
    (hlink : (src.record as).Linkable) (hlen : as.instructions.length + 1 < 2 ^ 31)
    (hinstrs : as'.instructions = as.instructions ++ [src.record as])
    (hpatch : as'.patchWork.Perm (as.patchWork ++ src.pending as)) (hsym : as'.symbols = as.symbols) :
    Collected (prog ++ [.instr src]) (lines ++ [⟨src, as⟩]) as' where
  instrs := by
    rw [instrsOf, List.filterMap_append]
    change instrsOf prog ++ [src] = _
    rw [h.instrs, List.map_append]
    rfl
  records := by
    rw [hinstrs, h.records, List.map_append]
    rfl
  len := by rw [hinstrs, List.length_append]; exact hlen
  spelled line hl := by
    rcases List.mem_append.mp hl with hold | hnew
    · exact h.spelled line hold
    · obtain rfl := List.mem_singleton.mp hnew
      exact ⟨toks, hspelled⟩
  defined line hl := by
    rcases List.mem_append.mp hl with hold | hnew
    · exact h.defined line hold
    · obtain rfl := List.mem_singleton.mp hnew
      exact hd
  linkable line hl := by
    rcases List.mem_append.mp hl with hold | hnew
    · exact h.linkable line hold
    · obtain rfl := List.mem_singleton.mp hnew
      exact hlink
  symbols line hl := by
    rw [hsym]
    rcases List.mem_append.mp hl with hold | hnew
    · exact h.symbols line hold
    · obtain rfl := List.mem_singleton.mp hnew
      exact List.prefix_refl _
  pos j line hj := by
    rw [List.getElem?_append] at hj
    split at hj
    · exact h.pos j line hj
    · rename_i hlt
      have hj' := (List.getElem?_eq_some_iff.mp hj).1
      rw [List.length_singleton] at hj'
      have hj0 : j - lines.length = 0 := by omega
      rw [hj0] at hj
      cases hj
      rw [← h.length_lines]
      omega
  patches := by
    refine hpatch.trans ?_
    rw [List.flatMap_append]
    refine h.patches.append ?_
    simp [Line.pending]
  labelled name k hk := by
    rw [labelIndex_append] at hk
    change ((labelIndex prog name).or none) = some k at hk
    rw [Option.or_none] at hk
    rw [AssemblerCtx.findSymbol, hsym]
    exact h.labelled name k hk
  label name sym hfind htag := by
    rw [AssemblerCtx.findSymbol, hsym] at hfind
    obtain ⟨k, hk⟩ := h.label name sym hfind htag
    exact ⟨k, by rw [labelIndex_append, hk, Option.some_or]⟩

end Collected

/-- References are only added. -/
theorem Reads.patches_perm {as as' : AssemblerCtx} {toks : List Token} {patches : List Patch}
    (h : Reads as as' toks patches) : as'.patchWork.Perm (as.patchWork ++ patches) := by
  rw [h.patchWork]
  clear h
  generalize as.patchWork = l
  induction patches generalizing l with
  | nil => simp
  | cons p patches ih =>
    refine (ih _).trans ?_
    refine ((List.perm_orderedInsert _ p l).append_right patches).trans ?_
    exact List.perm_middle.symm

/-- What a statement adds to what was collected. -/
theorem Collected.step {prog : List Stmt} {lines : List Line} {as as' : AssemblerCtx} {stmt : Stmt} {toks : List Token}
    (h : Collected prog lines as) (hs : StmtStep as stmt toks as') :
    Collected (prog ++ [stmt]) (lines ++ (stmt.instr?.map fun src => ⟨src, as⟩).toList) as' := by
  cases hs with
  | skip hk hr =>
    change Collected _ (lines ++ []) _
    rw [List.append_nil]
    refine h.other rfl (fun _ => rfl) hr.instructions hr.patchWork (hr.symbols ▸ List.prefix_refl _) ?_ ?_
    · intro name sym hfind
      rwa [AssemblerCtx.findSymbol, hr.symbols]
    · intro name sym hfind _
      rwa [AssemblerCtx.findSymbol, hr.symbols] at hfind
  | @label tok colon mid _ hk hc hnew hr has =>
    rw [has]
    change Collected _ (lines ++ []) _
    rw [List.append_nil]
    exact h.label_step hnew rfl rfl rfl hr.instructions hr.patchWork rfl
  | @var dollar tok assign toks mid _ init bs hd hk ha hnew hr htoks hinit hdata has =>
    have hsym : as'.symbols = as.symbols ++ [{ as.varSymbol tok.range with size := BitVec.ofNat 32 bs.length }] := by rw [has]
    change Collected _ (lines ++ []) _
    rw [List.append_nil]
    refine h.other rfl (fun _ => rfl) (by rw [has]) (by rw [has]) (hsym ▸ List.prefix_append _ _) ?_ ?_
    · intro name sym hfind
      rw [findSymbol_append hsym, hfind, Option.some_or]
    · intro name sym hfind htag
      rw [findSymbol_append hsym, Option.or_eq_some_iff] at hfind
      rcases hfind with hfind | ⟨-, hfind⟩
      · exact hfind
      · split at hfind
        · cases hfind
          cases htag
        · cases hfind
  | instr hs hd hr hlink hlen has =>
    rw [has]
    exact h.instr_step hs hd hlink hlen rfl hr.patches_perm hr.symbols

/-- The state of a line is the one after the statements before it. -/
def Line.Reached (as0 : AssemblerCtx) (prog : List Stmt) (line : Line) : Prop :=
  ∃ before toks, Steps as0 before toks line.ctx ∧ before ++ [.instr line.src] <+: prog

theorem Steps.collected {as : AssemblerCtx} {stop : Range} {log : List Diagnostic} {uninit : Nat → U8} {toks toks' : List Token}
    {prog : List Stmt} (h : Steps (AssemblerCtx.init toks stop log uninit) prog toks' as) :
    ∃ lines, Collected prog lines as ∧ ∀ line ∈ lines, line.Reached (AssemblerCtx.init toks stop log uninit) prog := by
  induction h with
  | nil => exact ⟨[], .init, fun _ hl => absurd hl List.not_mem_nil⟩
  | @snoc prog stmt toks1 toks2 mid as' h hs ih =>
    obtain ⟨lines, hc, hreached⟩ := ih
    refine ⟨_, hc.step hs, fun line hline => ?_⟩
    rcases List.mem_append.mp hline with hold | hnew
    · obtain ⟨before, toks, hsteps, hpre⟩ := hreached line hold
      exact ⟨before, toks, hsteps, hpre.trans (List.prefix_append _ _)⟩
    · rw [Option.mem_toList, Option.map_eq_some_iff] at hnew
      obtain ⟨src, hsrc, rfl⟩ := hnew
      cases stmt with
      | instr =>
        obtain rfl := Option.some.inj hsrc
        exact ⟨prog, toks1, h, List.prefix_refl _⟩
      | _ => cases hsrc

namespace AsmM
open Prog

/-- The loop of the assembler reads a program to the end of the source, if no error is logged. -/
theorem parseStatements_returns {as0 as as' : AssemblerCtx} {u : Unit} {fuel : Nat} {prog : List Stmt} {toks : List Token}
    (h : (parseStatements fuel).Returns as u as') (herr : as'.errors = as.errors) (hfuel : as.itp.toks.length ≤ fuel)
    (hs : Steps as0 prog toks as) : ∃ prog' toks', Steps as0 prog' toks' as' ∧ as'.itp.eof = true := by
  induction fuel generalizing as prog toks with
  | zero =>
    obtain ⟨rfl, rfl⟩ := returns_pure.mp h
    refine ⟨prog, toks, hs, ?_⟩
    have hnil := List.length_eq_zero_iff.mp (Nat.le_zero.mp hfuel)
    simp [ITokenParser.eof, ITokenParser.curr, hnil, ITokenParser.last]
  | succ fuel ih =>
    obtain ⟨_, _, hget, hbody⟩ := returns_bind.mp h
    obtain ⟨rfl, rfl⟩ := returns_get.mp hget
    split at hbody
    · rename_i heof
      obtain ⟨rfl, rfl⟩ := returns_pure.mp hbody
      exact ⟨prog, toks, hs, heof⟩
    · obtain ⟨_, mid, htry, hrest⟩ := returns_bind.mp hbody
      have hmid := (logs_parseStatements.of_returns hrest).errors
      rcases returns_tryCatch.mp htry with hstmt | ⟨e, thrown, hstop, he, hsync⟩
      · have hgrow := (logs_parseStatement.of_returns hstmt).errors
        obtain ⟨stmt, toks', hstep⟩ := parseStatement_returns hstmt (by omega)
        obtain ⟨htoks, hne⟩ := hstep.toks
        refine ih hrest (by omega) ?_ (hs.snoc hstep)
        have hlen := congrArg List.length htoks
        have hpos := List.length_pos_iff.mpr hne
        rw [List.length_append] at hlen
        omega
      · -- An exception leaves an error.
        have hlt := (logs_parseStatement.of_stop hstop).2 (by simpa using he)
        have hgrow := ((logs_bind logs_get fun _ => logs_synchronize).of_returns hsync).errors
        omega

end AsmM

end Cyntatic
