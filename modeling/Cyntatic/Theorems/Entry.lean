import Cyntatic.Theorems.Boundaries
import Cyntatic.Theorems.StartUp

/-! # The entry point

Which instruction the header calls `main`, and which one the machine executes first. -/

namespace Cyntatic
open Library

/-- `main` of the code header. -/
def Code.main? (code : Code) : Option U32 := (code.slice? 12 4).map fun bs => BitVec.ofNat 32 (leNat bs)

/-! ### Labels that count as `main` -/

/-- `main` of the assembler is the place of the last label that is a start of `main`. -/
structure MainIn (prog : List Stmt) (as : AssemblerCtx) : Prop where
  last : ∀ name, name <+: mainName → ∀ j, labelIndex prog name = some j → j ≤ as.main.toNat
  some_label : as.main = 0 ∨ ∃ name, name <+: mainName ∧ labelIndex prog name = some as.main.toNat

namespace MainIn
variable {prog : List Stmt} {lines : List Line} {as as' : AssemblerCtx} {stmt : Stmt} {toks : List Token}

/-- A statement that is no label. -/
theorem other (h : MainIn prog as) (hlabel : ∀ name, labelIndex [stmt] name = none) (hmain : as'.main = as.main) :
    MainIn (prog ++ [stmt]) as' := by
  have hindex (name : List U8) : labelIndex (prog ++ [stmt]) name = labelIndex prog name := by
    rw [labelIndex_append, hlabel, Option.map_none, Option.or_none]
  constructor
  · intro name hname j hj
    rw [hindex] at hj
    rw [hmain]
    exact h.last name hname j hj
  · rw [hmain]
    rcases h.some_label with hzero | ⟨name, hname, hj⟩
    · exact .inl hzero
    · exact .inr ⟨name, hname, (hindex name).trans hj⟩

theorem step (h : MainIn prog as) (hc : Collected prog lines as) (hs : StmtStep as stmt toks as') : MainIn (prog ++ [stmt]) as' := by
  cases hs with
  | skip hk hr => exact h.other (fun _ => rfl) (by rw [hr.rest])
  | var hd hk ha hnew hr htoks hinit hdata has => exact h.other (fun _ => rfl) (by rw [has])
  | instr hs hd hr hlink hlen has =>
    refine h.other (fun _ => rfl) ?_
    rw [has, hr.rest]
  | label hk hcolon hnew hr has =>
    rename_i tok colon mid
    have hindex (name : List U8) : labelIndex (prog ++ [.label tok.range]) name =
        (labelIndex prog name).or (if tok.range.view = name then some as.instructions.length else none) := by
      rw [labelIndex_append, hc.length_instrs, labelIndex]
      split
      · rw [Option.map_some, Nat.zero_add]
      · rfl
    have hmain : as'.main = as.labelMain tok.range := by rw [has]
    by_cases hname : tok.range.view <+: mainName
    · have hlen := hc.len
      have hplace : as'.main.toNat = as.instructions.length := by
        rw [hmain, AssemblerCtx.labelMain, if_pos hname, BitVec.toNat_ofNat, Nat.mod_eq_of_lt (by omega)]
      constructor
      · intro name _ j hj
        rw [hindex, Option.or_eq_some_iff] at hj
        rw [hplace]
        rcases hj with hj | ⟨-, hj⟩
        · exact hc.length_instrs ▸ labelIndex_le hj
        · split at hj
          · exact (Option.some.inj hj).ge
          · cases hj
      · -- The name is new, so that the label is the first one with it.
        refine .inr ⟨tok.range.view, hname, ?_⟩
        rw [hindex, if_pos rfl, hplace]
        rcases hold : labelIndex prog tok.range.view with _ | k
        · rfl
        · obtain ⟨sym, hfind, -⟩ := hc.labelled _ k hold
          cases hfind.symm.trans hnew
    · have hkeep : as'.main = as.main := by rw [hmain, AssemblerCtx.labelMain, if_neg hname]
      obtain ⟨hlast, hsome⟩ := h
      rw [← hkeep] at hlast hsome
      constructor
      · intro name hstart j hj
        rw [hindex, Option.or_eq_some_iff] at hj
        rcases hj with hj | ⟨-, hj⟩
        · exact hlast name hstart j hj
        · split at hj
          · rename_i heq
            exact absurd (heq ▸ hstart) hname
          · cases hj
      · rcases hsome with hzero | ⟨name, hstart, hj⟩
        · exact .inl hzero
        · exact .inr ⟨name, hstart, by rw [hindex, hj, Option.some_or]⟩

end MainIn

/-- What `main` is after a pass over a program. -/
theorem Steps.mainIn {as : AssemblerCtx} {stop : Range} {log : List Diagnostic} {uninit : Nat → U8} {toks toks' : List Token}
    {prog : List Stmt} (h : Steps (AssemblerCtx.init toks stop log uninit) prog toks' as) : MainIn prog as := by
  induction h with
  | nil =>
    refine ⟨fun name _ j hj => ?_, .inl rfl⟩
    rw [labelIndex] at hj
    cases hj
  | snoc h hs ih =>
    obtain ⟨lines, hc, -⟩ := h.collected
    exact ih.step hc hs

/-! ### The header -/

namespace AsmM
open Prog

variable {as as' : AssemblerCtx} {into code : Code} {refs : Refs} {n : Nat}

theorem main?_header {size : U64} {db main : U32} {rest : List U8} (h : code.bytes = codeHeader size db main ++ rest) :
    code.main? = some main := by
  have hsplit : code.bytes =
      leBytes 8 size ++ leBytes 4 (db.setWidth 64) ++ leBytes 4 (main.setWidth 64) ++ rest := h
  have hslice := Code.slice?_append hsplit
  rw [List.length_append, length_leBytes, length_leBytes, length_leBytes] at hslice
  rw [Code.main?, hslice, Option.map_some, leNat_leBytes]
  congr 1
  apply BitVec.eq_of_toNat_eq
  rw [BitVec.toNat_ofNat, BitVec.toNat_setWidth]
  omega

/-- The linker adds the place of the label to the offset of the code. -/
theorem link_main (h : (link into).Returns as (n, code) as') (herr : as'.errors = 0) :
    ∃ db, code.db? = some db ∧ code.main? = some (db + as.main) := by
  obtain ⟨refs, -, hemit⟩ := link_emits h herr
  obtain ⟨-, instrs, size, bs, -, -, -, hbytes⟩ := emitCode_bytes hemit
  rw [List.append_assoc] at hbytes
  exact ⟨_, db?_header hbytes, main?_header hbytes⟩

end AsmM

/-! ### The first instruction -/

/-- `VM_run` executes the instruction at an offset first. -/
def Code.BeginsAt (code : Code) (off : Nat) : Prop :=
  ∀ (vm vm' : Vm) (argv : List (List U8)), vm.code = code → vm.Starts argv vm' →
    vm'.code = code ∧ vm'.reg .ip = BitVec.ofNat 64 off

namespace VmM
open Prog

theorem stays_store {off : U64} {bs : List U8} : Stays (store off bs) := by
  refine relates_of_returns fun a _ b h => ?_
  rw [(store_returns.mp h).2]
  exact ⟨rfl, rfl⟩

theorem stays_cstringDup {s : List U8} : Stays (cstringDup s) :=
  stays_bind stays_alloc fun _ => stays_bind (relates_stopIf composes_keepsIp fun _ => trivial) fun _ =>
    stays_bind stays_mem fun _ => stays_bind stays_store fun _ => stays_pure

theorem stays_passArgs {argv : List (List U8)} : Stays (argv.forM passArg) := by
  induction argv with
  | nil => exact stays_pure
  | cons s argv ih => exact stays_bind (stays_push (stays_bind stays_cstringDup fun _ => stays_pure)) fun _ => ih

end VmM

namespace Vm.Starts
variable {vm vm' : Vm} {argv : List (List U8)}

theorem code (h : vm.Starts argv vm') : vm'.code = vm.code := by
  obtain ⟨db, mid, -, hargs, -, -, -, rfl⟩ := VmM.starts_iff.mp h
  exact (VmM.stays_passArgs.of_returns hargs).code

theorem ip (h : vm.Starts argv vm') {db : U32} (hdb : vm.code.db? = some db) : vm'.reg .ip = BitVec.ofNat 64 db.toNat := by
  obtain ⟨db', mid, hdb', hargs, -, -, -, rfl⟩ := VmM.starts_iff.mp h
  obtain rfl := Option.some.inj (hdb.symm.trans hdb')
  have hip : mid.reg .ip = db.setWidth 64 := (VmM.stays_passArgs.of_returns hargs).ip
  rw [BitVec.ofNat_toNat]
  exact hip

end Vm.Starts

/-- The machine begins behind the data, whatever the header calls `main`. -/
theorem Code.beginsAt_iff {code : Code} {db : U32} (hdb : code.db? = some db) {off : Nat} (hoff : off < 2 ^ 64) :
    code.BeginsAt off ↔ off = db.toNat := by
  constructor
  · intro h
    let vm : Vm := { emptyStackVm with code := code }
    obtain ⟨vm', hstart⟩ : ∃ vm', vm.Starts [] vm' := ⟨_, VmM.starts_iff.mpr ⟨db, _, hdb, Prog.returns_pure.mpr ⟨rfl, rfl⟩,
      show emptyStackVm.CanPush 128 by decide, show emptyStackVm.CanPush (128 - 8) by decide,
      show emptyStackVm.CanPush (128 - 8 - 8) by decide, rfl⟩⟩
    have hoff' := (h vm vm' [] rfl hstart).2.symm.trans (hstart.ip hdb)
    have hnat := congrArg BitVec.toNat hoff'
    rwa [BitVec.toNat_ofNat, BitVec.toNat_ofNat, Nat.mod_eq_of_lt hoff, Nat.mod_eq_of_lt (lt_trans db.isLt (by decide))] at hnat
  · rintro rfl vm vm' argv rfl hstart
    exact ⟨hstart.code, hstart.ip hdb⟩

/-! ### The entry point of a program -/

theorem Assembled.entry_iff {prog : List Stmt} {lines : List Line} {as : AssemblerCtx} {db : Nat} {code : Code}
    {instrs : List Instruction} (h : Assembled prog lines as db code instrs) (hm : MainIn prog as)
    (hmain : code.main? = some (BitVec.ofNat 32 db + as.main)) {k : Nat} (hk : labelIndex prog mainName = some k)
    (hlt : k < (instrsOf prog).length) :
    code.main? = some (BitVec.ofNat 32 (emitOffset db instrs k)) ∧ code.BeginsAt (emitOffset db instrs k) ↔
      ∀ name, name <+: mainName → ∀ j, labelIndex prog name = some j → j = 0 := by
  have hoff := h.emitOffset_lt k
  have hfirst : emitOffset db instrs 0 = db := h.image.emitOffset_eq 0
  have hdb := h.emitOffset_lt 0
  rw [hfirst] at hdb
  have hnat : (BitVec.ofNat 32 db : U32).toNat = db := by rw [BitVec.toNat_ofNat, Nat.mod_eq_of_lt (by omega)]
  rw [Code.beginsAt_iff h.header (by omega), hnat, hmain, Option.some.injEq]
  constructor
  · rintro ⟨hheader, hbegin⟩ name hname j hj
    rw [hbegin, add_eq_left] at hheader
    have hle := hm.last name hname j hj
    rw [hheader] at hle
    exact Nat.le_zero.mp hle
  · intro hall
    obtain rfl := hall mainName (List.prefix_refl _) k hk
    have hzero : as.main = 0 := by
      rcases hm.some_label with hzero | ⟨name, hname, hj⟩
      · exact hzero
      · exact BitVec.eq_of_toNat_eq (hall name hname _ hj)
    rw [hfirst, hzero, add_zero]
    exact ⟨rfl, rfl⟩

/-- The label `main` is the entry point of a program if it stands before the first instruction, as does every other label
    that is a start of `main`, and only then. -/
theorem AsmM.assemble_enters_main {into code : Code} {toks : List Token} {stop : Range} {log : List Diagnostic}
    {uninit : Nat → U8} {n : Nat} {as' : AssemblerCtx}
    (h : (assemble into).Returns (AssemblerCtx.init toks stop log uninit) (n, code) as') (herr : as'.errors = 0) :
    ∃ prog toks' as db, Steps (AssemblerCtx.init toks stop log uninit) prog toks' as ∧ as.itp.eof = true ∧
      as'.instructions.length = (instrsOf prog).length ∧ Image code db as'.instructions ∧
      ∀ k, labelIndex prog mainName = some k → k < (instrsOf prog).length →
        (code.main? = some (BitVec.ofNat 32 (emitOffset db as'.instructions k)) ∧
          code.BeginsAt (emitOffset db as'.instructions k) ↔
            ∀ name, name <+: mainName → ∀ j, labelIndex prog name = some j → j = 0) := by
  obtain ⟨as, hparse, ⟨hne, -, rfl⟩ | ⟨hzero, hlink⟩⟩ := assemble_cases h
  · exact absurd herr hne
  · obtain ⟨prog, toks', lines, db, hsteps, heof, ha, -⟩ := link_assembled hparse hzero hlink herr
    obtain ⟨db', hdb, hmain⟩ := link_main hlink herr
    obtain rfl := Option.some.inj (ha.header.symm.trans hdb)
    exact ⟨prog, toks', as, db, hsteps, heof, ha.length_instrs, ha.image, fun k => ha.entry_iff hsteps.mainIn hmain⟩

/-- `main: jmp main` -/
def mainLoop : List Token :=
  [wordToken .tokIdentifier ['m', 'a', 'i', 'n'], wordToken .tokColon [':'], wordToken .tokIdentifier ['j', 'm', 'p'],
    wordToken .tokIdentifier ['m', 'a', 'i', 'n']]

theorem AsmM.assemble_enters_main_mainLoop :
    ∃ n code as', (assemble .empty).Returns (.init mainLoop endRange [] fun _ => 0) (n, code) as' ∧
      ∃ prog toks' as db, Steps (.init mainLoop endRange [] fun _ => 0) prog toks' as ∧ Image code db as'.instructions := by
  obtain ⟨⟨n, code⟩, as', h, herr⟩ := Prog.exists_of_passes (m := assemble .empty) (s := .init mainLoop endRange [] fun _ => 0)
    (p := fun _ as' => as'.errors == 0) (by decide)
  obtain ⟨prog, toks', as, db, hsteps, -, -, himage, -⟩ := assemble_enters_main h (beq_iff_eq.mp herr)
  exact ⟨n, code, as', h, prog, toks', as, db, hsteps, himage⟩

/-- `jmp main`, and `main: halt` after it -/
def mainBehind : List Token :=
  [wordToken .tokIdentifier ['j', 'm', 'p'], wordToken .tokIdentifier ['m', 'a', 'i', 'n'], wordToken .tokNl ['\n'],
    wordToken .tokIdentifier ['m', 'a', 'i', 'n'], wordToken .tokColon [':'], wordToken .tokIdentifier ['h', 'a', 'l', 't']]

/-- The header counts instructions, and the machine begins before the label. -/
theorem main_misplaced : ∃ n code as' prog toks' as db,
    (AsmM.assemble .empty).Returns (.init mainBehind endRange [] fun _ => 0) (n, code) as' ∧ as'.errors = 0 ∧
      Steps (.init mainBehind endRange [] fun _ => 0) prog toks' as ∧ as.itp.eof = true ∧ Image code db as'.instructions ∧
      labelIndex prog mainName = some 1 ∧ 1 < (instrsOf prog).length ∧
      code.main? ≠ some (BitVec.ofNat 32 (emitOffset db as'.instructions 1)) ∧
      ¬code.BeginsAt (emitOffset db as'.instructions 1) := by
  obtain ⟨⟨n, code⟩, as', h, hlast⟩ := Prog.exists_of_passes (m := AsmM.assemble .empty)
    (s := .init mainBehind endRange [] fun _ => 0) (p := fun r as' => decide (as'.errors = 0 ∧ r.2.db? = some 16 ∧
      r.2.main? = some 17 ∧ as'.instructions.map Instruction.linkSize = [6, 1])) (by decide +kernel)
  obtain ⟨_, mid, hmid, hfind⟩ := Prog.exists_of_passes (m := AsmM.parseStatements mainBehind.length)
    (s := .init mainBehind endRange [] fun _ => 0) (p := fun _ as => decide ((as.findSymbol mainName).map (fun sym =>
      (sym.tag, sym.id)) = some (.label, 1))) (by decide +kernel)
  obtain ⟨herr, hdb, hmain, hsizes⟩ := of_decide_eq_true hlast
  obtain ⟨sym, hsym, hlabel⟩ := Option.map_eq_some_iff.mp (of_decide_eq_true hfind)
  obtain ⟨htag, hid⟩ := Prod.mk.inj hlabel
  obtain ⟨as, hparse, ⟨hne, -, rfl⟩ | ⟨hzero, hlink⟩⟩ := AsmM.assemble_cases h
  · exact absurd herr hne
  obtain ⟨-, rfl⟩ := hmid.unique hparse
  obtain ⟨prog, toks', lines, db, hsteps, heof, ha, -⟩ := AsmM.link_assembled hparse hzero hlink herr
  obtain ⟨k, hk⟩ := ha.collected.label mainName sym hsym htag
  obtain ⟨sym', hsym', -, hid'⟩ := ha.collected.labelled mainName k hk
  obtain rfl := Option.some.inj (hsym.symm.trans hsym')
  have hlen : (instrsOf prog).length = 2 := by
    rw [← ha.length_instrs, ← List.length_map Instruction.linkSize, hsizes]
    rfl
  have hle := labelIndex_le hk
  have hone := congrArg BitVec.toNat (hid'.symm.trans hid)
  rw [BitVec.toNat_ofNat] at hone
  have hone' : k % 2 ^ 64 = 1 := hone
  obtain rfl : k = 1 := by omega
  have hoff : emitOffset db as'.instructions 1 = db + 6 := by
    rw [ha.image.emitOffset_eq, hsizes]
    rfl
  have hlt := ha.emitOffset_lt 1
  have hdb' := congrArg BitVec.toNat (Option.some.inj (ha.header.symm.trans hdb))
  rw [BitVec.toNat_ofNat, Nat.mod_eq_of_lt (by omega)] at hdb'
  obtain rfl : db = 16 := hdb'
  refine ⟨n, code, as', prog, toks', _, 16, h, herr, hsteps, heof, ha.image, hk, by rw [hlen]; decide, ?_, ?_⟩
  · rw [hoff, hmain]
    decide
  · rw [hoff, Code.beginsAt_iff hdb (by decide)]
    decide

end Cyntatic
