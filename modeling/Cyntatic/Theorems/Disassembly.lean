import Cyntatic.Theorems.Decode
import Cyntatic.Vm.Run

/-! # The disassembler

Which bytes `VM_code_disassemble_` can list: the sweep begins at `db` of the header and takes what it finds there for
instructions. -/

namespace Cyntatic
open Library

namespace Instruction

/-- The registers that are shown of an instruction have names. -/
def Named (ins : Instruction) : Prop :=
  ins.opc.val < OpCode.table.length →
    (ins.osz = 2 → ins.rmd = .reg → ins.ra.val < Register.count) ∧
    (ins.osz = 3 → ins.ra.val < Register.count ∧ (ins.rmd = .reg → ins.rb.val < Register.count))

theorem isSome_registerNames {n : Nat} : (registerNames[n]?).isSome ↔ n < Register.count := by
  simp [registerNames, Register.count]

theorem isSome_printOperands {ins : Instruction} (hosz : ins.osz = 2 ∨ ins.osz = 3) : ins.printOperands.isSome ↔
    (ins.osz = 2 → ins.rmd = .reg → ins.ra.val < Register.count) ∧
    (ins.osz = 3 → ins.ra.val < Register.count ∧ (ins.rmd = .reg → ins.rb.val < Register.count)) := by
  rw [printOperands]
  rcases hosz with hosz | hosz
  · cases hmode : ins.rmd with
    | imm => simp [hosz]
    | reg => simp [hosz, ← isSome_registerNames, Option.isSome_bind]
  · cases hmode : ins.rmd with
    | imm => simp [hosz, ← isSome_registerNames, Option.isSome_bind]
    | reg =>
      cases hra : registerNames[ins.ra.val]? with
      | none => simp [hosz, ← isSome_registerNames, hra]
      | some name => simp [hosz, ← isSome_registerNames, hra, Option.isSome_bind]

theorem isSome_print {ins : Instruction} : ins.print.isSome ↔ ins.Named := by
  have hosz : ins.osz = 0 ∨ ins.osz = 1 ∨ ins.osz = 2 ∨ ins.osz = 3 := by omega
  have hmode : ∃ m, modeNames[ins.imd.toNat]? = some m := by cases ins.imd <;> exact ⟨_, rfl⟩
  obtain ⟨m, hm⟩ := hmode
  rw [print, Named]
  by_cases hzero : ins.osz = 0
  · simp [hzero]
  rw [if_neg hzero]
  by_cases hop : OpCode.table.length ≤ ins.opc.val
  · rw [if_pos hop]
    exact iff_of_true rfl fun h => absurd h (by omega)
  rw [if_neg hop]
  have hname : ∃ name, instructionNames[ins.opc.val]? = some name :=
    ⟨_, List.getElem?_eq_getElem (by rw [instructionNames, List.length_map]; omega)⟩
  obtain ⟨name, hname⟩ := hname
  rw [hname, hm]
  rcases hosz with h | h | h
  · exact absurd h hzero
  · simp [h]
  · have hops := isSome_printOperands h
    have hone : ins.osz ≠ 1 := by omega
    simp only [Option.bind_eq_bind, Option.bind_some, if_neg hone]
    rw [show (∀ p : Prop, (ins.opc.val < OpCode.table.length → p) ↔ p) from fun p => forall_prop_of_true (by omega), ← hops]
    cases ins.printOperands <;> rfl

end Instruction

namespace Code

variable {code : Code} {i : Nat}

/-- No instruction begins at an offset, or its first bytes are not all there. -/
def Skipped (code : Code) (i : Nat) : Prop :=
  ∃ b1, code.at? i = some b1 ∧ ((({} : Instruction).setB1 b1).osz = 0 ∨ code.len < i + (({} : Instruction).setB1 b1).osz)

/-- An instruction begins at an offset, and does not end in the code. -/
def Truncated (code : Code) (i : Nat) : Prop :=
  ∃ b1, code.at? i = some b1 ∧ (({} : Instruction).setB1 b1).osz ≠ 0 ∧ ¬∃ n ins, code.Decodes i n ins

theorem readImm_eq_none {ins : Instruction} {k : Nat} (h : code.readImm ins (i + k) = none) :
    code.immAt ins i (i + k) = none := by
  unfold readImm at h
  unfold immAt
  split at h
  · rename_i himm
    rw [if_pos himm, immediateAt_eq, Option.map_eq_none_iff.mp h]
    rfl
  · cases h

theorem instructionAt_of_skipped (h : code.Skipped i) : ∃ ins, ins.osz = 0 ∧ code.instructionAt {} i = some (0, ins) := by
  obtain ⟨b1, h1, hskip⟩ := h
  have hi := lt_len_of_at? h1
  have hlen : code.len < 2 ^ 31 := code.len_lt
  rw [instructionAt, if_neg (by omega), h1, Option.bind_some]
  generalize ({} : Instruction).setB1 b1 = x at *
  have hmod : (i + x.osz.val) % 2 ^ 32 = i + x.osz.val := Nat.mod_eq_of_lt (by omega)
  dsimp only
  rw [hmod]
  by_cases hcut : code.len < i + x.osz.val
  · rw [if_pos hcut]
    exact ⟨_, rfl, rfl⟩
  · have hosz : x.osz = 0 := hskip.resolve_right hcut
    rw [if_neg hcut, if_pos (by rw [hosz]; decide), hosz]
    exact ⟨_, hosz, rfl⟩

/-- What is found at an offset: bytes to skip, an instruction, or one whose immediate is not all there. -/
theorem instructionAt_cases (hi : i < code.len) :
    code.Skipped i ∨ (∃ n ins, code.Decodes i n ins) ∨ code.instructionAt {} i = none := by
  have hlen : code.len < 2 ^ 31 := code.len_lt
  obtain ⟨b1, h1⟩ := at?_of_lt hi
  by_cases hskip : (({} : Instruction).setB1 b1).osz = 0 ∨ code.len < i + (({} : Instruction).setB1 b1).osz
  · exact .inl ⟨b1, h1, hskip⟩
  refine .inr ?_
  obtain ⟨hzero, hcut⟩ := not_or.mp hskip
  rw [instructionAt, if_neg (by omega), h1, Option.bind_some]
  generalize hx : ({} : Instruction).setB1 b1 = x at *
  have hosz : x.osz = 1 ∨ x.osz = 2 ∨ x.osz = 3 := by omega
  have hmod : (i + x.osz.val) % 2 ^ 32 = i + x.osz.val := Nat.mod_eq_of_lt (by omega)
  dsimp only
  rw [hmod, if_neg hcut]
  rcases hosz with hosz | hosz | hosz
  · subst hx
    exact .inl ⟨1, _, .one h1 hosz⟩
  · have htwo : (2 : Fin 4).val = 2 := rfl
    rw [hosz] at hcut ⊢
    obtain ⟨b2, h2⟩ := at?_of_lt (show i + 1 < code.len by omega)
    rw [if_neg (by decide), h2, Option.bind_some]
    generalize hy : x.setB2 b2 = y
    have hy2 : y.osz = 2 := hy ▸ hosz
    have hfix : (if y.osz = 2 ∧ y.rmd = .imm then y.moveMode else y) = fixMode y := by simp only [hy2, true_and, fixMode]
    rw [hfix, if_neg (by rw [osz_fixMode, hy2]; decide)]
    cases himm : code.readImm (fixMode y) (i + 2) with
    | none => exact .inr (readImm_eq_none himm)
    | some r =>
      subst hx hy
      exact .inl ⟨_, _, .two h1 h2 hosz himm⟩
  · have hthree : (3 : Fin 4).val = 3 := rfl
    rw [hosz] at hcut ⊢
    obtain ⟨b2, h2⟩ := at?_of_lt (show i + 1 < code.len by omega)
    obtain ⟨b3, h3⟩ := at?_of_lt (show i + 2 < code.len by omega)
    rw [if_neg (by decide), h2, Option.bind_some]
    generalize hy : x.setB2 b2 = y
    have hy3 : y.osz = 3 := hy ▸ hosz
    have hmove : (if y.osz = 2 ∧ y.rmd = .imm then y.moveMode else y) = y := if_neg (by simp [hy3])
    rw [hmove, if_pos hy3, h3, Option.bind_some]
    cases himm : code.readImm (y.setB3 b3) (i + 3) with
    | none => exact .inr (readImm_eq_none himm)
    | some r =>
      subst hx hy
      exact .inl ⟨_, _, .three h1 h2 h3 hosz himm⟩

/-! ### The sweep -/

/-- An iteration at an offset reads the code only, finds the names that it prints, goes on to a later offset, and takes a
    truncated instruction to have no size. -/
def Iterates (code : Code) (showAddr : Bool) (ip : Nat) : Prop :=
  ∃ size ins text next, code.instructionAt {} ip = some (size, ins) ∧ code.disassembleStep showAddr ip = some (text, next) ∧
    ip < next ∧ (code.Truncated ip → size = 0)

/-- The offsets that the loop comes to from `db` on. -/
inductive Visits (code : Code) (showAddr : Bool) (db : Nat) : Nat → Prop
  | start : Visits code showAddr db db
  | next {ip next : Nat} {text : List Char} (h : Visits code showAddr db ip) (hlt : ip < code.len)
      (hstep : code.disassembleStep showAddr ip = some (text, next)) : Visits code showAddr db next

/-- The disassembler is safe on some code: its iterations are, and the loop ends. -/
def Disassembles (code : Code) (showAddr : Bool) : Prop :=
  ∃ db : U32, code.db? = some db ∧
    (∀ ip, code.Visits showAddr db.toNat ip → ip < code.len → code.Iterates showAddr ip) ∧
    ∃ text, code.disassembleLoop showAddr code.len db.toNat = some text

/-- From an offset on there are instructions with their immediates, which show only registers that have names, and bytes
    between them that are skipped. -/
inductive Sweepable (code : Code) : Nat → Prop
  | done {i : Nat} (h : code.len ≤ i) : Sweepable code i
  | skip {i : Nat} (h : code.Skipped i) (rest : Sweepable code (i + 1)) : Sweepable code i
  | instr {i n : Nat} {ins : Instruction} (h : code.Decodes i n ins) (named : ins.Named)
      (rest : Sweepable code (i + n)) : Sweepable code i

variable {showAddr : Bool}

theorem disassembleStep_eq {size : Nat} {ins : Instruction} (showAddr : Bool) (h : code.instructionAt {} i = some (size, ins))
    (hp : ins.print.isSome) (hlt : i + size < 2 ^ 31) :
    ∃ text, code.disassembleStep showAddr i = some (text, i + if size = 0 then 1 else size) := by
  obtain ⟨text, hp⟩ := Option.isSome_iff_exists.mp hp
  have hmod : (i + size) % 2 ^ 32 = i + size := Nat.mod_eq_of_lt (by omega)
  have hnext : (if size = 0 then ((i + size) % 2 ^ 32 + 1) % 2 ^ 32 else (i + size) % 2 ^ 32) =
      i + if size = 0 then 1 else size := by
    rw [hmod]
    by_cases hzero : size = 0
    · rw [if_pos hzero, if_pos hzero, hzero, Nat.add_zero, Nat.mod_eq_of_lt (by omega)]
    · rw [if_neg hzero, if_neg hzero]
  rw [← hnext, disassembleStep, h]
  simp only [Option.bind_eq_bind, Option.bind_some, hp]
  exact ⟨_, rfl⟩

theorem step_skipped (showAddr : Bool) (h : code.Skipped i) :
    ∃ ins text, code.instructionAt {} i = some (0, ins) ∧ code.disassembleStep showAddr i = some (text, i + 1) := by
  have hlen : code.len < 2 ^ 31 := code.len_lt
  obtain ⟨b1, h1, -⟩ := id h
  have hi := lt_len_of_at? h1
  obtain ⟨ins, hosz, hat⟩ := instructionAt_of_skipped h
  have hp : ins.print.isSome := Instruction.isSome_print.mpr fun _ => ⟨fun h => by omega, fun h => by omega⟩
  obtain ⟨text, hstep⟩ := disassembleStep_eq showAddr hat hp (by omega)
  exact ⟨ins, text, hat, hstep⟩

theorem step_decodes {n : Nat} {ins : Instruction} (showAddr : Bool) (h : code.Decodes i n ins) (hn : ins.Named) :
    ∃ text, code.disassembleStep showAddr i = some (text, i + n) := by
  have hlen : code.len < 2 ^ 31 := code.len_lt
  obtain ⟨hpos, hle⟩ := h.le_len
  obtain ⟨text, hstep⟩ := disassembleStep_eq showAddr (instructionAt_of_decodes h) (Instruction.isSome_print.mpr hn)
    (by omega)
  rw [if_neg (by omega)] at hstep
  exact ⟨text, hstep⟩

/-- An iteration that can be made is one over bytes to skip or over an instruction. -/
theorem Iterates.cases (h : code.Iterates showAddr i) (hi : i < code.len) :
    code.Skipped i ∨ ∃ n ins, code.Decodes i n ins ∧ ins.Named := by
  obtain ⟨size, ins, text, next, hat, hstep, -⟩ := h
  rcases instructionAt_cases hi with hskip | ⟨n, ins', hd⟩ | hnone
  · exact .inl hskip
  · refine .inr ⟨n, ins', hd, ?_⟩
    rw [instructionAt_of_decodes hd] at hat
    cases hat
    rw [disassembleStep, instructionAt_of_decodes hd] at hstep
    simp only [Option.bind_eq_bind, Option.bind_some, Option.bind_eq_some_iff] at hstep
    obtain ⟨text, hp, -⟩ := hstep
    exact Instruction.isSome_print.mp (Option.isSome_of_mem hp)
  · rw [hnone] at hat
    cases hat

/-- The sweep can be made from the offset after an iteration when it can from before it. -/
theorem Sweepable.iterates (showAddr : Bool) (h : code.Sweepable i) (hi : i < code.len) :
    code.Iterates showAddr i ∧ ∀ text next, code.disassembleStep showAddr i = some (text, next) → code.Sweepable next := by
  cases h with
  | done hle => omega
  | skip hskip rest =>
    obtain ⟨ins, text, hat, hstep⟩ := step_skipped showAddr hskip
    refine ⟨⟨0, ins, text, _, hat, hstep, Nat.lt_succ_self i, fun _ => rfl⟩, fun _ _ h => ?_⟩
    cases hstep.symm.trans h
    exact rest
  | instr hd hn rest =>
    obtain ⟨text, hstep⟩ := step_decodes showAddr hd hn
    obtain ⟨hpos, -⟩ := hd.le_len
    refine ⟨⟨_, _, text, _, instructionAt_of_decodes hd, hstep, by omega, fun ht => ?_⟩, fun _ _ h => ?_⟩
    · obtain ⟨_, _, _, hno⟩ := ht
      exact absurd ⟨_, _, hd⟩ hno
    · cases hstep.symm.trans h
      exact rest

theorem Sweepable.visits {db : Nat} (h : code.Sweepable db) (hv : code.Visits showAddr db i) : code.Sweepable i := by
  induction hv with
  | start => exact h
  | next _ hlt hstep ih => exact (ih.iterates showAddr hlt).2 _ _ hstep

/-- The loop ends: it goes on by at least one byte each time. -/
theorem Sweepable.loop {fuel : Nat} (h : code.Sweepable i) (hfuel : code.len ≤ i + fuel) :
    ∃ text, code.disassembleLoop showAddr fuel i = some text := by
  induction fuel generalizing i with
  | zero => exact ⟨[], if_neg (by omega)⟩
  | succ fuel ih =>
    by_cases hi : i < code.len
    · obtain ⟨⟨_, _, text, next, -, hstep, hlt, -⟩, hrest⟩ := h.iterates showAddr hi
      obtain ⟨rest, hloop⟩ := ih (hrest _ _ hstep) (by omega)
      refine ⟨text ++ rest, ?_⟩
      rw [disassembleLoop, if_pos hi, hstep]
      simp only [Option.bind_eq_bind, Option.bind_some, hloop]
      rfl
    · exact ⟨[], by rw [disassembleLoop, if_neg hi]⟩

/-- Offsets at which all iterations can be made can be swept. -/
theorem sweepable_of_iterates {db : Nat}
    (h : ∀ ip, code.Visits showAddr db ip → ip < code.len → code.Iterates showAddr ip) {k : Nat} (hk : code.len ≤ i + k)
    (hv : code.Visits showAddr db i) : code.Sweepable i := by
  induction k generalizing i with
  | zero => exact .done hk
  | succ k ih =>
    by_cases hi : i < code.len
    · rcases (h i hv hi).cases hi with hskip | ⟨n, ins, hd, hn⟩
      · obtain ⟨_, _, -, hstep⟩ := step_skipped showAddr hskip
        exact .skip hskip (ih (by omega) (hv.next hi hstep))
      · obtain ⟨_, hstep⟩ := step_decodes showAddr hd hn
        have hpos := hd.le_len.1
        exact .instr hd hn (ih (by omega) (hv.next hi hstep))
    · exact .done (by omega)

/-- The disassembler is safe just where every instruction that it comes to has its immediate, and shows only registers that
    have names. -/
theorem disassembles_iff {db : U32} (hdb : code.db? = some db) :
    code.Disassembles showAddr ↔ code.Sweepable db.toNat := by
  rw [Disassembles]
  constructor
  · rintro ⟨db', hdb', h, -⟩
    cases hdb.symm.trans hdb'
    exact sweepable_of_iterates h (k := code.len) (by omega) .start
  · intro h
    exact ⟨db, hdb, fun ip hv hi => ((h.visits hv).iterates showAddr hi).1, h.loop (by omega)⟩

/-- A header, `push.q r1` and `halt`. -/
def pushHaltCode : Code := ⟨[18, 0, 0, 0, 0, 0, 0, 0, 16, 0, 0, 0, 16, 0, 0, 0, 0x36, 0xC1, 0x01], by decide⟩

/-- A header, and `push.q` without the last byte of its immediate. -/
def cutCode : Code := ⟨[24, 0, 0, 0, 0, 0, 0, 0, 16, 0, 0, 0, 16, 0, 0, 0, 0x36, 0xE3, 1, 2, 3, 4, 5, 6, 7], by decide⟩

/-- A header, and a `push` of the register 10. -/
def unnamedCode : Code := ⟨[18, 0, 0, 0, 0, 0, 0, 0, 16, 0, 0, 0, 16, 0, 0, 0, 0x36, 0xCA], by decide⟩

theorem disassembles_pushHalt : pushHaltCode.Disassembles true := by
  have hpush : pushHaltCode.Decodes 16 (2 + 0) { osz := 2, opc := 13, ra := 1, imd := .quad } := .two rfl rfl rfl rfl
  exact (disassembles_iff (show pushHaltCode.db? = some 16 from rfl)).mpr
    (.instr hpush (Instruction.isSome_print.mp (by decide))
      (.instr (.one rfl rfl) (Instruction.isSome_print.mp (by decide)) (.done (by decide))))

theorem immediate_past_end : cutCode.db? = some 16 ∧ cutCode.instructionAt {} 16 = none ∧ ¬cutCode.Disassembles true ∧
    unnamedCode.db? = some 16 ∧ unnamedCode.disassembleStep true 16 = none ∧ ¬unnamedCode.Disassembles true := by
  have hcut : cutCode.instructionAt {} 16 = none := by decide
  have hname : unnamedCode.disassembleStep true 16 = none := by decide
  refine ⟨rfl, hcut, ?_, rfl, hname, ?_⟩
  · rintro ⟨db, hdb, h, -⟩
    cases hdb
    obtain ⟨_, _, _, _, hat, -⟩ := h 16 .start (by decide)
    rw [hcut] at hat
    cases hat
  · rintro ⟨db, hdb, h, -⟩
    cases hdb
    obtain ⟨_, _, _, _, -, hstep, -⟩ := h 16 .start (by decide)
    rw [hname] at hstep
    cases hstep

end Code

end Cyntatic
