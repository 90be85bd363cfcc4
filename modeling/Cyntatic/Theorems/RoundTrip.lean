import Cyntatic.Theorems.AsmProgram

/-! # Round trip

The instructions that the parser pushes come back when the code they are emitted to is decoded. -/

namespace Cyntatic
open Library

namespace Instruction

/-- The parser can push the record: with this immediate, or with another one before linking. -/
def Pushed (ins : Instruction) : Prop :=
  ∃ as u as' ii, AsmM.parseInstruction.Returns as u as' ∧ as'.instructions = as.instructions ++ [{ ins with ii := ii }]

/-- The immediate is in the signed range of its width. -/
def InRange (ins : Instruction) : Prop :=
  ins.hasImm → -(2 ^ (8 * ins.ims.size - 1) : Int) ≤ ins.ii.toInt ∧ ins.ii.toInt < 2 ^ (8 * ins.ims.size - 1)

/-- `dec` has the fields of `ins` that an instruction of its size encodes, and its immediate. The mode of the
    immediate of a one-operand instruction is in `ra`, from where the decoder moves it. -/
structure Recovers (ins dec : Instruction) : Prop where
  osz : dec.osz = ins.osz
  opc : dec.opc = ins.opc
  second : ins.osz ≠ 1 → dec.iam = ins.iam ∧ dec.rmd = ins.rmd ∧ dec.imd = ins.imd
  ra : ins.osz ≠ 1 → ¬(ins.osz = 2 ∧ ins.rmd = .imm) → dec.ra = ins.ra
  moved : ins.osz = 2 → ins.rmd = .imm → dec.ims.toNat = ins.ra ∧ dec.ra = 0
  third : ins.osz = 3 → dec.ims = ins.ims ∧ dec.rb = ins.rb ∧ dec.ibm = ins.ibm ∧ dec.iea = ins.iea
  imm : ins.hasImm → dec.ii = ins.ii

theorem Pushed.linkable {ins : Instruction} (h : ins.Pushed) : ins.Linkable := by
  obtain ⟨as, u, as', ii, hret, hinstrs⟩ := h
  obtain ⟨-, ins', hlink, hinstrs', -⟩ := AsmM.parseInstruction_returns hret
  rw [hinstrs'] at hinstrs
  obtain rfl := List.singleton_inj.mp (List.append_cancel_left hinstrs)
  exact ⟨⟨hlink.osz_ne, hlink.ra_eq, hlink.iea_eq⟩, hlink.imm_one⟩

theorem InRange.signTrunc {ins : Instruction} (h : ins.InRange) (himm : ins.hasImm) :
    signTrunc ins.ims.size ins.ii = ins.ii :=
  (signTrunc_eq_iff ins.ims.size_pos ins.ims.size_bits _).mpr (h himm)

/-- What the bytes of an instruction stand for is the instruction. -/
theorem Linkable.recovers {ins : Instruction} (h : ins.Linkable) (hr : ins.InRange) : Recovers ins ins.stored := by
  have hne : (2 : Fin 4) ≠ 1 := by decide
  have hne' : (3 : Fin 4) ≠ 2 := by decide
  rcases h.osz_cases with h1 | h2 | h3
  · rw [stored_one h1]
    refine ⟨rfl, rfl, fun hosz => absurd h1 hosz, fun hosz => absurd h1 hosz, fun hosz => ?_, fun hosz => ?_, fun himm => ?_⟩
    · rw [h1] at hosz
      cases hosz
    · rw [h1] at hosz
      cases hosz
    · rw [h.imm_one h1] at himm
      cases himm
  · have himm : ins.hasImm ↔ ins.rmd = .imm := by simp [hasImm, h.iea_eq h2]
    rw [stored_two h2]
    by_cases hrmd : ins.rmd = .imm
    · rw [if_pos hrmd]
      refine ⟨rfl, rfl, fun _ => ⟨rfl, rfl, rfl⟩, fun _ hmoved => absurd ⟨h2, hrmd⟩ hmoved, fun _ _ => ⟨?_, rfl⟩,
        fun hosz => ?_, fun himm => hr.signTrunc himm⟩
      · exact (h.ra_eq h2 hrmd).symm
      · rw [h2] at hosz
        exact absurd hosz.symm hne'
    · rw [if_neg hrmd]
      refine ⟨rfl, rfl, fun _ => ⟨rfl, rfl, rfl⟩, fun _ _ => rfl, fun _ hrmd' => absurd hrmd' hrmd, fun hosz => ?_,
        fun hi => absurd (himm.mp hi) hrmd⟩
      rw [h2] at hosz
      exact absurd hosz.symm hne'
  · rw [stored_three h3]
    refine ⟨rfl, rfl, fun _ => ⟨rfl, rfl, rfl⟩, fun _ _ => rfl, fun hosz => ?_, fun _ => ⟨rfl, rfl, rfl, rfl⟩, fun himm => ?_⟩
    · rw [h3] at hosz
      exact absurd hosz hne'
    · exact (if_pos himm).trans (hr.signTrunc himm)

end Instruction

/-- Instructions of the parser are decoded one by one from the first byte that was emitted for them, up to the
    last one. -/
theorem Code.disassemble_recovers {code code' : Code} {seq : List Instruction} (hseq : ∀ ins ∈ seq, ins.Pushed)
    (hrange : ∀ ins ∈ seq, ins.InRange) (h : code.append seq = some code') :
    ∃ decoded, code'.disassemble seq.length code.len = some (decoded, code'.len) ∧
      List.Forall₂ Instruction.Recovers seq decoded := by
  refine ⟨seq.map Instruction.stored, disassemble_append (fun ins hins => (hseq ins hins).linkable.toEncodable) h, ?_⟩
  rw [List.forall₂_map_right_iff, List.forall₂_same]
  exact fun ins hins => (hseq ins hins).linkable.recovers (hrange ins hins)

/-- `push 5` -/
def pushFive : List Token := [wordToken .tokIdentifier ['p', 'u', 's', 'h'], wordToken .tokInteger ['5'] (.int 5)]

theorem Code.disassemble_recovers_pushFive :
    ∃ ins code' decoded, Code.empty.append [ins] = some code' ∧
      code'.disassemble 1 Code.empty.len = some (decoded, code'.len) ∧ List.Forall₂ Instruction.Recovers [ins] decoded := by
  let ins : Instruction := { osz := 2, opc := 13, rmd := .imm, imd := .quad, ii := 5 }
  have hpushed : ins.Pushed := ⟨.init pushFive endRange [] fun _ => 0, (), _, 5, rfl, rfl⟩
  have hrange : ins.InRange := fun _ => by decide
  obtain ⟨decoded, hdecoded, hrec⟩ := @disassemble_recovers .empty ⟨[0x36, 0xE0, 5], by decide⟩ [ins]
    (by simpa using hpushed) (by simpa using hrange) (by decide)
  exact ⟨ins, _, decoded, by decide, hdecoded, hrec⟩

end Cyntatic
