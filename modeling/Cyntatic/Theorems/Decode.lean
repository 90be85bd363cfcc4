import Cyntatic.Vm.Execute

/-! # Encoding and decoding of instructions

`VM_code_append_` and the two decoders, `VM_code_instruction_at` and `VM_fetch`. -/

namespace Cyntatic
open Library

namespace Code

/-- A one-operand instruction with an immediate has the mode in `ra`. -/
def fixMode (ins : Instruction) : Instruction := if ins.rmd = .imm then ins.moveMode else ins

theorem osz_fixMode (ins : Instruction) : (fixMode ins).osz = ins.osz := by
  unfold fixMode
  split <;> rfl

/-- The immediate, if the record has one, is read at an offset: the bytes it takes and the record with it. -/
def readImm (code : Code) (ins : Instruction) (i : Nat) : Option (Nat × Instruction) :=
  if ins.hasImm then
    (code.slice? i ins.ims.size).map fun bs => (ins.ims.size, { ins with ii := leSigned 64 ins.ims.size bs })
  else some (0, ins)

/-- The `n` bytes at an offset are an instruction with the record `ins`. -/
inductive Decodes (code : Code) (i : Nat) : (n : Nat) → (ins : Instruction) → Prop
  | one {b1 : U8} (h1 : code.at? i = some b1) (hosz : (({} : Instruction).setB1 b1).osz = 1) :
      Decodes code i 1 (({} : Instruction).setB1 b1)
  | two {b1 b2 : U8} {n : Nat} {ins : Instruction} (h1 : code.at? i = some b1) (h2 : code.at? (i + 1) = some b2)
      (hosz : (({} : Instruction).setB1 b1).osz = 2)
      (himm : code.readImm (fixMode ((({} : Instruction).setB1 b1).setB2 b2)) (i + 2) = some (n, ins)) :
      Decodes code i (2 + n) ins
  | three {b1 b2 b3 : U8} {n : Nat} {ins : Instruction} (h1 : code.at? i = some b1) (h2 : code.at? (i + 1) = some b2)
      (h3 : code.at? (i + 2) = some b3) (hosz : (({} : Instruction).setB1 b1).osz = 3)
      (himm : code.readImm (((({} : Instruction).setB1 b1).setB2 b2).setB3 b3) (i + 3) = some (n, ins)) :
      Decodes code i (3 + n) ins

theorem lt_len_of_at? {code : Code} {i : Nat} {b : U8} (h : code.at? i = some b) : i < code.len :=
  (List.getElem?_eq_some_iff.mp h).1

theorem at?_of_lt {code : Code} {i : Nat} (h : i < code.len) : ∃ b, code.at? i = some b :=
  ⟨_, List.getElem?_eq_getElem h⟩

theorem slice?_eq_some {code : Code} {i n : Nat} {bs : List U8} (h : code.slice? i n = some bs) :
    i + n ≤ code.len ∧ bs = (code.bytes.drop i).take n := by
  unfold slice? at h
  split at h
  · rename_i hle
    exact ⟨hle, (Option.some.inj h).symm⟩
  · cases h

theorem readImm_le {code : Code} {ins ins' : Instruction} {i n : Nat} (h : code.readImm ins i = some (n, ins'))
    (hi : i ≤ code.len) : i + n ≤ code.len := by
  unfold readImm at h
  split at h
  · obtain ⟨bs, hbs, he⟩ := Option.map_eq_some_iff.mp h
    cases he
    exact (slice?_eq_some hbs).1
  · cases h
    exact hi

/-- A decoded instruction lies in the code. -/
theorem Decodes.le_len {code : Code} {i n : Nat} {ins : Instruction} (h : code.Decodes i n ins) :
    0 < n ∧ i + n ≤ code.len := by
  cases h with
  | one h1 => exact ⟨by decide, lt_len_of_at? h1⟩
  | two h1 h2 _ himm => exact ⟨by omega, by have := readImm_le himm (lt_len_of_at? h2); omega⟩
  | three h1 h2 h3 _ himm => exact ⟨by omega, by have := readImm_le himm (lt_len_of_at? h3); omega⟩

/-! ### The decoder of the tools -/

theorem immediateAt_eq (code : Code) (ims : Mode) (i : Nat) :
    code.immediateAt ims i = (code.slice? i ims.size).map fun bs => (leSigned 64 ims.size bs, i + ims.size) := by
  cases ims <;> rfl

theorem immAt_eq {code : Code} {ins ins' : Instruction} {i j n : Nat} (h : code.readImm ins (i + j) = some (n, ins')) :
    code.immAt ins i (i + j) = some (j + n, ins') := by
  unfold readImm at h
  unfold immAt
  split at h
  · obtain ⟨bs, hbs, he⟩ := Option.map_eq_some_iff.mp h
    cases he
    rename_i himm
    rw [if_pos himm, immediateAt_eq, hbs]
    simp only [Option.map_some, Option.some.injEq, Prod.mk.injEq, and_true]
    omega
  · cases h
    rename_i himm
    rw [if_neg himm]
    simp

theorem instructionAt_of_decodes {code : Code} {i n : Nat} {ins : Instruction} (h : code.Decodes i n ins) :
    code.instructionAt {} i = some (n, ins) := by
  have hlen : code.len < 2 ^ 31 := code.len_lt
  obtain ⟨hpos, hle⟩ := h.le_len
  rw [instructionAt, if_neg (by omega)]
  cases h with
  | one h1 hosz =>
    simp only [h1, Option.bind_some, hosz]
    rw [if_neg (by simp; omega), if_pos (by decide)]
    rfl
  | @two b1 b2 n ins h1 h2 hosz himm =>
    generalize hx : (({} : Instruction).setB1 b1).setB2 b2 = x at himm
    have hosz' : x.osz = 2 := hx ▸ hosz
    have hfix : (if x.osz = 2 ∧ x.rmd = .imm then x.moveMode else x) = fixMode x := by simp only [hosz', true_and, fixMode]
    simp only [h1, h2, Option.bind_some, hosz, hx, hfix]
    rw [if_neg (by simp; omega), if_neg (by decide), if_neg (by rw [osz_fixMode, hosz']; decide)]
    exact immAt_eq himm
  | @three b1 b2 b3 n ins h1 h2 h3 hosz himm =>
    generalize hx : (({} : Instruction).setB1 b1).setB2 b2 = x at himm
    have hosz' : x.osz = 3 := hx ▸ hosz
    have hmove : (if x.osz = 2 ∧ x.rmd = .imm then x.moveMode else x) = x := if_neg (by simp [hosz'])
    simp only [h1, h2, h3, Option.bind_some, hosz, hx, hmove]
    rw [if_neg (by simp; omega), if_neg (by decide), if_pos hosz']
    exact immAt_eq himm

end Code

/-! ### The decoder of the interpreter -/

namespace Vm

/-- The machine with `ip` at an offset. -/
def goto (vm : Vm) (i : Nat) : Vm := vm.setReg .ip (BitVec.ofNat 64 i)

variable {vm : Vm} {i j : Nat}

@[simp] theorem reg_goto : (vm.goto i).reg .ip = BitVec.ofNat 64 i := reg_setReg ..

@[simp] theorem code_goto : (vm.goto i).code = vm.code := rfl

@[simp] theorem goto_setReg : (vm.goto i).setReg .ip (BitVec.ofNat 64 j) = vm.goto j := setReg_setReg ..

theorem goto_eq (h : vm.reg .ip = BitVec.ofNat 64 i) : vm.goto i = vm := by rw [goto, ← h, setReg_reg]

end Vm

namespace VmM
open Prog Code

variable {vm : Vm} {i : Nat} {x ins ins' : Instruction} {b : U8}

theorem nextByte_returns (h : vm.code.at? i = some b) : nextByte.Returns (vm.goto i) b (vm.goto (i + 1)) := by
  have hlt := lt_len_of_at? h
  have hlen : vm.code.len < 2 ^ 31 := vm.code.len_lt
  simp only [nextByte, returns_bind, returns_get, returns_ofOption, returns_pure, setReg, returns_modify]
  refine ⟨_, _, ⟨rfl, rfl⟩, b, _, ⟨?_, rfl⟩, (), _, rfl, rfl, ?_⟩
  · rw [Vm.reg_goto, BitVec.toNat_ofNat, Nat.mod_eq_of_lt (by omega), Vm.code_goto, h]
  · rw [Vm.reg_goto, ← Vm.goto_setReg (i := i), BitVec.ofNat_add]
    rfl

theorem checkCode_returns {n : U64} (k : Nat) (hn : n = BitVec.ofNat 64 k) (h : i + k ≤ vm.code.len) :
    (checkCode n).Returns (vm.goto i) () (vm.goto i) := by
  have hlen : vm.code.len < 2 ^ 31 := vm.code.len_lt
  simp only [checkCode, abortIf, returns_bind, returns_get, returns_stopIf]
  refine ⟨_, _, ⟨rfl, rfl⟩, ?_, rfl⟩
  rw [Vm.reg_goto, Vm.code_goto, hn, BitVec.not_lt, BitVec.le_def, ← BitVec.ofNat_add, BitVec.toNat_ofNat,
    BitVec.toNat_ofNat]
  omega

theorem fetchB3_returns (h : vm.code.at? i = some b) (hosz : x.osz = 3) :
    (fetchB3 x).Returns (vm.goto i) (x.setB3 b) (vm.goto (i + 1)) := by
  rw [fetchB3, if_pos hosz]
  simp only [returns_bind, returns_pure]
  exact ⟨b, _, nextByte_returns h, rfl, rfl⟩

theorem fetchB3_skip (hosz : x.osz ≠ 3) : (fetchB3 x).Returns vm x vm := by
  rw [fetchB3, if_neg hosz, returns_pure]
  exact ⟨rfl, rfl⟩

/-- The immediate of `VM_fetch`, for the record `ins` that `x` becomes when its mode is moved. -/
theorem fetchImm_returns {n : Nat} (hi : i ≤ vm.code.len) (himm : ins.hasImm = x.hasImm)
    (hx : if x.hasImm then (if x.osz = 2 then x.moveMode else x) = ins else x = ins)
    (h : vm.code.readImm ins i = some (n, ins')) : (fetchImm x).Returns (vm.goto i) ins' (vm.goto (i + n)) := by
  have hlen : vm.code.len < 2 ^ 31 := vm.code.len_lt
  rw [readImm, himm] at h
  rw [fetchImm]
  by_cases hi' : x.hasImm
  · rw [if_pos hi'] at h hx ⊢
    obtain ⟨bs, hbs, he⟩ := Option.map_eq_some_iff.mp h
    cases he
    simp only [hx, returns_bind, returns_get, returns_ofOption, returns_pure, setReg, returns_modify]
    refine ⟨_, _, ⟨rfl, rfl⟩, bs, _, ⟨?_, rfl⟩, (), _, rfl, rfl, ?_⟩
    · rw [Vm.reg_goto, BitVec.toNat_ofNat, Nat.mod_eq_of_lt (by omega), Vm.code_goto, hbs]
    · rw [Vm.reg_goto, ← BitVec.ofNat_add, Vm.goto_setReg]
  · rw [if_neg hi'] at h hx ⊢
    cases h
    rw [returns_pure]
    exact ⟨hx.symm, rfl⟩

/-- `VM_fetch` moves `ip` past the instruction. -/
theorem fetch_of_decodes {n : Nat} (h : vm.code.Decodes i n ins) :
    (fetch {}).Returns (vm.goto i) (BitVec.ofNat 64 i, ins) (vm.goto (i + n)) := by
  obtain ⟨hpos, hle⟩ := h.le_len
  simp only [fetch, getReg, returns_bind, returns_get, returns_pure]
  refine ⟨_, _, ⟨_, _, ⟨rfl, rfl⟩, rfl, rfl⟩, (), _, checkCode_returns 1 rfl (by omega), ?_⟩
  rw [Vm.reg_goto]
  cases h with
  | @one b1 h1 hosz =>
    refine ⟨b1, _, nextByte_returns h1, ?_⟩
    rw [if_pos hosz, returns_pure]
    exact ⟨rfl, rfl⟩
  | @two b1 b2 k ins h1 h2 hosz himm =>
    refine ⟨b1, _, nextByte_returns h1, ?_⟩
    rw [if_neg (by rw [hosz]; decide)]
    simp only [returns_bind, returns_pure]
    refine ⟨(), _, checkCode_returns 1 (by rw [hosz]; rfl) (by omega), b2, _, nextByte_returns h2, ?_⟩
    generalize hx : (({} : Instruction).setB1 b1).setB2 b2 = x at himm ⊢
    have hosz' : x.osz = 2 := hx ▸ hosz
    have hiea : x.hasImm = (x.rmd == .imm) := by simp [Instruction.hasImm, ← hx, Instruction.setB1, Instruction.setB2]
    refine ⟨x, _, fetchB3_skip (by rw [hosz']; decide), ins, _, fetchImm_returns (by omega) ?_ ?_ himm, (), _,
      checkCode_returns 0 rfl (by omega), rfl, congrArg vm.goto (by omega)⟩
    · rw [hiea, fixMode]
      split <;> simp_all [Instruction.hasImm, Instruction.moveMode]
    · rw [hosz', if_pos rfl, hiea, fixMode]
      split <;> simp_all
  | @three b1 b2 b3 k ins h1 h2 h3 hosz himm =>
    refine ⟨b1, _, nextByte_returns h1, ?_⟩
    rw [if_neg (by rw [hosz]; decide)]
    simp only [returns_bind, returns_pure]
    refine ⟨(), _, checkCode_returns 2 (by rw [hosz]; rfl) (by omega), b2, _, nextByte_returns h2, _, _,
      fetchB3_returns h3 hosz, ins, _, fetchImm_returns (by omega) rfl ?_ himm, (), _,
      checkCode_returns 0 rfl (by omega), rfl, congrArg vm.goto (by omega)⟩
    split
    · refine if_neg ?_
      change (({} : Instruction).setB1 b1).osz ≠ 2
      rw [hosz]
      decide
    · rfl

end VmM

/-! ### Complete instructions -/

namespace Code

/-- The number of bytes of the instruction at an offset, immediate included, read off its first bytes. -/
def sizeAt? (code : Code) (i : Nat) : Option Nat :=
  (code.at? i).bind fun b1 =>
    let ins := ({} : Instruction).setB1 b1
    match ins.osz with
    | 0 => none
    | 1 => some 1
    | 2 => (code.at? (i + 1)).map fun b2 =>
      let ins := ins.setB2 b2
      2 + if ins.rmd = .imm then (Mode.ofBits ins.ra).size else 0
    | 3 => (code.at? (i + 1)).bind fun b2 => (code.at? (i + 2)).map fun b3 =>
      let ins := (ins.setB2 b2).setB3 b3
      3 + if ins.rmd = .imm ∨ ins.iea then ins.ims.size else 0

/-- An instruction of one of the three sizes lies at an offset, and its last byte is in the code. -/
def Complete (code : Code) (i : Nat) : Prop := ∃ n, code.sizeAt? i = some n ∧ i + n ≤ code.len

theorem exists_readImm {code : Code} (ins : Instruction) {i n : Nat} (hn : n = if ins.hasImm then ins.ims.size else 0)
    (h : i + n ≤ code.len) : ∃ ins', code.readImm ins i = some (n, ins') := by
  unfold readImm
  split at hn
  · rename_i himm
    rw [if_pos himm, slice?, ← hn, if_pos h]
    exact ⟨_, rfl⟩
  · rename_i himm
    rw [if_neg himm, hn]
    exact ⟨_, rfl⟩

theorem size_fixMode (b1 b2 : U8) :
    (if (fixMode ((({} : Instruction).setB1 b1).setB2 b2)).hasImm then
        (fixMode ((({} : Instruction).setB1 b1).setB2 b2)).ims.size else 0) =
      if ((({} : Instruction).setB1 b1).setB2 b2).rmd = .imm then
        (Mode.ofBits ((({} : Instruction).setB1 b1).setB2 b2).ra).size else 0 := by
  have hiea : ((({} : Instruction).setB1 b1).setB2 b2).iea = false := rfl
  unfold fixMode
  split <;> simp_all [Instruction.hasImm, Instruction.moveMode]

theorem Complete.decodes {code : Code} {i : Nat} (h : code.Complete i) : ∃ n ins, code.Decodes i n ins := by
  obtain ⟨n, hn, hle⟩ := h
  obtain ⟨b1, h1, hn⟩ := Option.bind_eq_some_iff.mp hn
  dsimp only at hn
  split at hn
  · cases hn
  · rename_i hosz
    exact ⟨1, _, .one h1 hosz⟩
  · rename_i hosz
    obtain ⟨b2, h2, rfl⟩ := Option.map_eq_some_iff.mp hn
    obtain ⟨ins, himm⟩ := exists_readImm (fixMode ((({} : Instruction).setB1 b1).setB2 b2)) rfl
      (by rw [size_fixMode, Nat.add_assoc]; exact hle)
    exact ⟨_, ins, .two h1 h2 hosz himm⟩
  · rename_i hosz
    obtain ⟨b2, h2, hn⟩ := Option.bind_eq_some_iff.mp hn
    obtain ⟨b3, h3, rfl⟩ := Option.map_eq_some_iff.mp hn
    obtain ⟨ins, himm⟩ := exists_readImm ((({} : Instruction).setB1 b1).setB2 b2 |>.setB3 b3) rfl
      (by rw [Nat.add_assoc]; simpa [Instruction.hasImm] using hle)
    exact ⟨_, ins, .three h1 h2 h3 hosz himm⟩

end Code

/-- `VM_fetch` and `VM_code_instruction_at` give the same record, and the size that one returns is what the
    other adds to `ip`. -/
theorem Code.Complete.fetch_instructionAt {code : Code} {i : Nat} (h : code.Complete i) :
    ∃ n ins, code.instructionAt {} i = some (n, ins) ∧
      ∀ vm : Vm, vm.code = code → vm.reg .ip = BitVec.ofNat 64 i →
        (VmM.fetch {}).Returns vm (BitVec.ofNat 64 i, ins) (vm.setReg .ip (vm.reg .ip + BitVec.ofNat 64 n)) := by
  obtain ⟨n, ins, hd⟩ := h.decodes
  refine ⟨n, ins, instructionAt_of_decodes hd, ?_⟩
  rintro vm rfl hip
  have hf := VmM.fetch_of_decodes hd
  rw [Vm.goto_eq hip, Vm.goto, BitVec.ofNat_add, ← hip] at hf
  rwa [hip] at hf ⊢

/-- A jump to where it lies. -/
theorem fetch_instructionAt_jmp : ∃ n ins, (⟨[0x0E, 0xE0, 0xFE], by decide⟩ : Code).instructionAt {} 0 = some (n, ins) ∧
    ∀ vm : Vm, vm.code = ⟨[0x0E, 0xE0, 0xFE], by decide⟩ → vm.reg .ip = 0 →
      (VmM.fetch {}).Returns vm (0, ins) (vm.setReg .ip (vm.reg .ip + BitVec.ofNat 64 n)) :=
  Code.Complete.fetch_instructionAt ⟨3, rfl, by decide⟩

/-! ### Decoding what was emitted -/

namespace Instruction

/-- What the parser sees to in every instruction: it has a size, a one-operand instruction keeps the mode of
    an immediate in `ra`, and only the last of two operands has an effective address. -/
structure Encodable (ins : Instruction) : Prop where
  osz_ne : ins.osz ≠ 0
  ra_eq : ins.osz = 2 → ins.rmd = .imm → ins.ra.val = ins.ims.toNat
  iea_eq : ins.osz = 2 → ins.iea = false

theorem emit_one {ins : Instruction} (hosz : ins.osz = 1) : ins.emit = some [ins.b1] := by
  simp [emit, head, hosz]

theorem Encodable.emit_two {ins : Instruction} (henc : ins.Encodable) (hosz : ins.osz = 2) :
    ins.emit = some ([ins.b1, ins.b2] ++ if ins.rmd = .imm then leBytes ins.ims.size ins.ii else []) := by
  have himm : ins.hasImm = (ins.rmd == .imm) := by simp [hasImm, henc.iea_eq hosz]
  by_cases hrmd : ins.rmd = .imm
  · simp [emit, head, emitMode, hosz, himm, hrmd, henc.ra_eq hosz hrmd]
  · simp [emit, head, hosz, himm, hrmd]

theorem emit_three {ins : Instruction} (hosz : ins.osz = 3) :
    ins.emit = some ([ins.b1, ins.b2, ins.b3] ++ if ins.hasImm then leBytes ins.ims.size ins.ii else []) := by
  have hval : (3 : Fin 4).val = 3 := rfl
  by_cases himm : ins.hasImm <;> simp [emit, head, emitMode, hosz, hval, himm]

/-- The record that the bytes of an instruction stand for. -/
def stored (ins : Instruction) : Instruction :=
  match ins.osz with
  | 0 => {}
  | 1 => { osz := ins.osz, opc := ins.opc }
  | 2 =>
    if ins.rmd = .imm then
      { osz := ins.osz, opc := ins.opc, iam := ins.iam, rmd := ins.rmd, imd := ins.imd, ims := ins.ims
        ii := signTrunc ins.ims.size ins.ii }
    else { osz := ins.osz, opc := ins.opc, ra := ins.ra, iam := ins.iam, rmd := ins.rmd, imd := ins.imd }
  | 3 => { ins with ii := if ins.hasImm then signTrunc ins.ims.size ins.ii else 0 }

theorem emitAll_cons {ins : Instruction} {seq : List Instruction} {bs : List U8} (h : emitAll (ins :: seq) = some bs) :
    ∃ b, ins.emit = some b ∧ ∃ rest, emitAll seq = some rest ∧ bs = b ++ rest := by
  obtain ⟨b, hb, h⟩ := Option.bind_eq_some_iff.mp h
  obtain ⟨rest, hrest, h⟩ := Option.bind_eq_some_iff.mp h
  exact ⟨b, hb, rest, hrest, (Option.some.inj h).symm⟩

theorem Encodable.osz_cases {ins : Instruction} (h : ins.Encodable) : ins.osz = 1 ∨ ins.osz = 2 ∨ ins.osz = 3 := by
  have hall : ∀ o : Fin 4, o ≠ 0 → o = 1 ∨ o = 2 ∨ o = 3 := by decide
  exact hall _ h.osz_ne

theorem stored_one {ins : Instruction} (hosz : ins.osz = 1) : ins.stored = { osz := ins.osz, opc := ins.opc } := by
  simp only [stored, hosz]

theorem stored_two {ins : Instruction} (hosz : ins.osz = 2) :
    ins.stored =
      if ins.rmd = .imm then
        { osz := ins.osz, opc := ins.opc, iam := ins.iam, rmd := ins.rmd, imd := ins.imd, ims := ins.ims
          ii := signTrunc ins.ims.size ins.ii }
      else { osz := ins.osz, opc := ins.opc, ra := ins.ra, iam := ins.iam, rmd := ins.rmd, imd := ins.imd } := by
  simp only [stored, hosz]

theorem stored_three {ins : Instruction} (hosz : ins.osz = 3) :
    ins.stored = { ins with ii := if ins.hasImm then signTrunc ins.ims.size ins.ii else 0 } := by
  simp only [stored, hosz]

end Instruction

namespace Code

theorem at?_append {code : Code} {pre bs post : List U8} (hc : code.bytes = pre ++ bs ++ post) {k : Nat} (hk : k < bs.length) :
    code.at? (pre.length + k) = bs[k]? := by
  rw [at?, hc, List.append_assoc, List.getElem?_append_right (by omega), Nat.add_sub_cancel_left,
    List.getElem?_append_left hk]

theorem slice?_append {code : Code} {pre bs post : List U8} (hc : code.bytes = pre ++ bs ++ post) :
    code.slice? pre.length bs.length = some bs := by
  rw [slice?, if_pos (by rw [len, hc]; simp), hc, List.append_assoc, List.drop_left, List.take_left]

/-- Reading an immediate that was emitted. -/
theorem readImm_append {code : Code} {ins : Instruction} {pre post : List U8} {v : U64} (hins : ins.ii = 0)
    (hc : code.bytes = pre ++ (if ins.hasImm then leBytes ins.ims.size v else []) ++ post) :
    code.readImm ins pre.length =
      some (if ins.hasImm then ins.ims.size else 0,
        { ins with ii := if ins.hasImm then signTrunc ins.ims.size v else 0 }) := by
  unfold readImm
  split
  · rename_i himm
    rw [if_pos himm] at hc
    have hs := slice?_append hc
    rw [length_leBytes] at hs
    rw [hs, Option.map_some, leSigned_leBytes]
  · rw [← hins]

theorem readImm_emit {code : Code} {ins x : Instruction} {pre h post : List U8} {v : U64} {p : Prop} [Decidable p]
    (hx : x.ii = 0) (himm : x.hasImm ↔ p)
    (hc : code.bytes = pre ++ (h ++ if p then leBytes x.ims.size v else []) ++ post)
    (hins : { x with ii := if p then signTrunc x.ims.size v else 0 } = ins) :
    code.readImm x (pre.length + h.length) = some ((if p then leBytes x.ims.size v else []).length, ins) := by
  rw [← List.length_append]
  rw [@readImm_append code x (pre ++ h) post v hx (by simp only [hc, himm]; simp)]
  simp only [himm, hins]
  split <;> simp

/-- An instruction that was emitted. -/
theorem decodes_emit {code : Code} {ins : Instruction} {pre bs post : List U8} (henc : ins.Encodable)
    (hemit : ins.emit = some bs) (hc : code.bytes = pre ++ bs ++ post) :
    code.Decodes pre.length bs.length ins.stored := by
  have hb1 := Instruction.setB1_b1 {} ins
  rcases henc.osz_cases with hosz | hosz | hosz
  · rw [Instruction.emit_one hosz] at hemit
    obtain rfl := Option.some.inj hemit
    have h1 : code.at? pre.length = some ins.b1 := at?_append hc (k := 0) (by simp)
    have hd := Decodes.one h1 (by rw [hb1]; exact hosz)
    rw [hb1] at hd
    rw [Instruction.stored_one hosz]
    exact hd
  · rw [henc.emit_two hosz] at hemit
    obtain rfl := Option.some.inj hemit
    have h1 : code.at? pre.length = some ins.b1 := at?_append hc (k := 0) (by simp)
    have h2 : code.at? (pre.length + 1) = some ins.b2 := at?_append hc (k := 1) (by simp)
    rw [List.length_append]
    refine .two h1 h2 (by rw [hb1]; exact hosz) ?_
    rw [hb1, Instruction.setB2_b2, Instruction.stored_two hosz]
    by_cases hrmd : ins.rmd = .imm
    · -- The mode moves from `ra` back to `ims`.
      have hims : Mode.ofBits ins.ra = ins.ims := by rw [henc.ra_eq hosz hrmd, Mode.ofBits_toNat]
      have hfix : fixMode { osz := ins.osz, opc := ins.opc, ra := ins.ra, iam := ins.iam, rmd := ins.rmd, imd := ins.imd } =
          { osz := ins.osz, opc := ins.opc, iam := ins.iam, rmd := ins.rmd, imd := ins.imd, ims := ins.ims } := by
        simp only [fixMode, hrmd, if_true, Instruction.moveMode, hims]
      rw [hfix]
      refine readImm_emit (h := [ins.b1, ins.b2]) rfl ?_ hc ?_
      · simp [Instruction.hasImm]
      · simp only [if_pos hrmd]
    · have hfix : fixMode { osz := ins.osz, opc := ins.opc, ra := ins.ra, iam := ins.iam, rmd := ins.rmd, imd := ins.imd } =
          { osz := ins.osz, opc := ins.opc, ra := ins.ra, iam := ins.iam, rmd := ins.rmd, imd := ins.imd } := if_neg hrmd
      rw [hfix, if_neg hrmd, if_neg hrmd, readImm, if_neg (by simp [Instruction.hasImm, hrmd])]
      rfl
  · rw [Instruction.emit_three hosz] at hemit
    obtain rfl := Option.some.inj hemit
    have h1 : code.at? pre.length = some ins.b1 := at?_append hc (k := 0) (by simp)
    have h2 : code.at? (pre.length + 1) = some ins.b2 := at?_append hc (k := 1) (by simp)
    have h3 : code.at? (pre.length + 2) = some ins.b3 := at?_append hc (k := 2) (by simp)
    rw [List.length_append]
    refine .three h1 h2 h3 (by rw [hb1]; exact hosz) ?_
    rw [hb1, Instruction.setB2_b2, Instruction.setB3_b3]
    exact readImm_emit (h := [ins.b1, ins.b2, ins.b3]) rfl (by simp [Instruction.hasImm]) hc
      (Instruction.stored_three hosz).symm

/-- Emitted instructions are decoded one by one, and the last ends where the code ends. -/
theorem disassemble_emitAll {code : Code} {seq : List Instruction} (henc : ∀ ins ∈ seq, ins.Encodable)
    {pre bs : List U8} (hemit : Instruction.emitAll seq = some bs) (hc : code.bytes = pre ++ bs) :
    code.disassemble seq.length pre.length = some (seq.map Instruction.stored, code.len) := by
  induction seq generalizing pre bs with
  | nil =>
    obtain rfl := Option.some.inj hemit
    rw [List.append_nil] at hc
    have hlen : ¬pre.length < code.len := by rw [len, hc]; omega
    rw [List.length_nil, disassemble, if_neg hlen, len, hc]
    rfl
  | cons ins seq ih =>
    obtain ⟨b, hb, rest, hrest, rfl⟩ := Instruction.emitAll_cons hemit
    have hd := @decodes_emit code ins pre b rest (henc ins (List.mem_cons_self ..)) hb (by simpa using hc)
    have hle := hd.le_len
    have hcode : code.bytes = (pre ++ b) ++ rest := by simpa using hc
    have htail := ih (fun x hx => henc x (List.mem_cons_of_mem _ hx)) hrest hcode
    rw [List.length_append] at htail
    rw [List.length_cons, disassemble, if_pos (by omega), instructionAt_of_decodes hd]
    simp only [Option.bind_eq_bind, Option.bind_some]
    rw [if_neg (by omega), htail]
    rfl

theorem append_eq_some {code code' : Code} {seq : List Instruction} (h : code.append seq = some code') :
    ∃ bs, Instruction.emitAll seq = some bs ∧ code'.bytes = code.bytes ++ bs := by
  obtain ⟨bs, hbs, hpush⟩ := Option.bind_eq_some_iff.mp h
  unfold push at hpush
  split at hpush
  · obtain rfl := Option.some.inj hpush
    exact ⟨bs, hbs, rfl⟩
  · cases hpush

/-- The code after `VM_code_append_` is decoded to what the appended instructions stand for. -/
theorem disassemble_append {code code' : Code} {seq : List Instruction} (henc : ∀ ins ∈ seq, ins.Encodable)
    (h : code.append seq = some code') :
    code'.disassemble seq.length code.len = some (seq.map Instruction.stored, code'.len) := by
  obtain ⟨bs, hbs, hc⟩ := append_eq_some h
  exact disassemble_emitAll henc hbs hc

end Code

end Cyntatic
