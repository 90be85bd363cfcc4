import Cyntatic.Theorems.Codegen

/-! # Code generation for relations

What is in `flg` after the code for `<`, `<=`, `>` or `>=`. Every comparison sets `flg` anew, so that where cases of the
generator run into each other only the last of them counts, and it has the right operand first. -/

namespace Cyntatic
open Library

/-- The relation that an operator stands for, between signed numbers. -/
def relation : TokenKind → U64 → U64 → Prop
  | .tokLt, a, b => a.toInt < b.toInt
  | .tokLte, a, b => a.toInt ≤ b.toInt
  | .tokGt, a, b => b.toInt < a.toInt
  | .tokGte, a, b => b.toInt ≤ a.toInt
  | _, _, _ => False

/-- The low byte of a number, as a signed number. -/
def lowByte (a : U64) : Int := (signTrunc 1 a).toInt

/-- The low bytes of two numbers are in the order that makes the code right about the numbers. -/
def OrderKept : TokenKind → U64 → U64 → Prop
  | .tokLt, a, b => lowByte a < lowByte b ↔ a.toInt < b.toInt
  | .tokLte, a, b => lowByte a < lowByte b ↔ a.toInt ≤ b.toInt
  | .tokGt, a, b => lowByte a < lowByte b ↔ b.toInt < a.toInt
  | .tokGte, a, b => lowByte a ≤ lowByte b ↔ b.toInt ≤ a.toInt
  | _, _, _ => False

/-- What `cmp` sets `flg` to. -/
def compared (a b : U64) : U64 := if a = b then flgZero else if a.slt b then flgLess else flgGreater

/-- `flg` after `cmp` and `band`. -/
def masked (m a b : U64) : U64 := mergeLow 1 (compared a b) (signTrunc 1 (compared a b) &&& m)

theorem compared_cases (a b : U64) : a = b ∧ compared a b = flgZero ∨ a.toInt < b.toInt ∧ compared a b = flgLess ∨
    b.toInt < a.toInt ∧ compared a b = flgGreater := by
  rw [compared]
  by_cases heq : a = b
  · exact .inl ⟨heq, if_pos heq⟩
  have hne : a.toInt ≠ b.toInt := fun h => heq (BitVec.eq_of_toInt_eq h)
  rw [if_neg heq, BitVec.slt_eq_decide]
  by_cases hlt : a.toInt < b.toInt
  · exact .inr (.inl ⟨hlt, if_pos (decide_eq_true hlt)⟩)
  · exact .inr (.inr ⟨by omega, if_neg (by simpa using hlt)⟩)

theorem masked_greater (a b : U64) : masked flgGreater a b ≠ 0 ↔ b.toInt < a.toInt := by
  rw [masked]
  rcases compared_cases a b with ⟨rfl, h⟩ | ⟨hlt, h⟩ | ⟨hlt, h⟩
  · rw [h]
    exact iff_of_false (by decide) (by omega)
  · rw [h]
    exact iff_of_false (by decide) (by omega)
  · rw [h]
    exact iff_of_true (by decide) hlt

theorem masked_greaterZero (a b : U64) : masked (flgGreater ||| flgZero) a b ≠ 0 ↔ b.toInt ≤ a.toInt := by
  rw [masked]
  rcases compared_cases a b with ⟨rfl, h⟩ | ⟨hlt, h⟩ | ⟨hlt, h⟩
  · rw [h]
    exact iff_of_true (by decide) (by omega)
  · rw [h]
    exact iff_of_false (by decide) (by omega)
  · rw [h]
    exact iff_of_true (by decide) (by omega)

namespace VmM
open Prog
variable {host : Host} {vm : Vm} {iip : U64}

variable (host vm iip) in
theorem execute_cmp : (execute host (binaryIns .cmp (rRa .r5) (rRb .r4)).stored iip).Returns vm ()
    (vm.setReg .flg (compared (signTrunc 1 (vm.reg .r5)) (signTrunc 1 (vm.reg .r4)))) := by
  refine execute_returns.mpr ⟨_, _, operands_binary, ?_⟩
  exact returns_bind.mpr ⟨_, _, read_byte, returns_bind.mpr ⟨_, _, read_byte, setReg_returns.mpr rfl⟩⟩

variable (host vm iip) in
theorem execute_band (m : U64) : (execute host (binaryIns .band (rRa .flg) (xIMb .quad m)).stored iip).Returns vm ()
    (vm.setReg .flg (mergeLow 1 (vm.reg .flg) (signTrunc 1 (vm.reg .flg) &&& m))) := by
  refine execute_returns.mpr ⟨.reg 9, .imm, returns_pure.mpr ⟨rfl, rfl⟩, ?_⟩
  refine returns_bind.mpr ⟨_, _, read_byte (r := .flg), returns_bind.mpr ⟨m, vm, ?_, write_byte _ .flg _⟩⟩
  refine read_returns.mpr ⟨trivial, ?_, rfl⟩
  change m = signTrunc 8 (signTrunc 8 m)
  rw [signTrunc_full (by decide), signTrunc_full (by decide)]

end VmM

section
open Prog
variable {vm : Vm} {i j : Nat} {seq : List Instruction}

/-- A comparison, and then the rest: the operands are still there, and `flg` is new. -/
theorem settles_compareIns (host : Host) {m : U64} (h : vm.code.Holds i (compareIns m ++ seq) j) (hip : vm.reg .ip = BitVec.ofNat 64 i) :
    ∃ k t, t.code.Holds k seq j ∧ t.reg .ip = BitVec.ofNat 64 k ∧ t.reg .r5 = vm.reg .r5 ∧ t.reg .r4 = vm.reg .r4 ∧
      t.reg .flg = masked m (signTrunc 1 (vm.reg .r5)) (signTrunc 1 (vm.reg .r4)) ∧
      ∀ {x : Option U64} {Q : U64 → Unit → Vm → Prop}, Settles (VmM.steps host seq.length) t x Q →
        Settles (VmM.steps host (compareIns m ++ seq).length) vm x Q := by
  obtain ⟨k, hk, hcmp⟩ := settles_cons h hip
  have h5 : (vm.goto k).reg .r5 = vm.reg .r5 := Vm.reg_goto_of_ne _ _ (by decide)
  have h4 : (vm.goto k).reg .r4 = vm.reg .r4 := Vm.reg_goto_of_ne _ _ (by decide)
  have hexec := VmM.execute_cmp host (vm.goto k) (BitVec.ofNat 64 i)
  rw [h5, h4] at hexec
  generalize hc : compared (signTrunc 1 (vm.reg .r5)) (signTrunc 1 (vm.reg .r4)) = c at hexec
  let s := (vm.goto k).setReg .flg c
  have hip' : s.reg .ip = BitVec.ofNat 64 k := by rw [Vm.reg_setReg_of_ne _ _ (by decide), Vm.reg_goto]
  have hsame {r : Register} (hr : r ≠ .flg) (hr' : r ≠ .ip) : s.reg r = vm.reg r := by
    rw [Vm.reg_setReg_of_ne _ _ hr, Vm.reg_goto_of_ne _ _ hr']
  obtain ⟨k', hk', hband⟩ := settles_cons (show s.code.Holds k _ j from hk) hip'
  have hflg : (s.goto k').reg .flg = c := by rw [Vm.reg_goto_of_ne _ _ (by decide), Vm.reg_setReg]
  have hexec' := VmM.execute_band host (s.goto k') (BitVec.ofNat 64 k) m
  rw [hflg] at hexec'
  refine ⟨k', (s.goto k').setReg .flg (mergeLow 1 c (signTrunc 1 c &&& m)), hk', ?_, ?_, ?_, ?_,
    fun hrest => hcmp hexec (hband hexec' hrest)⟩
  · rw [Vm.reg_setReg_of_ne _ _ (by decide), Vm.reg_goto]
  · rw [Vm.reg_setReg_of_ne _ _ (by decide), Vm.reg_goto_of_ne _ _ (by decide), hsame (by decide) (by decide)]
  · rw [Vm.reg_setReg_of_ne _ _ (by decide), Vm.reg_goto_of_ne _ _ (by decide), hsame (by decide) (by decide)]
  · rw [Vm.reg_setReg, masked, hc]

/-- Of some comparisons only the last one counts. -/
theorem settles_masks (host : Host) {ms : List U64} {m : U64} (h : vm.code.Holds i ((ms ++ [m]).flatMap compareIns) j)
    (hip : vm.reg .ip = BitVec.ofNat 64 i) :
    Settles (VmM.steps host ((ms ++ [m]).flatMap compareIns).length) vm
      (some (masked m (signTrunc 1 (vm.reg .r5)) (signTrunc 1 (vm.reg .r4)))) fun x _ vm' => vm'.reg .flg = x := by
  induction ms generalizing vm i with
  | nil =>
    obtain ⟨k, t, -, -, -, -, hflg, hrun⟩ := settles_compareIns host (show vm.code.Holds i (compareIns m ++ []) j from h) hip
    exact hrun (settles_of_returns (returns_pure.mpr ⟨rfl, rfl⟩) hflg)
  | cons m' ms ih =>
    obtain ⟨k, t, hk, hip', h5, h4, -, hrun⟩ := settles_compareIns host h hip
    have hrest := ih hk hip'
    rw [h5, h4] at hrest
    exact hrun hrest

/-- The comparison that counts. -/
theorem exists_masks {op : TokenKind} (hop : op ∈ [TokenKind.tokLt, .tokLte, .tokGt, .tokGte]) : ∃ ms m,
    binaryOp? op = some ((ms ++ [m]).flatMap compareIns) ∧ ∀ a b : U64,
      (masked m (signTrunc 1 b) (signTrunc 1 a) ≠ 0 ↔ relation op a b) ↔ OrderKept op a b := by
  simp only [List.mem_cons, List.not_mem_nil, or_false] at hop
  rcases hop with rfl | rfl | rfl | rfl
  · exact ⟨[flgLess, flgLess ||| flgZero], flgGreater, rfl, fun a b => by rw [masked_greater]; exact Iff.rfl⟩
  · exact ⟨[flgLess ||| flgZero], flgGreater, rfl, fun a b => by rw [masked_greater]; exact Iff.rfl⟩
  · exact ⟨[], flgGreater, rfl, fun a b => by rw [masked_greater]; exact Iff.rfl⟩
  · exact ⟨[], flgGreater ||| flgZero, rfl, fun a b => by rw [masked_greaterZero]; exact Iff.rfl⟩

end

theorem Builder.appendAll_eq (cb : Builder) (seq : List Instruction) :
    cb.appendAll seq = { cb with instructions := cb.instructions ++ seq } := by
  induction seq generalizing cb with
  | nil => exact congrArg (fun l => { cb with instructions := l }) (List.append_nil _).symm
  | cons ins seq ih =>
    rw [appendAll, List.foldl_cons, ← appendAll, ih]
    exact congrArg (fun l => { cb with instructions := l }) (List.append_assoc ..)

/-- The code that is generated for a relation between two literals leaves `flg` non-zero just when the relation holds, if
    and only if the low bytes are in the order that makes it so. -/
theorem AstNode.generateCyn_relation {op : TokenKind} (hop : op ∈ [TokenKind.tokLt, .tokLte, .tokGt, .tokGte]) (a b : U64)
    (cb : Builder) : ∃ seq bs, (binaryExpr op (.integerLit a) (.integerLit b)).generateCyn cb =
      some { cb with instructions := cb.instructions ++ seq } ∧ Instruction.emitAll seq = some bs ∧
      ∀ (host : Host) (vm : Vm) (pre post : List U8), vm.code.bytes = pre ++ bs ++ post →
        vm.reg .ip = BitVec.ofNat 64 pre.length → vm.HasStack 1 →
        ∃ vm', (VmM.steps host seq.length).Returns vm () vm' ∧
          ((vm'.reg .flg ≠ 0 ↔ relation op a b) ↔ OrderKept op a b) := by
  obtain ⟨ms, m, hins, hkept⟩ := exists_masks hop
  let node : AstNode := binaryExpr op (.integerLit a) (.integerLit b)
  obtain ⟨bs, hbs⟩ := Instruction.exists_emitAll fun ins (h : ins ∈ node.arithCode) => encodable_arith h
  refine ⟨node.arithCode, bs, ?_, hbs, fun host vm pre post hcode hip hstack => ?_⟩
  · simp [node, generateCyn, arithCode, hins, Builder.appendInstruction, Builder.appendAll_eq]
  have hholds := Code.holds_of_emitAll (fun ins h => encodable_arith h) hbs hcode
  have hseq : node.arithCode = (integerLit a).arithCode ++ unaryIns .push (rRa .r5) ::
      ((integerLit b).arithCode ++ unaryIns .pop (rRa .r4) :: (ms ++ [m]).flatMap compareIns) := by
    rw [← Option.getD_some (a := (ms ++ [m]).flatMap compareIns) (b := []), ← hins]
    rfl
  rw [hseq] at hholds ⊢
  have hrun := settles_operands (runs_arith host rfl) (runs_arith host rfl) hholds hip hstack
    (f := fun x y => some (masked m y x)) (Q := fun f _ vm' => vm'.reg .flg = f)
    fun x y q k hx hy hq hlast h4 => by
      have hmasks := settles_masks host hlast hq.ip
      rw [hq.byte hy, h4] at hmasks
      exact hmasks
  obtain ⟨⟨⟩, vm', hr, hflg⟩ := hrun
  refine ⟨vm', hr, ?_⟩
  rw [hflg]
  exact hkept a b

/-- A machine with an empty stack at the code of a relation between two literals. -/
def relationVm (op : TokenKind) (a b : U64) : Vm := arithVm (.binaryExpr op (.integerLit a) (.integerLit b))

/-- `3 < 5` -/
theorem AstNode.generateCyn_relation_less : ∃ cb vm', (binaryExpr .tokLt (.integerLit 3) (.integerLit 5)).generateCyn {} = some cb ∧
    Instruction.emitAll cb.instructions = some (relationVm .tokLt 3 5).code.bytes ∧
    (VmM.steps .idle cb.instructions.length).Returns (relationVm .tokLt 3 5) () vm' ∧ vm'.reg .flg ≠ 0 := by
  obtain ⟨seq, bs, hgen, hbs, hrun⟩ := @generateCyn_relation .tokLt (by decide) 3 5 {}
  have hseq : seq = (binaryExpr .tokLt (.integerLit 3) (.integerLit 5)).arithCode :=
    congrArg Builder.instructions (Option.some.inj hgen.symm)
  have hcode : Instruction.emitAll seq = some (relationVm .tokLt 3 5).code.bytes := by
    rw [hseq]
    decide
  have hbytes : (relationVm .tokLt 3 5).code.bytes = bs := Option.some.inj (hcode.symm.trans hbs)
  obtain ⟨vm', hr, hflg⟩ := hrun .idle (relationVm .tokLt 3 5) [] [] (by rw [hbytes, List.nil_append, List.append_nil]) rfl
    fun _ => by decide
  have hless : (3 : U64).toInt < (5 : U64).toInt := by decide
  have hkept : OrderKept .tokLt 3 5 := iff_of_true (show lowByte 3 < lowByte 5 by decide) hless
  exact ⟨_, vm', hgen, hcode, hr, (hflg.mpr hkept).mpr hless⟩

/-- `5 > 3` leaves zero in `flg`. -/
theorem AstNode.greater_not_generated : ∃ cb vm', (binaryExpr .tokGt (.integerLit 5) (.integerLit 3)).generateCyn {} = some cb ∧
    Instruction.emitAll cb.instructions = some (relationVm .tokGt 5 3).code.bytes ∧ (relationVm .tokGt 5 3).HasStack 1 ∧
    (VmM.steps .idle cb.instructions.length).Returns (relationVm .tokGt 5 3) () vm' ∧ vm'.reg .flg = 0 ∧
    relation .tokGt 5 3 := by
  obtain ⟨⟨⟩, vm', hr, hflg⟩ := Prog.exists_of_passes (m := VmM.steps .idle 6) (s := relationVm .tokGt 5 3)
    (p := fun _ vm' => vm'.reg .flg = 0) (by decide +kernel)
  exact ⟨_, vm', rfl, by decide, fun _ => by decide, hr, of_decide_eq_true hflg, show (3 : U64).toInt < (5 : U64).toInt by decide⟩

end Cyntatic
