import Cyntatic.Theorems.Logic
import Cyntatic.Theorems.Relations

/-! # Running the code for `&&` and `||`

When the code that is generated for a logical expression leaves out the right operand, when it evaluates it, and what it
leaves in `r5`. -/

namespace Cyntatic
open Library

/-- The left operand decides the result. -/
def Decides : TokenKind → U64 → Prop
  | .tokAnd, v => v = 0
  | .tokOr, v => v ≠ 0
  | _, _ => False

/-- The expression is true, for the value of the left operand. -/
def IsTrue (op : TokenKind) (v : U64) (r : AstNode) : Prop :=
  Decides op v ∧ v ≠ 0 ∨ ¬Decides op v ∧ ∃ w, r.value = some w ∧ w ≠ 0

/-- The code from `i` to `j` does what a logical expression is for: it evaluates the left operand and jumps just when that
    decides the result. The jump is to the end; what follows it is the code of the right operand, between a push and a pop;
    and at the end `r5` is not zero just when the expression is true. -/
def ShortCircuits (host : Host) (op : TokenKind) (jump opc : OpCode) (l r : AstNode) (v : U64) (vm : Vm) (i j : Nat) : Prop :=
  ∃ k s t, vm.code.Holds i (l.arithCode ++ [binaryIns .cmp (rRa .r5) (xIMb .byte 0)]) k ∧
    (VmM.steps host (jumpIndex l)).Returns vm () s ∧ s.reg .ip = BitVec.ofNat 64 k ∧
    (VmM.steps host 1).Returns s () t ∧ (s.Takes jump ↔ Decides op v) ∧
    (Decides op v → t.reg .ip = BitVec.ofNat 64 j ∧ (t.reg .r5 ≠ 0 ↔ IsTrue op v r)) ∧
    (¬Decides op v → ∃ k u, t.reg .ip = BitVec.ofNat 64 k ∧ t.code.Holds k (rerun r opc) j ∧
      (VmM.steps host (rerun r opc).length).Returns t () u ∧ u.reg .ip = BitVec.ofNat 64 j ∧
      (u.reg .r5 ≠ 0 ↔ IsTrue op v r))

namespace Code
variable {code : Code} {i j n m : Nat} {ins ins' : Instruction} {seq seq' : List Instruction}

theorem readImm_size {x : Instruction} (h : code.readImm x i = some (n, ins)) : ins.linkSize = x.osz + n := by
  unfold readImm at h
  split at h
  · rename_i himm
    obtain ⟨bs, -, heq⟩ := Option.map_eq_some_iff.mp h
    cases heq
    have : x.rmd = .imm ∨ x.iea := by simpa [Instruction.hasImm] using himm
    rw [Instruction.linkSize, if_pos this]
  · rename_i himm
    cases h
    have : ¬(ins.rmd = .imm ∨ ins.iea) := by simpa [Instruction.hasImm] using himm
    rw [Instruction.linkSize, if_neg this]

/-- The bytes of an instruction are as many as its record says. -/
theorem Decodes.size_eq (h : code.Decodes i n ins) : n = ins.linkSize := by
  cases h with
  | one h1 hosz =>
    rw [Instruction.linkSize, hosz]
    rfl
  | @two b1 b2 n ins h1 h2 hosz himm =>
    have hx : (fixMode ((({} : Instruction).setB1 b1).setB2 b2)).osz = 2 := (osz_fixMode _).trans hosz
    rw [readImm_size himm, hx]
    rfl
  | @three b1 b2 b3 n ins h1 h2 h3 hosz himm =>
    have hx : (((({} : Instruction).setB1 b1).setB2 b2).setB3 b3).osz = 3 := hosz
    rw [readImm_size himm, hx]
    rfl

theorem Decodes.unique (h : code.Decodes i n ins) (h' : code.Decodes i m ins') : n = m ∧ ins = ins' :=
  Prod.mk.inj (Option.some.inj ((instructionAt_of_decodes h).symm.trans (instructionAt_of_decodes h')))

theorem Holds.le_len (h : code.Holds i seq j) (hi : i ≤ code.len) : i ≤ j ∧ j ≤ code.len := by
  induction h with
  | nil => exact ⟨Nat.le_refl _, hi⟩
  | cons h _ ih =>
    have := ih h.le_len.2
    omega

/-- The instructions between two offsets. -/
theorem Holds.unique (h : code.Holds i seq j) (h' : code.Holds i seq' j) :
    seq.map Instruction.stored = seq'.map Instruction.stored := by
  induction h generalizing seq' with
  | nil =>
    cases h' with
    | nil => rfl
    | cons h hs =>
      have hpos := h.le_len
      have := (hs.le_len hpos.2).1
      omega
  | @cons i n j ins seq h hs ih =>
    cases h' with
    | nil =>
      have hpos := h.le_len
      have := (hs.le_len hpos.2).1
      omega
    | @cons _ m _ ins' seq' h' hs' =>
      obtain ⟨rfl, hins⟩ := h.unique h'
      rw [List.map_cons, List.map_cons, hins, ih hs']

theorem linkSize_stored (h : ins.Linkable) : ins.stored.linkSize = ins.linkSize := by
  rcases h.toEncodable.osz_cases with hosz | hosz | hosz
  · have himm : ¬(ins.rmd = .imm ∨ ins.iea) := by simpa [Instruction.hasImm] using h.imm_one hosz
    rw [Instruction.stored_one hosz, Instruction.linkSize, Instruction.linkSize, if_neg himm]
    rfl
  · have hiea := h.iea_eq hosz
    rw [Instruction.stored_two hosz]
    by_cases hrmd : ins.rmd = .imm
    · simp [hrmd, Instruction.linkSize]
    · simp [hrmd, hiea, Instruction.linkSize]
  · rw [Instruction.stored_three hosz]
    rfl

theorem Holds.size_eq (h : code.Holds i seq j) (hlink : ∀ ins ∈ seq, ins.Linkable) :
    j = i + (seq.map Instruction.linkSize).sum := by
  induction h with
  | nil => rfl
  | cons h _ ih =>
    rw [List.forall_mem_cons] at hlink
    rw [ih hlink.2, h.size_eq, linkSize_stored hlink.1, List.map_cons, List.sum_cons, Nat.add_assoc]

end Code

namespace VmM
open Prog
variable {host : Host} {vm : Vm} {iip : U64} {op : TokenKind} {jump opc : OpCode}

theorem execute_cmpZero : (execute host (binaryIns .cmp (rRa .r5) (xIMb .byte 0)).stored iip).Returns vm ()
    (vm.setReg .flg (compared (signTrunc 1 (vm.reg .r5)) 0)) := by
  refine execute_returns.mpr ⟨.reg 5, .imm, returns_pure.mpr ⟨rfl, rfl⟩, ?_⟩
  refine returns_bind.mpr ⟨_, _, read_byte (r := .r5), returns_bind.mpr ⟨0, vm, ?_, setReg_returns.mpr rfl⟩⟩
  exact read_returns.mpr ⟨trivial, rfl, rfl⟩

/-- The jump, when it is taken and when it is not. -/
theorem execute_logicJump (hop : logicOp? op = some (jump, opc)) (t : U64) :
    (vm.Takes jump → (execute host (unaryIns jump (xIMb .byte t)).stored iip).Returns vm ()
      (vm.setReg .ip (iip + signTrunc 1 t))) ∧
    (¬vm.Takes jump → (execute host (unaryIns jump (xIMb .byte t)).stored iip).Returns vm () vm) := by
  have hops (o : OpCode) : (operands (unaryIns o (xIMb .byte t)).stored).Returns vm (.imm, .null) vm :=
    returns_pure.mpr ⟨rfl, rfl⟩
  have hjump (o : OpCode) : (VmM.jump (unaryIns o (xIMb .byte t)).stored .imm .byte iip).Returns vm ()
      (vm.setReg .ip (iip + signTrunc 1 t)) := by
    refine returns_bind.mpr ⟨_, vm, read_returns.mpr ⟨trivial, rfl, rfl⟩, setReg_returns.mpr ?_⟩
    change _ = vm.setReg .ip (iip + signTrunc 1 (signTrunc 1 t))
    rw [signTrunc_signTrunc (by decide)]
  have hif {o : OpCode} {flag : U64} {set : Bool} : ((vm.reg .flg &&& flag != 0) = set →
      (jumpIf (unaryIns o (xIMb .byte t)).stored .imm .byte iip flag set).Returns vm () (vm.setReg .ip (iip + signTrunc 1 t))) ∧
      ((vm.reg .flg &&& flag != 0) ≠ set → (jumpIf (unaryIns o (xIMb .byte t)).stored .imm .byte iip flag set).Returns vm () vm) := by
    constructor
    · intro hset
      refine returns_bind.mpr ⟨_, vm, getReg_returns.mpr ⟨rfl, rfl⟩, ?_⟩
      rw [if_pos hset]
      exact hjump o
    · intro hset
      refine returns_bind.mpr ⟨_, vm, getReg_returns.mpr ⟨rfl, rfl⟩, ?_⟩
      rw [if_neg hset]
      exact returns_pure.mpr ⟨rfl, rfl⟩
  cases op <;> cases hop
  · refine ⟨fun h => ?_, fun h => ?_⟩
    · exact execute_returns.mpr ⟨_, _, hops _, hif.1 (bne_iff_ne.mpr h)⟩
    · exact execute_returns.mpr ⟨_, _, hops _, hif.2 fun hset => h (bne_iff_ne.mp hset)⟩
  · refine ⟨fun h => ?_, fun h => ?_⟩
    · exact execute_returns.mpr ⟨_, _, hops _, hif.1 (bne_eq_false_iff_eq.mpr (not_not.mp h))⟩
    · exact execute_returns.mpr ⟨_, _, hops _, hif.2 fun hset => h (not_not.mpr (bne_eq_false_iff_eq.mp hset))⟩

/-- The operation on an operand and itself. -/
theorem execute_logicOp (hop : logicOp? op = some (jump, opc)) {x : U64} (h5 : signTrunc 1 (vm.reg .r5) = x)
    (h4 : signTrunc 1 (vm.reg .r4) = x) : (execute host (binaryIns opc (rRa .r5) (rRb .r4)).stored iip).Returns vm ()
      (vm.setReg .r5 (mergeLow 1 (vm.reg .r5) (if x = 0 then 0 else 1))) := by
  have hread5 : (read (binaryIns opc (rRa .r5) (rRb .r4)).stored (.reg ⟨Register.r5.toNat, Register.r5.toNat_lt⟩) .byte).Returns
      vm x vm := h5 ▸ read_byte
  have hread4 : (read (binaryIns opc (rRa .r5) (rRb .r4)).stored (.reg ⟨Register.r4.toNat, Register.r4.toNat_lt⟩) .byte).Returns
      vm x vm := h4 ▸ read_byte
  have hshort (short : Bool) : (shortCircuit (binaryIns opc (rRa .r5) (rRb .r4)).stored
      (.reg ⟨Register.r5.toNat, Register.r5.toNat_lt⟩) (.reg ⟨Register.r4.toNat, Register.r4.toNat_lt⟩) .byte .byte short).Returns
      vm () (vm.setReg .r5 (mergeLow 1 (vm.reg .r5) (if x = 0 then 0 else 1))) := by
    refine returns_bind.mpr ⟨x, vm, hread5, ?_⟩
    by_cases hx : x = 0
    · have hzero : (x != 0) = false := by rw [hx]; rfl
      rw [hzero, if_pos hx]
      cases short with
      | false => exact write_byte ..
      | true =>
        refine returns_bind.mpr ⟨x, vm, hread4, ?_⟩
        rw [hzero]
        exact write_byte ..
    · have hone : (x != 0) = true := bne_iff_ne.mpr hx
      rw [hone, if_neg hx]
      cases short with
      | false =>
        refine returns_bind.mpr ⟨x, vm, hread4, ?_⟩
        rw [hone]
        exact write_byte ..
      | true => exact write_byte ..
  cases op <;> cases hop
  · exact execute_returns.mpr ⟨_, _, operands_binary, hshort false⟩
  · exact execute_returns.mpr ⟨_, _, operands_binary, hshort true⟩

end VmM

/-! ### The run -/

section
open Prog
variable {host : Host} {vm s t : Vm} {i j k : Nat} {ins : Instruction} {op : TokenKind} {jump opc : OpCode} {l r : AstNode}
  {v x : U64}

theorem steps_one {n : Nat} {u : Unit} (h : vm.code.Decodes i n ins) (hip : vm.reg .ip = BitVec.ofNat 64 i) :
    (VmM.steps host 1).Returns vm u t ↔ (VmM.execute host ins (BitVec.ofNat 64 i)).Returns (vm.goto (i + n)) u t := by
  rw [← VmM.step_of_decodes h hip]
  simp only [VmM.steps, returns_bind, returns_pure]
  constructor
  · rintro ⟨_, _, hr, _, ht⟩
    exact ht ▸ hr
  · exact fun hr => ⟨(), _, hr, trivial, rfl⟩

/-- Neither `ip` nor `flg` matters to what is evaluated. -/
theorem Evaluated.goto (h : Evaluated vm t x k) (j : Nat) : Evaluated vm (t.goto j) x j where
  r5 := by rw [Vm.reg_goto_of_ne _ _ (by decide), h.r5]
  ip := Vm.reg_goto
  code := h.code
  stack := {
    sp := by rw [Vm.reg_goto_of_ne _ _ (by decide), h.stack.sp]
    bp := by rw [Vm.reg_goto_of_ne _ _ (by decide), h.stack.bp]
    size := h.stack.size
    sb := h.stack.sb
    bytes := h.stack.bytes }

theorem Evaluated.setFlag (h : Evaluated vm t x k) (c : U64) : Evaluated vm (t.setReg .flg c) x k where
  r5 := by rw [Vm.reg_setReg_of_ne _ _ (by decide), h.r5]
  ip := by rw [Vm.reg_setReg_of_ne _ _ (by decide), h.ip]
  code := h.code
  stack := {
    sp := by rw [Vm.reg_setReg_of_ne _ _ (by decide), h.stack.sp]
    bp := by rw [Vm.reg_setReg_of_ne _ _ (by decide), h.stack.bp]
    size := h.stack.size
    sb := h.stack.sb
    bytes := h.stack.bytes }

/-- The left operand is evaluated and compared with zero. -/
theorem settles_decision (hl : l.value = some v)
    (hcode : vm.code.Holds i (l.arithCode ++ [binaryIns .cmp (rRa .r5) (xIMb .byte 0)]) k)
    (hip : vm.reg .ip = BitVec.ofNat 64 i) (hstack : vm.HasStack l.depth) :
    Settles (VmM.steps host (jumpIndex l)) vm l.byteValue fun x _ s => Evaluated vm s x k ∧ s.reg .flg = compared x 0 := by
  obtain ⟨k1, hlcode, hcmp⟩ := Code.holds_append.mp hcode
  rw [← Option.bind_fun_some l.byteValue]
  refine Settles.congr (fun _ _ => VmM.steps_add _ _)
    (Settles.bind (runs_arith host hl hlcode hip hstack) fun x _ t hx ht => ?_)
  refine settles_last (ht.code ▸ hcmp) ht.ip (settles_of_returns VmM.execute_cmpZero ⟨(ht.goto k).setFlag _, ?_⟩)
  rw [Vm.reg_setReg, (ht.goto k).byte hx]

/-- The jump is taken as the byte in `r5` says. -/
theorem takes_iff (hop : logicOp? op = some (jump, opc)) (hflg : s.reg .flg = compared x 0) :
    (s.Takes jump ↔ Decides op v) ↔ (x = 0 ↔ v = 0) := by
  have hzero : s.HasFlag flgZero ↔ x = 0 := by
    rw [Vm.HasFlag, hflg]
    rcases compared_cases x 0 with ⟨hx, h⟩ | ⟨hlt, h⟩ | ⟨hlt, h⟩
    · rw [h]
      exact iff_of_true (by decide) hx
    · rw [h]
      exact iff_of_false (by decide) fun hx => absurd hlt (by rw [hx]; decide)
    · rw [h]
      exact iff_of_false (by decide) fun hx => absurd hlt (by rw [hx]; decide)
  cases op <;> cases hop
  · rw [Vm.Takes, hzero, Decides]
  · rw [Vm.Takes, hzero, Decides]
    exact not_iff_not

variable (host) in
/-- The run of the linked code: up to the jump, and from there on. -/
theorem run_logicCode (hl : l.value = some v) (hop : logicOp? op = some (jump, opc)) {target : U64}
    (hcode : vm.code.Holds i (logicCode l jump opc .byte target) j) (hip : vm.reg .ip = BitVec.ofNat 64 i)
    (hstack : vm.HasStack l.depth) :
    vm.code.Holds i (l.arithCode ++ [binaryIns .cmp (rRa .r5) (xIMb .byte 0)]) (i + (l.codeSize + 4)) ∧
    vm.code.Holds (i + (l.codeSize + 7)) (rerun l opc) j ∧
    Settles (VmM.steps host (jumpIndex l)) vm l.byteValue fun x _ s => s.reg .ip = BitVec.ofNat 64 (i + (l.codeSize + 4)) ∧
      ((s.Takes jump ↔ Decides op v) ↔ (x = 0 ↔ v = 0)) ∧
      (s.Takes jump → ∃ t, (VmM.steps host 1).Returns s () t ∧ t.reg .r5 = mergeLow 1 (vm.reg .r5) x ∧
        t.reg .ip = BitVec.ofNat 64 (i + (l.codeSize + 4)) + signTrunc 1 target) ∧
      (¬s.Takes jump → ∃ t, (VmM.steps host 1).Returns s () t ∧ t.reg .ip = BitVec.ofNat 64 (i + (l.codeSize + 7)) ∧
        t.code = vm.code ∧ (vm.HasStack (l.depth + 1) → ∃ u, (VmM.steps host (rerun l opc).length).Returns t () u ∧
          u.reg .ip = BitVec.ofNat 64 j ∧ u.reg .r5 = mergeLow 1 (vm.reg .r5) (if x = 0 then 0 else 1))) := by
  rw [logicCode_eq] at hcode
  obtain ⟨k, hbefore, hafter⟩ := Code.holds_append.mp hcode
  have harith := AstNode.linkable_arith (AstNode.arith_of_value hl)
  have hk : k = i + (l.codeSize + 4) := by
    rw [hbefore.size_eq (List.forall_mem_append.mpr ⟨harith.1, List.forall_mem_singleton.mpr (Instruction.linkable_of_three rfl)⟩),
      List.map_append, List.sum_append, harith.2]
    rfl
  subst hk
  cases hafter with
  | @cons _ n _ _ _ hjump hrerun =>
    obtain rfl : n = 3 := hjump.size_eq
    refine ⟨hbefore, hrerun, (settles_decision hl hbefore hip hstack).mono fun x _ s hx hs => ?_⟩
    obtain ⟨hs, hflg⟩ := hs
    have hstep {t : Vm} : (VmM.steps host 1).Returns s () t ↔ _ := steps_one (hs.code ▸ hjump) hs.ip
    have htakes : (s.goto (i + (l.codeSize + 4) + 3)).Takes jump ↔ s.Takes jump := by
      have hflag : (s.goto (i + (l.codeSize + 4) + 3)).HasFlag flgZero ↔ s.HasFlag flgZero := by
        rw [Vm.HasFlag, Vm.reg_goto_of_ne _ _ (by decide)]
        exact Iff.rfl
      cases op <;> cases hop
      · exact hflag
      · exact not_congr hflag
    obtain ⟨htaken, hnot⟩ := @VmM.execute_logicJump host (s.goto (i + (l.codeSize + 4) + 3))
      (BitVec.ofNat 64 (i + (l.codeSize + 4))) op jump opc hop target
    refine ⟨hs.ip, takes_iff hop hflg, fun h => ?_, fun h => ?_⟩
    · refine ⟨_, hstep.mpr (htaken (htakes.mpr h)), ?_, Vm.reg_setReg ..⟩
      rw [Vm.reg_setReg_of_ne _ _ (by decide), (hs.goto _).r5]
    · refine ⟨_, hstep.mpr (hnot fun h' => h (htakes.mp h')), Vm.reg_goto, hs.code, fun hroom => ?_⟩
      have hrun := (hs.goto (i + (l.codeSize + 4) + 3)).settles_second (AstNode.byteValue_trunc hx)
        (runs_arith host hl) (hs.code ▸ hrerun) hroom (f := fun y => some (if y = 0 then 0 else 1))
        (Q := fun z _ u => Evaluated vm u z j) fun y q k hy hq hlast h4 => by
          obtain rfl := Option.some.inj (hx.symm.trans hy)
          have hz : signTrunc 1 (if x = 0 then 0 else 1 : U64) = if x = 0 then 0 else 1 := by
            by_cases hzero : x = 0
            · rw [if_pos hzero]
              rfl
            · rw [if_neg hzero]
              rfl
          refine settles_last hlast hq.ip (settles_of_returns (VmM.execute_logicOp hop ((hq.goto j).byte hy) ?_) ?_)
          · rw [Vm.reg_goto_of_ne _ _ (by decide), h4]
          · have hset := hq.setReg (y := if x = 0 then 0 else 1) j
            rw [hz] at hset
            exact hset
      rw [hx] at hrun
      obtain ⟨⟨⟩, u, hr, hu⟩ := hrun
      exact ⟨u, hr, hu.ip, hu.r5⟩

/-! ### When the code is right -/

/-- Only a byte of `r5` is written. -/
theorem truth_iff {old y : U64} (hy : signTrunc 1 y = 0 ↔ v = 0) :
    (mergeLow 1 old y ≠ 0 ↔ v ≠ 0) ↔ (v = 0 → old >>> 8 = 0) := by
  have hzero : mergeLow 1 old y = 0 ↔ old >>> 8 = 0 ∧ signTrunc 1 y = 0 := mergeLow_eq_iff
  rw [not_iff_not, hzero, hy]
  exact ⟨fun h hv => (h.mpr hv).1, fun h => ⟨And.right, fun hv => ⟨h hv, hv⟩⟩⟩

theorem isTrue_of_decides (h : Decides op v) : IsTrue op v r ↔ v ≠ 0 :=
  ⟨fun ht => ht.elim And.right fun h' => absurd h h'.1, fun hv => .inl ⟨h, hv⟩⟩

theorem isTrue_of_not_decides (h : ¬Decides op v) (hr : r.value = some v) : IsTrue op v r ↔ v ≠ 0 := by
  constructor
  · rintro (ht | ⟨-, w, hw, hne⟩)
    · exact absurd ht.1 h
    · rwa [Option.some.inj (hr.symm.trans hw)]
  · exact fun hv => .inr ⟨h, v, hr, hv⟩

theorem bit_eq_zero : signTrunc 1 (if x = 0 then 0 else 1 : U64) = 0 ↔ x = 0 := by
  by_cases hx : x = 0
  · rw [if_pos hx]
    exact iff_of_true rfl hx
  · rw [if_neg hx]
    exact iff_of_false (by decide) hx

theorem linkable_rerun (hr : r.Arith) : ∀ ins ∈ rerun r opc, ins.Linkable := by
  rw [rerun, List.forall_mem_cons, List.forall_mem_append, List.forall_mem_cons, List.forall_mem_singleton]
  exact ⟨linkable_two rfl rfl rfl, (AstNode.linkable_arith hr).1, linkable_two rfl rfl rfl,
    Instruction.linkable_of_three rfl⟩

theorem rerun_inj (hl : l.Arith) (hr : r.Arith)
    (h : (rerun l opc).map Instruction.stored = (rerun r opc).map Instruction.stored) : l = r := by
  simp only [rerun, List.map_cons, List.map_append] at h
  exact AstNode.arithCode_inj hl hr (List.append_inj_left' (List.cons.inj h).2 rfl)

/-- The two paths of the code, each with what it needs. -/
theorem shortCircuits_iff (hl : l.value = some v) (hr : r.Arith) (hop : logicOp? op = some (jump, opc)) {target : U64}
    (hcode : vm.code.Holds i (logicCode l jump opc .byte target) j) (hip : vm.reg .ip = BitVec.ofNat 64 i)
    (hstack : vm.HasStack (max l.depth (r.depth + 1))) (hj : j < 2 ^ 64) (hij : i + (l.codeSize + 7) ≤ j) :
    ShortCircuits host op jump opc l r v vm i j ↔
      (∃ x, l.byteValue = some x ∧ (x = 0 ↔ v = 0)) ∧ (v = 0 → vm.reg .r5 >>> 8 = 0) ∧
        (Decides op v → BitVec.ofNat 64 (i + (l.codeSize + 4)) + signTrunc 1 target = BitVec.ofNat 64 j) ∧
        (¬Decides op v → r = l) := by
  obtain ⟨hbefore, hrerun, hrun⟩ := run_logicCode host hl hop hcode hip (hstack.mono (by omega))
  constructor
  · rintro ⟨_, s, t, -, hs, -, ht, htakes, hdec, hnot⟩
    obtain ⟨x, hx, -, hiff, htaken, hfall⟩ := hrun.of_returns hs
    have htrunc := AstNode.byteValue_trunc hx
    have hxv := hiff.mp htakes
    by_cases hd : Decides op v
    · obtain ⟨t', ht', h5, hip'⟩ := htaken (htakes.mpr hd)
      obtain ⟨-, rfl⟩ := ht'.unique ht
      obtain ⟨hend, htrue⟩ := hdec hd
      rw [h5, isTrue_of_decides hd, truth_iff (htrunc.symm ▸ hxv)] at htrue
      exact ⟨⟨x, hx, hxv⟩, htrue, fun _ => hip'.symm.trans hend, absurd hd⟩
    · obtain ⟨t', ht', hip', hcode', hroom⟩ := hfall fun h => hd (htakes.mp h)
      obtain ⟨-, rfl⟩ := ht'.unique ht
      obtain ⟨k, u, hk, hholds, hu, -, htrue⟩ := hnot hd
      have hkj := hholds.size_eq (linkable_rerun hr)
      obtain rfl : k = i + (l.codeSize + 7) := by
        have := congrArg BitVec.toNat (hk.symm.trans hip')
        rw [BitVec.toNat_ofNat, BitVec.toNat_ofNat] at this
        omega
      obtain rfl := rerun_inj hr (AstNode.arith_of_value hl) (hholds.unique (hcode' ▸ hrerun))
      obtain ⟨u', hu', -, h5⟩ := hroom (hstack.mono (by omega))
      obtain ⟨-, rfl⟩ := hu'.unique hu
      rw [h5, isTrue_of_not_decides hd hl, truth_iff (bit_eq_zero.trans hxv)] at htrue
      exact ⟨⟨x, hx, hxv⟩, htrue, fun h => absurd h hd, fun _ => rfl⟩
  · rintro ⟨⟨x, hx, hxv⟩, htrue, hdec, hnot⟩
    rw [hx] at hrun
    obtain ⟨⟨⟩, s, hs, hsip, hiff, htaken, hfall⟩ := hrun
    have htakes := hiff.mpr hxv
    by_cases hd : Decides op v
    · obtain ⟨t, ht, h5, htip⟩ := htaken (htakes.mpr hd)
      refine ⟨_, s, t, hbefore, hs, hsip, ht, htakes, fun _ => ⟨htip.trans (hdec hd), ?_⟩, absurd hd⟩
      rw [h5, isTrue_of_decides hd, truth_iff ((AstNode.byteValue_trunc hx).symm ▸ hxv)]
      exact htrue
    · obtain ⟨t, ht, htip, htcode, hroom⟩ := hfall fun h => hd (htakes.mp h)
      obtain rfl := hnot hd
      obtain ⟨u, hu, huip, h5⟩ := hroom (hstack.mono (by omega))
      refine ⟨_, s, t, hbefore, hs, hsip, ht, htakes, fun h => absurd h hd,
        fun _ => ⟨_, u, htip, htcode ▸ hrerun, hu, huip, ?_⟩⟩
      rw [h5, isTrue_of_not_decides hd hl, truth_iff (bit_eq_zero.trans hxv)]
      exact htrue

/-- Where the jump goes: its immediate is a byte. -/
theorem jump_lands {p d : Nat} (hd : p + d < 2 ^ 31) {t : U64} :
    BitVec.ofNat 64 p + signTrunc 1 t = BitVec.ofNat 64 (p + d) ↔ t.toNat % 256 = d % 256 ∧ d < 128 := by
  have hshort : signTrunc 1 (BitVec.ofNat 64 d) = BitVec.ofNat 64 d ↔ d < 128 := by
    have hint : (BitVec.ofNat 64 d).toInt = d := by
      rw [← BitVec.ofInt_natCast, BitVec.toInt_ofInt]
      exact Int.bmod_eq_of_le (by omega) (by omega)
    rw [signTrunc_eq_iff (by decide) (by decide), hint]
    omega
  have hlow : t.toNat % 256 = d % 256 ↔ signTrunc 1 t = signTrunc 1 (BitVec.ofNat 64 d) := by
    rw [signTrunc_byte_iff, BitVec.toNat_ofNat, Nat.mod_eq_of_lt (by omega : d < 2 ^ 64)]
  rw [BitVec.ofNat_add, BitVec.add_right_inj, hlow, ← hshort]
  exact ⟨fun h => ⟨by rw [← h, signTrunc_signTrunc (by decide)], by rw [← h, signTrunc_signTrunc (by decide)]⟩,
    fun h => h.1.trans h.2⟩

variable (jump opc) in
/-- The code as the linker leaves it, and its bytes. -/
theorem linkable_logicCode (hl : l.value = some v) (t : U64) : (∀ ins ∈ logicCode l jump opc .byte t, ins.Linkable) ∧
    ((logicCode l jump opc .byte t).map Instruction.linkSize).sum = 2 * l.codeSize + 14 := by
  obtain ⟨hlink, hsum⟩ := AstNode.linkable_arith (AstNode.arith_of_value hl)
  constructor
  · have hosz : (unaryIns jump (xIMb .byte t)).osz = 2 := rfl
    rw [logicCode_eq, List.forall_mem_append, List.forall_mem_append, List.forall_mem_singleton, List.forall_mem_cons]
    exact ⟨⟨hlink, Instruction.linkable_of_three rfl⟩, ⟨⟨by rw [hosz]; decide, fun _ _ => rfl, fun _ => rfl⟩,
      fun h => absurd (hosz.symm.trans h) (by decide)⟩,
      linkable_rerun (AstNode.arith_of_value hl)⟩
  · have hjump : (unaryIns jump (xIMb .byte t)).linkSize = 3 := rfl
    have hcmp : (binaryIns .cmp (rRa .r5) (xIMb .byte 0)).linkSize = 4 := rfl
    have hop : (binaryIns opc (rRa .r5) (rRb .r4)).linkSize = 3 := rfl
    have hpush : (unaryIns .push (rRa .r5)).linkSize = 2 := rfl
    have hpop : (unaryIns .pop (rRa .r4)).linkSize = 2 := rfl
    simp only [logicCode, List.map_append, List.map_cons, List.map_nil, List.sum_append, List.sum_cons, List.sum_nil, hsum,
      hjump, hcmp, hop, hpush, hpop]
    omega

end

/-! ### The offset in the jump -/

section
variable {op : TokenKind} {l r : AstNode} {range : Range} {cb cb' prog : Builder} {jump opc : OpCode} {v : U64} {into : Code}

/-- The offset that the linker puts into a jump to a text: that of the instruction after the label, if it is the name of a
    label and there is one. -/
def Builder.landing (prog : Builder) (into : Code) (range : Range) : Nat :=
  match prog.target? range with
  | some k => if k < prog.instructions.length then prog.base into + offset prog.sizes k else 0
  | none => 0

theorem toNat_landed : (landed (prog.base into) prog.sizes (prog.target? range)).toNat % 256 = prog.landing into range % 256 := by
  rw [Builder.landing]
  cases prog.target? range with
  | none => rfl
  | some k =>
    rw [landed, Builder.sizes, List.length_map]
    by_cases hk : k < prog.instructions.length
    · simp only [if_pos hk]
      rw [ipAt, BitVec.toNat_setWidth, BitVec.toNat_ofNat]
      omega
    · simp only [if_neg hk]
      rfl

theorem toNat_jumpTarget {j d : Nat} : (jumpTarget prog into range j).toNat % 256 = d % 256 ↔
    prog.landing into range % 256 = (prog.base into + offset prog.sizes j + d) % 256 := by
  have hland := @toNat_landed range prog into
  have hip : (ipAt (prog.base into) prog.sizes j).toNat % 256 = (prog.base into + offset prog.sizes j) % 256 := by
    rw [ipAt, BitVec.toNat_setWidth, BitVec.toNat_ofNat]
    omega
  rw [jumpTarget, BitVec.toNat_sub, ← hland]
  omega

/-- The linker counts with ten bytes for the jump, but that is after its offset. -/
theorem offset_jump (hl : l.value = some v) (hop : logicOp? op = some (jump, opc))
    (hgen : (AstNode.logicExpr op l r range).generateCyn cb = some cb') (hprog : cb'.Extends prog) :
    offset prog.sizes (cb.instructions.length + jumpIndex l) = cb.sizes.sum + l.codeSize + 4 := by
  obtain ⟨seq, hseq⟩ := hprog.instructions
  obtain ⟨hinstrs, -⟩ := AstNode.generateCyn_logicCode hl hop hgen
  have hbefore : cb.instructions.length = cb.sizes.length := (List.length_map _).symm
  have hcmp : jumpIndex l = ((l.arithCode ++ [binaryIns .cmp (rRa .r5) (xIMb .byte 0)]).map Instruction.linkSize).length := by
    rw [List.length_map, List.length_append]
    rfl
  have hsum : ((l.arithCode ++ [binaryIns .cmp (rRa .r5) (xIMb .byte 0)]).map Instruction.linkSize).sum = l.codeSize + 4 := by
    rw [List.map_append, List.sum_append, (AstNode.linkable_arith (AstNode.arith_of_value hl)).2]
    rfl
  rw [Builder.sizes, hseq, hinstrs, logicCode_eq, List.append_assoc, List.append_assoc, List.map_append, List.map_append,
    hbefore, ← Builder.sizes, offset_append, hcmp, ← Nat.add_zero (List.length _), offset_append, offset_zero, hsum]
  rfl

variable {host : Host} {vm : Vm}

/-- The code for `&&` and `||` in a program, after the linker. The jump is linked when the text of the expression is the name
    of a symbol; its immediate is a byte, which leads to the end of the code only by chance; and what follows it is the left
    operand once more. -/
theorem AstNode.generateCyn_logic (hop : logicOp? op = some (jump, opc)) (hl : l.value = some v) (hr : r.Arith)
    (hcb : cb.Patched) (hgen : (logicExpr op l r range).generateCyn cb = some cb') (hprog : cb'.Extends prog)
    {uninit : Nat → U8} {n : Nat} {code : Code} (hlink : prog.link 0 uninit into = some (n, code)) {i j : Nat}
    (hi : emitOffset (prog.base into) prog.instructions cb.instructions.length = i)
    (hj : emitOffset (prog.base into) prog.instructions cb'.instructions.length = j)
    (hcode : vm.code = code) (hip : vm.reg .ip = BitVec.ofNat 64 i) (hstack : vm.HasStack (max l.depth (r.depth + 1))) :
    n = 0 ∧ ShortCircuits host op jump opc l r v vm i j ↔
      prog.Resolved ∧ (∃ x, l.byteValue = some x ∧ (x = 0 ↔ v = 0)) ∧ (v = 0 → vm.reg .r5 >>> 8 = 0) ∧
        (Decides op v → prog.landing into range % 256 = (prog.base into + cb.sizes.sum + 2 * l.codeSize + 14) % 256 ∧
          l.codeSize < 118) ∧
        (¬Decides op v → r = l) := by
  obtain ⟨hiff, himage⟩ := Builder.link_eq hlink
  rw [hiff]
  refine and_congr_right fun hresolved => ?_
  obtain ⟨pre0, bs0, hpre0, hbytes0, hbs0⟩ := himage (hiff.mpr hresolved)
  obtain ⟨pre, bs, post, hpre, hlen, hbs, hbytes⟩ := link_logicCode hcb hl hop hgen hprog hpre0 hbytes0 hbs0
  rw [hi] at hpre
  rw [hj] at hlen
  obtain ⟨hlinkable, hsum⟩ := linkable_logicCode jump opc hl
    (jumpTarget prog into range (cb.instructions.length + jumpIndex l))
  have hholds := Code.holds_of_emitAll (fun ins h => (hlinkable ins h).toEncodable) hbs hbytes
  rw [hlen, hpre, ← hcode] at hholds
  have hend := hholds.size_eq hlinkable
  rw [hsum] at hend
  have hbound : j < 2 ^ 31 := by
    have h1 : (pre ++ bs ++ post).length < 2 ^ 31 := hbytes ▸ code.len_lt
    rw [List.length_append, List.length_append] at h1
    omega
  have hjump : i + (l.codeSize + 4) + (l.codeSize + 10) = j := by omega
  have hlands := @jump_lands (i + (l.codeSize + 4)) (l.codeSize + 10) (by omega)
    (jumpTarget prog into range (cb.instructions.length + jumpIndex l))
  have htarget : prog.base into + (cb.sizes.sum + l.codeSize + 4) + (l.codeSize + 10) =
      prog.base into + cb.sizes.sum + 2 * l.codeSize + 14 := by omega
  have hroom : l.codeSize + 10 < 128 ↔ l.codeSize < 118 := by omega
  rw [hjump, toNat_jumpTarget, offset_jump hl hop hgen hprog, htarget, hroom] at hlands
  rw [shortCircuits_iff hl hr hop hholds hip hstack (by omega) (by omega), hlands]

end

/-- `1 && b`, with the text of the expression. -/
def conjunction (b : U64) (text : List Char) : AstNode :=
  .logicExpr .tokAnd (.integerLit 1) (.integerLit b) { start := 0, stop := text.length, source := ascii text }

/-- The program that it is. -/
def conjunctionProgram (b : U64) (text : List Char) : Builder := ((conjunction b text).generateCyn {}).getD {}

/-- A machine at the code of that program, after the header. -/
def conjunctionVm (b : U64) (text : List Char) : Vm where
  flags := 0
  regs r := if r = .sp then 64 else if r = .ip then 16 else 0
  code := (((conjunctionProgram b text).link 0 (fun _ => 0) .empty).map Prod.snd).getD .empty
  ram := { base := 0, sb := 8, hb := 0, hlm := 0, size := 64, bytes := fun _ => 0 }
  heap := { free := none, used := none, fresh := none, top := 0, sth := 16, lmt := 0, aln := 8, count := 0
            next := fun _ => none, size := fun _ => 0, addr := fun _ => 0 }
  stdout := []

theorem AstNode.generateCyn_logic_conjunction :
    (conjunction 1 ['L', '0']).generateCyn {} = some (conjunctionProgram 1 ['L', '0']) ∧
    (conjunctionProgram 1 ['L', '0']).link 0 (fun _ => 0) .empty = some (0, (conjunctionVm 1 ['L', '0']).code) ∧
    ShortCircuits .idle .tokAnd .jmpz .and (.integerLit 1) (.integerLit 1) 1 (conjunctionVm 1 ['L', '0']) 16 52 := by
  have hgen : (conjunction 1 ['L', '0']).generateCyn {} = some (conjunctionProgram 1 ['L', '0']) := rfl
  have hlink : (conjunctionProgram 1 ['L', '0']).link 0 (fun _ => 0) .empty = some (0, (conjunctionVm 1 ['L', '0']).code) := rfl
  have hprog : (conjunctionProgram 1 ['L', '0']).Extends (conjunctionProgram 1 ['L', '0']) :=
    ⟨⟨[], (List.append_nil _).symm⟩, [], (List.append_nil _).symm, by simp⟩
  have hroom : (conjunctionVm 1 ['L', '0']).HasStack 1 := fun _ => by decide
  have hfresh : ({} : Builder).Patched := by simp [Builder.Patched]
  have hresolved : (conjunctionProgram 1 ['L', '0']).Resolved := by
    unfold Builder.Resolved
    decide
  have hdec : ¬Decides .tokAnd 1 := by
    unfold Decides
    decide
  have h := @AstNode.generateCyn_logic _ _ (.integerLit 1) _ {} _ _ _ _ 1 .empty .idle _ rfl rfl trivial hfresh hgen hprog
    _ _ _ hlink 16 52 rfl rfl rfl rfl hroom
  refine ⟨hgen, hlink, (h.mpr ⟨hresolved, ⟨1, rfl, by decide⟩, by decide, fun hd => absurd hd hdec, fun _ => rfl⟩).2⟩

/-- `1 && 0` in a source with just this text: the linker takes it for a symbol, and gives no code. Where the text is the name
    of a label there is code; it never comes to the `0`, and says true. -/
theorem AstNode.conjunction_not_generated :
    (conjunction 0 ['1', ' ', '&', '&', ' ', '0']).generateCyn {} = some (conjunctionProgram 0 ['1', ' ', '&', '&', ' ', '0']) ∧
    (conjunctionProgram 0 ['1', ' ', '&', '&', ' ', '0']).link 0 (fun _ => 0) .empty = some (1, .empty) ∧
    (conjunction 0 ['L', '0']).generateCyn {} = some (conjunctionProgram 0 ['L', '0']) ∧
    (conjunctionProgram 0 ['L', '0']).link 0 (fun _ => 0) .empty = some (0, (conjunctionVm 0 ['L', '0']).code) ∧
    ¬IsTrue .tokAnd 1 (.integerLit 0) ∧
    ∃ vm', (VmM.steps .idle 7).Returns (conjunctionVm 0 ['L', '0']) () vm' ∧ vm'.reg .ip = 52 ∧ vm'.reg .r5 = 1 := by
  obtain ⟨⟨⟩, vm', hr, hlast⟩ := Prog.exists_of_passes (m := VmM.steps .idle 7) (s := conjunctionVm 0 ['L', '0'])
    (p := fun _ vm' => vm'.reg .ip = 52 ∧ vm'.reg .r5 = 1) (by decide +kernel)
  refine ⟨rfl, rfl, rfl, rfl, ?_, vm', hr, of_decide_eq_true hlast⟩
  rintro (⟨h, -⟩ | ⟨-, w, hw, hne⟩)
  · exact absurd (show (1 : U64) = 0 from h) (by decide)
  · cases hw
    exact hne rfl

end Cyntatic
