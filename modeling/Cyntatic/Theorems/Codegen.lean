import Cyntatic.Compiler.Codegen
import Cyntatic.Vm.Run
import Cyntatic.Theorems.Decode
import Cyntatic.Theorems.Frames

/-! # Code generation for arithmetic

What the machine computes when it runs the code that is generated for an arithmetic expression, and when that is the
value of the expression. -/

namespace Cyntatic
open Library

/-! ### Expressions -/

/-- The value of a unary operator. -/
def unaryValue : TokenKind → U64 → Option U64
  | .tokNot, a => some (if a = 0 then 1 else 0)
  | .tokComplement, a => some (~~~a)
  | _, _ => none

/-- The value of a binary operator on numbers of 64 bits, where it is defined. -/
def binaryValue : TokenKind → U64 → U64 → Option U64
  | .tokPlus, a, b => some (a + b)
  | .tokMinus, a, b => some (a - b)
  | .tokMult, a, b => some (a * b)
  | .tokDiv, a, b => if b = 0 ∨ a = BitVec.intMin 64 ∧ b = -1 then none else some (a.sdiv b)
  | .tokMod, a, b => if b = 0 ∨ a = BitVec.intMin 64 ∧ b = -1 then none else some (a.srem b)
  | .tokBitAnd, a, b => some (a &&& b)
  | .tokBitOr, a, b => some (a ||| b)
  | .tokBitXor, a, b => some (a ^^^ b)
  | .tokSal, a, b => if b.toNat < 64 then some (a <<< b.toNat) else none
  | .tokSar, a, b => if b.toNat < 64 then some (a.sshiftRight b.toNat) else none
  | _, _, _ => none

namespace AstNode

/-- The value of an arithmetic expression: what the code is for. -/
def value : AstNode → Option U64
  | .integerLit n => some n
  | .unaryExpr op e => e.value.bind (unaryValue op)
  | .binaryExpr op l r => l.value.bind fun a => r.value.bind fun b => binaryValue op a b
  | _ => none

/-- The evaluation in signed bytes, with the operands of every binary operator exchanged and no remainder. -/
def byteValue : AstNode → Option U64
  | .integerLit n => some (signTrunc 1 n)
  | .unaryExpr op e => e.byteValue.bind fun a => (unaryValue op a).map (signTrunc 1)
  | .binaryExpr op l r => l.byteValue.bind fun a => r.byteValue.bind fun b =>
      if op = .tokMod then none else (binaryValue op b a).map (signTrunc 1)
  | _ => none

/-- The number of words that are on the stack at once. -/
def depth : AstNode → Nat
  | .unaryExpr _ e => e.depth
  | .binaryExpr _ l r => max l.depth (r.depth + 1)
  | _ => 0

/-- The code of an arithmetic expression. -/
def arithCode : AstNode → List Instruction
  | .integerLit n => [movR5 (xIMb .quad n)]
  | .unaryExpr op e => e.arithCode ++ (unaryOp? op).toList
  | .binaryExpr op l r => l.arithCode ++ unaryIns .push (rRa .r5) ::
      (r.arithCode ++ unaryIns .pop (rRa .r4) :: (binaryOp? op).getD [])
  | _ => []

end AstNode

/-- There is room for some words on the stack. -/
def Vm.HasStack (vm : Vm) (n : Nat) : Prop :=
  0 < n → (vm.reg .sp).toNat ≤ vm.ram.size.toNat ∧ vm.ram.sb.toNat + 8 * n < (vm.reg .sp).toNat

/-! ### Code in steps -/

/-- Instructions lie in the code one after the other, from an offset up to another. -/
inductive Code.Holds (code : Code) : Nat → List Instruction → Nat → Prop
  | nil {i : Nat} : Holds code i [] i
  | cons {i n j : Nat} {ins : Instruction} {seq : List Instruction} (h : code.Decodes i n ins.stored)
      (hs : Holds code (i + n) seq j) : Holds code i (ins :: seq) j

namespace Code
variable {code : Code} {i j : Nat} {seq seq' : List Instruction}

theorem holds_append : code.Holds i (seq ++ seq') j ↔ ∃ k, code.Holds i seq k ∧ code.Holds k seq' j := by
  constructor
  · intro h
    induction seq generalizing i with
    | nil => exact ⟨i, .nil, h⟩
    | cons ins seq ih =>
      cases h with
      | cons h hs =>
        obtain ⟨k, h1, h2⟩ := ih hs
        exact ⟨k, .cons h h1, h2⟩
  · rintro ⟨k, h1, h2⟩
    induction h1 with
    | nil => exact h2
    | cons h _ ih => exact .cons h (ih h2)

theorem holds_of_emitAll {pre bs post : List U8} (henc : ∀ ins ∈ seq, ins.Encodable)
    (hemit : Instruction.emitAll seq = some bs) (hc : code.bytes = pre ++ bs ++ post) :
    code.Holds pre.length seq (pre.length + bs.length) := by
  induction seq generalizing pre bs with
  | nil =>
    obtain rfl := Option.some.inj hemit
    exact .nil
  | cons ins seq ih =>
    obtain ⟨b, hb, rest, hrest, rfl⟩ := Instruction.emitAll_cons hemit
    rw [List.forall_mem_cons] at henc
    have hhead : code.bytes = pre ++ b ++ (rest ++ post) := by rw [hc]; simp only [List.append_assoc]
    have htail : code.bytes = (pre ++ b) ++ rest ++ post := by rw [hc]; simp only [List.append_assoc]
    have hnext := ih henc.2 hrest htail
    rw [List.length_append] at hnext ⊢
    rw [← Nat.add_assoc]
    exact .cons (decodes_emit henc.1 hb hhead) (by simpa only [List.length_append] using hnext)

end Code

namespace VmM
open Prog

/-- Some rounds of the loop of `VM_run`. -/
def steps (host : Host) : Nat → VmM Unit
  | 0 => pure ()
  | n + 1 => do
    step host
    steps host n

variable {host : Host} {vm vm' : Vm} {i j : Nat} {ins : Instruction} {seq : List Instruction}

theorem steps_add (n k : Nat) {u : Unit} :
    (steps host (n + k)).Returns vm u vm' ↔ (steps host n >>= fun _ => steps host k).Returns vm u vm' := by
  induction n generalizing vm with
  | zero =>
    rw [Nat.zero_add]
    simp [steps]
  | succ n ih =>
    rw [Nat.succ_add]
    simp only [steps, returns_bind, ih]
    constructor
    · rintro ⟨⟨⟩, t, h1, ⟨⟩, t', h2, h3⟩
      exact ⟨(), t', ⟨(), t, h1, h2⟩, h3⟩
    · rintro ⟨⟨⟩, t', ⟨⟨⟩, t, h1, h2⟩, h3⟩
      exact ⟨(), t, h1, (), t', h2, h3⟩

/-- A round at an instruction. -/
theorem step_of_decodes {n : Nat} {u : Unit} (h : vm.code.Decodes i n ins) (hip : vm.reg .ip = BitVec.ofNat 64 i) :
    (step host).Returns vm u vm' ↔ (execute host ins (BitVec.ofNat 64 i)).Returns (vm.goto (i + n)) u vm' := by
  have hfetch := fetch_of_decodes h
  rw [Vm.goto_eq hip] at hfetch
  rw [step, returns_bind]
  constructor
  · rintro ⟨⟨iip, ins'⟩, t, hf, he⟩
    obtain ⟨heq, rfl⟩ := hfetch.unique hf
    obtain ⟨rfl, rfl⟩ := Prod.mk.inj heq
    exact he
  · exact fun he => ⟨_, _, hfetch, he⟩

end VmM

/-! ### Bytes of a register -/

section Bytes
variable {old x y v : U64}

theorem toNat_mergeLow : (mergeLow 1 old x).toNat = old.toNat / 256 * 256 + x.toNat % 256 := by
  have h := old.isLt
  rw [mergeLow, BitVec.toNat_ofNat]
  omega

/-- The low byte decides what is read. -/
theorem signTrunc_byte_iff : signTrunc 1 x = signTrunc 1 y ↔ x.toNat % 256 = y.toNat % 256 := by
  rw [signTrunc_eq_iff_low (by decide), signTrunc_signTrunc (by decide), setWidth_signTrunc (by decide), and_iff_right rfl,
    ← BitVec.toNat_inj, BitVec.toNat_setWidth, BitVec.toNat_setWidth]

@[simp] theorem signTrunc_mergeLow : signTrunc 1 (mergeLow 1 old x) = signTrunc 1 x := by
  rw [signTrunc_byte_iff, toNat_mergeLow]
  omega

@[simp] theorem mergeLow_mergeLow : mergeLow 1 (mergeLow 1 old x) y = mergeLow 1 old y := by
  rw [← BitVec.toNat_inj, toNat_mergeLow, toNat_mergeLow, toNat_mergeLow]
  omega

@[simp] theorem mergeLow_signTrunc : mergeLow 1 old (signTrunc 1 x) = mergeLow 1 old x := by
  have h : signTrunc 1 (signTrunc 1 x) = signTrunc 1 x := signTrunc_signTrunc (by decide) x
  rw [signTrunc_byte_iff] at h
  rw [← BitVec.toNat_inj, toNat_mergeLow, toNat_mergeLow, h]

@[simp] theorem mergeLow_self : mergeLow 1 old old = old := by
  rw [← BitVec.toNat_inj, toNat_mergeLow]
  omega

theorem mergeLow_eq_iff : mergeLow 1 old x = v ↔ old >>> 8 = v >>> 8 ∧ signTrunc 1 x = signTrunc 1 v := by
  have h8 (u : U64) : (u >>> 8).toNat = u.toNat / 256 := by rw [BitVec.toNat_ushiftRight, Nat.shiftRight_eq_div_pow]
  rw [signTrunc_byte_iff, ← BitVec.toNat_inj, toNat_mergeLow, ← BitVec.toNat_inj, h8, h8]
  omega

end Bytes

/-! ### Instructions -/

namespace VmM
open Prog

variable {host : Host} {vm vm' : Vm} {iip : U64} {i j : Nat} {ins : Instruction} {seq : List Instruction} {op : TokenKind}

theorem read_byte {r : Register} : (read ins (.reg ⟨r.toNat, r.toNat_lt⟩) .byte).Returns vm (signTrunc 1 (vm.reg r)) vm := by
  refine read_returns.mpr ⟨r.toNat_lt_count, ?_, rfl⟩
  rw [Vm.readAt, Vm.reg?, Register.ofNat?_toNat]
  rfl

theorem write_byte (vm : Vm) (r : Register) (v : U64) :
    (write (.reg ⟨r.toNat, r.toNat_lt⟩) v .byte).Returns vm () (vm.setReg r (mergeLow 1 (vm.reg r) v)) := by
  refine write_returns.mpr ⟨r.toNat_lt_count, ?_⟩
  rw [Vm.writeAt, Register.ofNat?_toNat]
  rfl

/-- The operand of a macro for one register. -/
theorem operands_unary {opc : OpCode} {r : Register} :
    (operands (unaryIns opc (rRa r)).stored).Returns vm (.reg ⟨r.toNat, r.toNat_lt⟩, .null) vm := returns_pure.mpr ⟨rfl, rfl⟩

/-- The operands of a macro for two registers. -/
theorem operands_binary {opc : OpCode} {r q : Register} :
    (operands (binaryIns opc (rRa r) (rRb q)).stored).Returns vm
      (.reg ⟨r.toNat, r.toNat_lt⟩, .reg ⟨q.toNat, q.toNat_lt⟩) vm := returns_pure.mpr ⟨rfl, rfl⟩

theorem execute_movR5 {n : U64} :
    (execute host (movR5 (xIMb .quad n)).stored iip).Returns vm () (vm.setReg .r5 (mergeLow 1 (vm.reg .r5) n)) := by
  refine execute_returns.mpr ⟨.reg 5, .imm, returns_pure.mpr ⟨rfl, rfl⟩, returns_bind.mpr ⟨n, vm, ?_, write_byte _ .r5 _⟩⟩
  refine read_returns.mpr ⟨trivial, ?_, rfl⟩
  change n = signTrunc 8 (signTrunc 8 n)
  rw [signTrunc_full (by decide), signTrunc_full (by decide)]

theorem execute_push (h : vm.CanPush (vm.reg .sp)) :
    (execute host (unaryIns .push (rRa .r5)).stored iip).Returns vm () (vm.pushed (signTrunc 1 (vm.reg .r5))) := by
  refine execute_returns.mpr ⟨_, _, operands_unary, ?_⟩
  refine (push_returns (f := fun t => signTrunc 1 (t.reg .r5)) fun t v t' => ?_).mpr ⟨h, ?_⟩
  · constructor
    · intro hr
      exact read_byte.unique hr
    · rintro ⟨rfl, rfl⟩
      exact read_byte
  · rw [Vm.reg_setReg_of_ne _ _ (by decide)]

theorem execute_pop (h : (vm.reg .sp).toNat + 8 ≤ vm.ram.size.toNat) :
    (execute host (unaryIns .pop (rRa .r4)).stored iip).Returns vm ()
      ((vm.setReg .sp (vm.reg .sp + 8)).setReg .r4 (mergeLow 1 (vm.reg .r4) (vm.ram.word (vm.reg .sp).toNat))) := by
  refine execute_returns.mpr ⟨_, _, operands_unary, returns_bind.mpr ⟨_, _, (pop_at h).1, ?_⟩⟩
  have hw := write_byte (vm.setReg .sp (vm.reg .sp + 8)) .r4 (vm.ram.word (vm.reg .sp).toNat)
  rw [Vm.reg_setReg_of_ne _ _ (by decide)] at hw
  exact hw

variable (host vm iip) in
theorem execute_unary (h : unaryOp? op = some ins) : ∃ x, unaryValue op (signTrunc 1 (vm.reg .r5)) = some x ∧
    (execute host ins.stored iip).Returns vm () (vm.setReg .r5 (mergeLow 1 (vm.reg .r5) x)) := by
  cases op <;> cases h
  · exact ⟨_, rfl, execute_returns.mpr ⟨_, _, operands_unary, returns_bind.mpr ⟨_, _, read_byte, write_byte ..⟩⟩⟩
  · exact ⟨_, rfl, execute_returns.mpr ⟨_, _, operands_unary, returns_bind.mpr ⟨_, _, read_byte, write_byte ..⟩⟩⟩

/-- An operation on the two registers. -/
theorem settles_binary {f : U64 → U64 → Except Stop U64} :
    Settles (binary ins (.reg ⟨Register.r5.toNat, Register.r5.toNat_lt⟩) (.reg ⟨Register.r4.toNat, Register.r4.toNat_lt⟩)
        .byte .byte f) vm (f (signTrunc 1 (vm.reg .r5)) (signTrunc 1 (vm.reg .r4))).toOption
      fun x _ vm' => vm' = vm.setReg .r5 (mergeLow 1 (vm.reg .r5) x) := by
  refine settles_bind_of_returns read_byte (settles_bind_of_returns read_byte ?_)
  cases f (signTrunc 1 (vm.reg .r5)) (signTrunc 1 (vm.reg .r4)) with
  | ok x => exact settles_of_returns (write_byte ..) rfl
  | error e => exact fun _ _ => returns_stop

theorem toOption_divide (a b : U64) : (divide a b).toOption = binaryValue .tokDiv a b := by
  change _ = if b = 0 ∨ a = BitVec.intMin 64 ∧ b = -1 then none else some (a.sdiv b)
  unfold divide
  split <;> rfl

theorem toOption_shift (f : U64 → Nat → U64) (a b : U64) :
    (shift f a b).toOption = if b.toNat < 64 then some (f a b.toNat) else none := by
  unfold shift
  split <;> rfl

variable (host vm iip) in
theorem execute_binary (h : binaryOp? op = some [ins]) (hmod : op ≠ .tokMod) :
    Settles (execute host ins.stored iip) vm (binaryValue op (signTrunc 1 (vm.reg .r5)) (signTrunc 1 (vm.reg .r4)))
      fun x _ vm' => vm' = vm.setReg .r5 (mergeLow 1 (vm.reg .r5) x) := by
  cases op <;> simp only [binaryOp?, compareIns, List.cons_append, List.nil_append, Option.some.injEq, List.cons.injEq,
    reduceCtorEq, and_false, and_true] at h <;> subst h
  case tokMod => exact absurd rfl hmod
  case tokDiv =>
    rw [← toOption_divide]
    exact settles_bind_of_returns operands_binary settles_binary
  case tokSal =>
    rw [binaryValue, ← toOption_shift fun a n => a <<< n]
    exact settles_bind_of_returns operands_binary settles_binary
  case tokSar =>
    rw [binaryValue, ← toOption_shift]
    exact settles_bind_of_returns operands_binary settles_binary
  case tokPlus => exact settles_bind_of_returns operands_binary (settles_binary (f := fun a b => .ok (a + b)))
  case tokMinus => exact settles_bind_of_returns operands_binary (settles_binary (f := fun a b => .ok (a - b)))
  case tokMult => exact settles_bind_of_returns operands_binary (settles_binary (f := fun a b => .ok (a * b)))
  case tokBitAnd => exact settles_bind_of_returns operands_binary (settles_binary (f := fun a b => .ok (a &&& b)))
  case tokBitOr => exact settles_bind_of_returns operands_binary (settles_binary (f := fun a b => .ok (a ||| b)))
  case tokBitXor => exact settles_bind_of_returns operands_binary (settles_binary (f := fun a b => .ok (a ^^^ b)))

/-- The machine does not know the remainder. -/
theorem execute_mod : ¬(execute host (binaryIns .mod (rRa .r5) (rRb .r4)).stored iip).Returns vm () vm' := by
  intro h
  obtain ⟨rA, rB, -, ha⟩ := execute_returns.mp h
  exact abort_returns ha

end VmM

/-! ### Running the code of an expression -/

/-- `vm'` is `vm` after code that ends at an offset and puts a byte in `r5`. -/
structure Evaluated (vm vm' : Vm) (v : U64) (j : Nat) : Prop where
  r5 : vm'.reg .r5 = mergeLow 1 (vm.reg .r5) v
  ip : vm'.reg .ip = BitVec.ofNat 64 j
  code : vm'.code = vm.code
  stack : Grows vm vm' 0

theorem Vm.reg_goto_of_ne (vm : Vm) (i : Nat) {r : Register} (h : r ≠ .ip) : (vm.goto i).reg r = vm.reg r :=
  Vm.reg_setReg_of_ne _ _ h

theorem Vm.HasStack.mono {vm : Vm} {n k : Nat} (h : vm.HasStack k) (hn : n ≤ k) : vm.HasStack n := by
  intro hpos
  have := h (by omega)
  omega

theorem Grows.hasStack {vm vm' : Vm} {n k : Nat} (h : Grows vm vm' (8 * k)) (hs : vm.HasStack (n + k)) : vm'.HasStack n := by
  intro hpos
  obtain ⟨h1, h2⟩ := hs (by omega)
  have hsp := h.sp
  rw [h.size, h.sb]
  omega

/-- Room for a word. -/
theorem Vm.HasStack.canPush {vm : Vm} {n : Nat} (h : vm.HasStack (n + 1)) :
    vm.CanPush (vm.reg .sp) ∧ 8 ≤ (vm.reg .sp).toNat ∧ (vm.reg .sp).toNat ≤ vm.ram.size.toNat := by
  obtain ⟨h1, h2⟩ := h (by omega)
  obtain ⟨hsp, hoff⟩ := toNat_pushed_sp (by omega : 8 ≤ (vm.reg .sp).toNat) h1
  refine ⟨⟨?_, ?_⟩, by omega, h1⟩
  · rw [BitVec.lt_def, VmM.toNat_setWidth_off, hsp]
    omega
  · rw [hoff]
    omega

theorem AstNode.byteValue_trunc {node : AstNode} {x : U64} (h : node.byteValue = some x) : signTrunc 1 x = x := by
  cases node with
  | integerLit n =>
    obtain rfl := Option.some.inj h
    exact signTrunc_signTrunc (by decide) n
  | unaryExpr op e =>
    obtain ⟨a, -, ha⟩ := Option.bind_eq_some_iff.mp h
    obtain ⟨y, -, rfl⟩ := Option.map_eq_some_iff.mp ha
    exact signTrunc_signTrunc (by decide) y
  | binaryExpr op l r =>
    obtain ⟨a, -, ha⟩ := Option.bind_eq_some_iff.mp h
    obtain ⟨b, -, hb⟩ := Option.bind_eq_some_iff.mp ha
    split at hb
    · cases hb
    · obtain ⟨y, -, rfl⟩ := Option.map_eq_some_iff.mp hb
      exact signTrunc_signTrunc (by decide) y
  | _ => cases h

section Running
open Prog
variable {host : Host} {vm : Vm} {i j : Nat} {ins : Instruction} {seq : List Instruction}

/-- The first of some instructions, and then the rest. -/
theorem settles_cons (h : vm.code.Holds i (ins :: seq) j) (hip : vm.reg .ip = BitVec.ofNat 64 i) :
    ∃ k, vm.code.Holds k seq j ∧ ∀ {x : Option U64} {Q : U64 → Unit → Vm → Prop} {vm' : Vm},
      (VmM.execute host ins.stored (BitVec.ofNat 64 i)).Returns (vm.goto k) () vm' →
      Settles (VmM.steps host seq.length) vm' x Q → Settles (VmM.steps host (ins :: seq).length) vm x Q := by
  cases h with
  | @cons _ n _ _ _ h hs =>
    refine ⟨i + n, hs, fun he hrest => ?_⟩
    exact settles_bind_of_returns ((VmM.step_of_decodes h hip).mpr he) hrest

/-- A result in `r5` after code that put one there. -/
theorem Evaluated.setReg {vm t : Vm} {x y : U64} {k : Nat} (h : Evaluated vm t x k) (j : Nat) :
    Evaluated vm ((t.goto j).setReg .r5 (mergeLow 1 ((t.goto j).reg .r5) y)) (signTrunc 1 y) j where
  r5 := by
    rw [Vm.reg_setReg, Vm.reg_goto_of_ne _ _ (by decide), h.r5, mergeLow_mergeLow, mergeLow_signTrunc]
  ip := by rw [Vm.reg_setReg_of_ne _ _ (by decide), Vm.reg_goto]
  code := h.code
  stack := {
    sp := by rw [Vm.reg_setReg_of_ne _ _ (by decide), Vm.reg_goto_of_ne _ _ (by decide), h.stack.sp]
    bp := by rw [Vm.reg_setReg_of_ne _ _ (by decide), Vm.reg_goto_of_ne _ _ (by decide), h.stack.bp]
    size := h.stack.size
    sb := h.stack.sb
    bytes := h.stack.bytes }

theorem Evaluated.refl {vm : Vm} {i : Nat} (hip : vm.reg .ip = BitVec.ofNat 64 i) : Evaluated vm vm (vm.reg .r5) i :=
  ⟨mergeLow_self.symm, hip, rfl, SameStack.grows ⟨rfl, rfl, rfl⟩⟩

/-- The byte that is read from `r5` afterwards. -/
theorem Evaluated.byte {vm t : Vm} {node : AstNode} {x : U64} {k : Nat} (h : Evaluated vm t x k) (hx : node.byteValue = some x) :
    signTrunc 1 (t.reg .r5) = x := by rw [h.r5, signTrunc_mergeLow, AstNode.byteValue_trunc hx]

theorem exists_unaryOp {op : TokenKind} {a v : U64} (h : unaryValue op a = some v) : ∃ ins, unaryOp? op = some ins := by
  cases op <;> first | exact ⟨_, rfl⟩ | cases h

theorem exists_binaryOp {op : TokenKind} {a b v : U64} (h : binaryValue op a b = some v) : ∃ ins, binaryOp? op = some [ins] := by
  cases op <;> first | exact ⟨_, rfl⟩ | cases h

/-- The last of some instructions. -/
theorem settles_last {x : Option U64} {Q : U64 → Unit → Vm → Prop} (h : vm.code.Holds i [ins] j)
    (hip : vm.reg .ip = BitVec.ofNat 64 i)
    (he : Settles (VmM.execute host ins.stored (BitVec.ofNat 64 i)) (vm.goto j) x Q) :
    Settles (VmM.steps host [ins].length) vm x Q := by
  cases h with
  | @cons _ n _ _ _ h hs =>
    cases hs
    refine Settles.congr (fun _ _ => ?_) he
    rw [← VmM.step_of_decodes h hip]
    simp only [VmM.steps, List.length_singleton, returns_bind, returns_pure]
    constructor
    · rintro ⟨_, _, hr, _, ht⟩
      exact ht ▸ hr
    · exact fun hr => ⟨(), _, hr, trivial, rfl⟩

/-- The left operand is popped after the code of the right one. -/
theorem Evaluated.popped {t u : Vm} {x y v : U64} {k1 k2 k3 : Nat} (ht : Evaluated vm t x k1) (h8 : 8 ≤ (t.reg .sp).toNat)
    (hs : (t.reg .sp).toNat ≤ t.ram.size.toNat) (hu : Evaluated ((t.goto k2).pushed x) u y k3) (k4 : Nat) :
    (u.reg .sp).toNat + 8 ≤ u.ram.size.toNat ∧ u.ram.word (u.reg .sp).toNat = x ∧
      Evaluated vm (((u.goto k4).setReg .sp ((u.goto k4).reg .sp + 8)).setReg .r4 v) y k4 := by
  have hsp' : (t.goto k2).reg .sp = t.reg .sp := Vm.reg_goto_of_ne _ _ (by decide)
  obtain ⟨hgrow, hword⟩ := grows_pushed (a := t.goto k2) (v := x) (hsp' ▸ h8) (hsp' ▸ hs)
  have hsp := hgrow.sp
  rw [hsp'] at hsp
  have husp := hu.stack.sp
  have hsize : u.ram.size = t.ram.size := hu.stack.size.trans hgrow.size
  have hle : (u.reg .sp).toNat + 8 ≤ u.ram.size.toNat := by
    rw [hsize]
    omega
  have hadd : (u.reg .sp + 8).toNat = (u.reg .sp).toNat + 8 := (VmM.pop_at hle).2
  have hsame : ∀ i, (((t.goto k2).pushed x).reg .sp).toNat ≤ i → u.ram.bytes i = ((t.goto k2).pushed x).ram.bytes i :=
    hu.stack.bytes
  rw [Nat.add_zero] at husp
  refine ⟨hle, ?_, ?_, ?_, ?_, ?_⟩
  · rw [← hword, ← husp]
    exact Memory.word_congr fun i _ => hsame _ (by omega)
  · rw [Vm.reg_setReg_of_ne _ _ (by decide), Vm.reg_setReg_of_ne _ _ (by decide), Vm.reg_goto_of_ne _ _ (by decide), hu.r5,
      Vm.pushed, Vm.reg_setBytes, Vm.reg_setReg_of_ne _ _ (by decide), Vm.reg_goto_of_ne _ _ (by decide), ht.r5,
      mergeLow_mergeLow]
  · rw [Vm.reg_setReg_of_ne _ _ (by decide), Vm.reg_setReg_of_ne _ _ (by decide), Vm.reg_goto]
  · exact hu.code.trans ht.code
  · refine ⟨?_, ?_, hu.stack.size.trans (hgrow.size.trans ht.stack.size), hu.stack.sb.trans (hgrow.sb.trans ht.stack.sb), fun i hi => ?_⟩
    · have htsp := ht.stack.sp
      rw [Vm.reg_setReg_of_ne _ _ (by decide), Vm.reg_setReg, Vm.reg_goto_of_ne _ _ (by decide), hadd]
      omega
    · rw [Vm.reg_setReg_of_ne _ _ (by decide), Vm.reg_setReg_of_ne _ _ (by decide), Vm.reg_goto_of_ne _ _ (by decide),
        hu.stack.bp, hgrow.bp, Vm.reg_goto_of_ne _ _ (by decide), ht.stack.bp]
    · have htsp := ht.stack.sp
      exact (hsame i (by omega)).trans ((hgrow.bytes i (by rw [hsp']; omega)).trans (ht.stack.bytes i hi))

/-- The code of an expression puts the byte of it in `r5`, wherever it lies. -/
def AstNode.Runs (host : Host) (node : AstNode) : Prop :=
  ∀ {vm : Vm} {i j : Nat}, vm.code.Holds i node.arithCode j → vm.reg .ip = BitVec.ofNat 64 i → vm.HasStack node.depth →
    Settles (VmM.steps host node.arithCode.length) vm node.byteValue fun x _ vm' => Evaluated vm vm' x j

/-- A second operand: it is in `r5` at the end, and the first one, which was on the stack, in `r4`. -/
theorem Evaluated.settles_second {t : Vm} {x : U64} {k : Nat} {r : AstNode} (ht : Evaluated vm t x k) (hx : signTrunc 1 x = x)
    (hr : r.Runs host) (hcode : t.code.Holds k (unaryIns .push (rRa .r5) :: (r.arithCode ++ unaryIns .pop (rRa .r4) :: seq)) j)
    (hstack : vm.HasStack (r.depth + 1)) {f : U64 → Option U64} {Q : U64 → Unit → Vm → Prop}
    (hseq : ∀ y q k, r.byteValue = some y → Evaluated vm q y k → q.code.Holds k seq j →
      signTrunc 1 (q.reg .r4) = x → Settles (VmM.steps host seq.length) q (f y) Q) :
    Settles (VmM.steps host (unaryIns .push (rRa .r5) :: (r.arithCode ++ unaryIns .pop (rRa .r4) :: seq)).length)
      t (r.byteValue.bind f) Q := by
  have hroom : t.HasStack (r.depth + 1) := ht.stack.hasStack (k := 0) hstack
  obtain ⟨hcan, h8, hs⟩ := hroom.canPush
  -- The first operand is pushed.
  obtain ⟨k2, hright, hpush⟩ := settles_cons hcode ht.ip
  have hsp : (t.goto k2).reg .sp = t.reg .sp := Vm.reg_goto_of_ne _ _ (by decide)
  have hx' : signTrunc 1 ((t.goto k2).reg .r5) = x := by
    rw [Vm.reg_goto_of_ne _ _ (by decide), ht.r5, signTrunc_mergeLow, hx]
  refine hpush (VmM.execute_push (by rw [hsp]; exact hcan)) ?_
  rw [hx']
  have hgrow := (grows_pushed (a := t.goto k2) (v := x) (hsp ▸ h8) (hsp ▸ hs)).1
  -- The code of the second operand runs above it.
  obtain ⟨k3, hrcode, hafter'⟩ := Code.holds_append.mp hright
  rw [List.length_append]
  have hpip : ((t.goto k2).pushed x).reg .ip = BitVec.ofNat 64 k2 := by
    rw [Vm.pushed, Vm.reg_setBytes, Vm.reg_setReg_of_ne _ _ (by decide), Vm.reg_goto]
  have hroom' : (t.goto k2).HasStack (r.depth + 1) := by
    intro hpos
    rw [hsp]
    exact hroom hpos
  refine Settles.congr (fun _ _ => VmM.steps_add _ _)
    (Settles.bind (hr hrcode hpip (hgrow.hasStack (k := 1) hroom')) fun y _ u hy hu => ?_)
  -- The first operand is popped.
  obtain ⟨k4, hlast, hpop⟩ := settles_cons (hu.code ▸ hafter') hu.ip
  have husp : (u.goto k4).reg .sp = u.reg .sp := Vm.reg_goto_of_ne _ _ (by decide)
  obtain ⟨hle, hword, hq⟩ := ht.popped (v := mergeLow 1 ((u.goto k4).reg .r4) x) h8 hs hu k4
  refine hpop (VmM.execute_pop (by rw [husp]; exact hle)) ?_
  have hword' : (u.goto k4).ram.word ((u.goto k4).reg .sp).toNat = x := by rw [husp]; exact hword
  rw [hword']
  refine hseq y _ k4 hy hq hlast ?_
  rw [Vm.reg_setReg, signTrunc_mergeLow, hx]

/-- Two operands: the right one is in `r5` at the end, and the left one in `r4`. -/
theorem settles_operands {l r : AstNode} (hl : l.Runs host) (hr : r.Runs host)
    (hcode : vm.code.Holds i (l.arithCode ++ unaryIns .push (rRa .r5) :: (r.arithCode ++ unaryIns .pop (rRa .r4) :: seq)) j)
    (hip : vm.reg .ip = BitVec.ofNat 64 i) (hstack : vm.HasStack (max l.depth (r.depth + 1)))
    {f : U64 → U64 → Option U64} {Q : U64 → Unit → Vm → Prop}
    (hseq : ∀ x y q k, l.byteValue = some x → r.byteValue = some y → Evaluated vm q y k → q.code.Holds k seq j →
      signTrunc 1 (q.reg .r4) = x → Settles (VmM.steps host seq.length) q (f x y) Q) :
    Settles (VmM.steps host (l.arithCode ++ unaryIns .push (rRa .r5) :: (r.arithCode ++ unaryIns .pop (rRa .r4) :: seq)).length)
      vm (l.byteValue.bind fun x => r.byteValue.bind (f x)) Q := by
  obtain ⟨k1, hlcode, hafter⟩ := Code.holds_append.mp hcode
  rw [List.length_append]
  refine Settles.congr (fun _ _ => VmM.steps_add _ _)
    (Settles.bind (hl hlcode hip (hstack.mono (Nat.le_max_left ..))) fun x _ t hx ht => ?_)
  exact ht.settles_second (AstNode.byteValue_trunc hx) hr (ht.code ▸ hafter) (hstack.mono (Nat.le_max_right ..))
    fun y q k hy hq hlast h4 => hseq x y q k hx hy hq hlast h4

variable (host) in
theorem runs_arith {node : AstNode} {v : U64} (hv : node.value = some v) : node.Runs host := by
  induction node generalizing v with
  | integerLit n =>
    intro vm i j hcode hip _
    obtain ⟨k, hk, hrun⟩ := settles_cons hcode hip
    cases hk
    refine hrun VmM.execute_movR5 (settles_of_returns (returns_pure.mpr ⟨rfl, rfl⟩) ?_)
    exact (Evaluated.refl hip).setReg j
  | unaryExpr op e ih =>
    intro vm i j hcode hip hstack
    obtain ⟨a, ha, hop⟩ := Option.bind_eq_some_iff.mp hv
    obtain ⟨ins, hins⟩ := exists_unaryOp hop
    rw [AstNode.arithCode, hins] at hcode ⊢
    obtain ⟨k, hk, hlast⟩ := Code.holds_append.mp hcode
    rw [List.length_append]
    refine Settles.congr (fun _ _ => VmM.steps_add _ _) (Settles.bind (ih ha hk hip hstack) fun x _ t hx ht => ?_)
    refine settles_last (ht.code ▸ hlast) ht.ip ?_
    obtain ⟨y, hy, hexec⟩ := VmM.execute_unary host (t.goto j) (BitVec.ofNat 64 k) hins
    have hbyte : signTrunc 1 ((t.goto j).reg .r5) = x := by
      rw [Vm.reg_goto_of_ne _ _ (by decide), ht.byte hx]
    rw [hbyte] at hy
    rw [hy]
    exact settles_of_returns hexec (ht.setReg j)
  | binaryExpr op l r ihl ihr =>
    intro vm i j hcode hip hstack
    obtain ⟨a, ha, hrest⟩ := Option.bind_eq_some_iff.mp hv
    obtain ⟨b, hb, hop⟩ := Option.bind_eq_some_iff.mp hrest
    obtain ⟨ins, hins⟩ := exists_binaryOp hop
    rw [AstNode.arithCode, hins, Option.getD_some] at hcode ⊢
    refine settles_operands (ihl ha) (ihr hb) hcode hip hstack fun x y q k hx hy hq hlast h4 => ?_
    -- The operation takes the right operand first.
    refine settles_last hlast hq.ip ?_
    by_cases hmod : op = .tokMod
    · subst hmod
      obtain ⟨rfl⟩ := hins
      rw [if_pos rfl]
      exact fun _ _ => VmM.execute_mod
    · rw [if_neg hmod]
      refine Settles.map ?_
      have hq4 : signTrunc 1 ((q.goto j).reg .r4) = x := by rw [Vm.reg_goto_of_ne _ _ (by decide), h4]
      have hq5 : signTrunc 1 ((q.goto j).reg .r5) = y := by rw [Vm.reg_goto_of_ne _ _ (by decide), hq.byte hy]
      have hexec := VmM.execute_binary host (q.goto j) (BitVec.ofNat 64 k) hins hmod
      rw [hq4, hq5] at hexec
      refine hexec.mono fun z _ vm' _ hvm' => ?_
      rw [hvm']
      exact hq.setReg j
  | _ => cases hv

end Running

/-! ### When the value is that of the expression -/

namespace AstNode

theorem generateCyn_arith {node : AstNode} {v : U64} (hv : node.value = some v) (cb : Builder) :
    node.generateCyn cb = some { cb with instructions := cb.instructions ++ node.arithCode } := by
  induction node generalizing v cb with
  | integerLit n => rfl
  | unaryExpr op e ih =>
    obtain ⟨a, ha, hop⟩ := Option.bind_eq_some_iff.mp hv
    obtain ⟨ins, hins⟩ := exists_unaryOp hop
    rw [generateCyn, ih ha, arithCode, hins]
    simp [Builder.appendInstruction]
  | binaryExpr op l r ihl ihr =>
    obtain ⟨a, ha, hrest⟩ := Option.bind_eq_some_iff.mp hv
    obtain ⟨b, hb, hop⟩ := Option.bind_eq_some_iff.mp hrest
    obtain ⟨ins, hins⟩ := exists_binaryOp hop
    rw [generateCyn, ihl ha, arithCode, hins]
    simp [Builder.appendInstruction, Builder.appendAll, ihr hb]
  | _ => cases hv

theorem encodable_two {opc : OpCode} {r : Register} : (unaryIns opc (rRa r)).Encodable := ⟨nofun, nofun, fun _ => rfl⟩

theorem encodable_three {ins : Instruction} (h : ins.osz = 3) : ins.Encodable :=
  ⟨by rw [h]; decide, fun h2 => absurd (h.symm.trans h2) (by decide), fun h2 => absurd (h.symm.trans h2) (by decide)⟩

theorem encodable_unaryOp {op : TokenKind} {ins : Instruction} (h : unaryOp? op = some ins) : ins.Encodable := by
  cases op <;> cases h
  · exact encodable_two
  · exact encodable_two

theorem osz_binaryOp {op : TokenKind} {seq : List Instruction} (h : binaryOp? op = some seq) : ∀ ins ∈ seq, ins.osz = 3 := by
  cases op <;> cases h <;> decide

theorem encodable_arith {node : AstNode} {ins : Instruction} (h : ins ∈ node.arithCode) : ins.Encodable := by
  induction node with
  | integerLit n =>
    obtain rfl := List.mem_singleton.mp h
    exact encodable_three rfl
  | unaryExpr op e ih =>
    rcases List.mem_append.mp h with h | h
    · exact ih h
    · exact encodable_unaryOp (Option.mem_toList.mp h)
  | binaryExpr op l r ihl ihr =>
    rcases List.mem_append.mp h with h | h
    · exact ihl h
    · rcases List.mem_cons.mp h with rfl | h
      · exact encodable_two
      · rcases List.mem_append.mp h with h | h
        · exact ihr h
        · rcases List.mem_cons.mp h with rfl | h
          · exact encodable_two
          · cases hop : binaryOp? op with
            | none => rw [hop] at h; cases h
            | some seq => exact encodable_three (osz_binaryOp hop ins (by rwa [hop] at h))
  | _ => cases h

/-- Only operators for which neither the order of the operands nor their upper bytes matter. -/
def Commutes : AstNode → Prop
  | .integerLit _ => True
  | .unaryExpr op e => op = .tokComplement ∧ e.Commutes
  | .binaryExpr op l r => op ∈ [.tokPlus, .tokMult, .tokBitAnd, .tokBitOr, .tokBitXor] ∧ l.Commutes ∧ r.Commutes
  | _ => False

theorem signTrunc_eq_iff_setWidth {x y : U64} : signTrunc 1 x = signTrunc 1 y ↔ x.setWidth 8 = y.setWidth 8 := by
  rw [signTrunc_byte_iff, ← BitVec.toNat_inj, BitVec.toNat_setWidth, BitVec.toNat_setWidth]

theorem setWidth_signTrunc_byte {x : U64} : (signTrunc 1 x).setWidth 8 = x.setWidth 8 :=
  setWidth_signTrunc (n := 1) (by decide) x

/-- For such operators the evaluation in bytes gives the low byte of the value. -/
theorem byteValue_of_commutes {node : AstNode} (h : node.Commutes) :
    ∃ v, node.value = some v ∧ node.byteValue = some (signTrunc 1 v) := by
  induction node with
  | integerLit n => exact ⟨n, rfl, rfl⟩
  | unaryExpr op e ih =>
    obtain ⟨rfl, he⟩ := h
    obtain ⟨a, ha, hb⟩ := ih he
    refine ⟨~~~a, by rw [value, ha]; rfl, ?_⟩
    rw [byteValue, hb]
    refine congrArg some (signTrunc_eq_iff_setWidth.mpr ?_)
    rw [BitVec.setWidth_not (by decide), BitVec.setWidth_not (by decide), setWidth_signTrunc_byte]
  | binaryExpr op l r ihl ihr =>
    obtain ⟨hop, hl, hr⟩ := h
    obtain ⟨a, ha, ha'⟩ := ihl hl
    obtain ⟨b, hb, hb'⟩ := ihr hr
    have hbin : op ≠ .tokMod ∧ ∃ v w, binaryValue op a b = some v ∧
        binaryValue op (signTrunc 1 b) (signTrunc 1 a) = some w ∧ w.setWidth 8 = v.setWidth 8 := by
      simp only [List.mem_cons, List.not_mem_nil, or_false] at hop
      rcases hop with rfl | rfl | rfl | rfl | rfl
      · refine ⟨nofun, _, _, rfl, rfl, ?_⟩
        rw [BitVec.setWidth_add _ _ (by decide), BitVec.setWidth_add _ _ (by decide), setWidth_signTrunc_byte,
          setWidth_signTrunc_byte, BitVec.add_comm]
      · refine ⟨nofun, _, _, rfl, rfl, ?_⟩
        rw [BitVec.setWidth_mul _ _ (by decide), BitVec.setWidth_mul _ _ (by decide), setWidth_signTrunc_byte,
          setWidth_signTrunc_byte, BitVec.mul_comm]
      · refine ⟨nofun, _, _, rfl, rfl, ?_⟩
        rw [BitVec.setWidth_and, BitVec.setWidth_and, setWidth_signTrunc_byte, setWidth_signTrunc_byte, BitVec.and_comm]
      · refine ⟨nofun, _, _, rfl, rfl, ?_⟩
        rw [BitVec.setWidth_or, BitVec.setWidth_or, setWidth_signTrunc_byte, setWidth_signTrunc_byte, BitVec.or_comm]
      · refine ⟨nofun, _, _, rfl, rfl, ?_⟩
        rw [BitVec.setWidth_xor, BitVec.setWidth_xor, setWidth_signTrunc_byte, setWidth_signTrunc_byte, BitVec.xor_comm]
    obtain ⟨hmod, v, w, hv, hw, hlow⟩ := hbin
    refine ⟨v, by rw [value, ha, hb]; exact hv, ?_⟩
    rw [byteValue, ha', hb', Option.bind_some, Option.bind_some, if_neg hmod, hw]
    exact congrArg some (signTrunc_eq_iff_setWidth.mpr hlow)
  | _ => cases h

end AstNode

theorem Instruction.exists_emitAll {seq : List Instruction} (h : ∀ ins ∈ seq, ins.Encodable) : ∃ bs, emitAll seq = some bs := by
  induction seq with
  | nil => exact ⟨[], rfl⟩
  | cons ins seq ih =>
    rw [List.forall_mem_cons] at h
    obtain ⟨rest, hrest⟩ := ih h.2
    obtain ⟨b, hb⟩ : ∃ b, ins.emit = some b := by
      rcases h.1.osz_cases with hosz | hosz | hosz
      · exact ⟨_, emit_one hosz⟩
      · exact ⟨_, h.1.emit_two hosz⟩
      · exact ⟨_, emit_three hosz⟩
    exact ⟨b ++ rest, by rw [emitAll, hb, hrest]; rfl⟩

/-- The code that is generated for an arithmetic expression leaves its value in `r5` exactly when the seven upper bytes
    are there before, and the lower one is what the evaluation in bytes gives. -/
theorem AstNode.generateCyn_value {node : AstNode} {v : U64} (hv : node.value = some v) (cb : Builder) :
    node.generateCyn cb = some { cb with instructions := cb.instructions ++ node.arithCode } ∧
    ∃ bs, Instruction.emitAll node.arithCode = some bs ∧
      ∀ (host : Host) (vm : Vm) (pre post : List U8), vm.code.bytes = pre ++ bs ++ post →
        vm.reg .ip = BitVec.ofNat 64 pre.length → vm.HasStack node.depth →
        ((∃ vm', (VmM.steps host node.arithCode.length).Returns vm () vm' ∧ vm'.reg .r5 = v) ↔
          vm.reg .r5 >>> 8 = v >>> 8 ∧ node.byteValue = some (signTrunc 1 v)) := by
  obtain ⟨bs, hbs⟩ := Instruction.exists_emitAll fun ins (h : ins ∈ node.arithCode) => encodable_arith h
  refine ⟨generateCyn_arith hv cb, bs, hbs, fun host vm pre post hcode hip hstack => ?_⟩
  have hholds := Code.holds_of_emitAll (fun ins h => encodable_arith h) hbs hcode
  have hrun := runs_arith host hv hholds hip hstack
  constructor
  · rintro ⟨vm', hr, h5⟩
    obtain ⟨x, hx, hvm'⟩ := hrun.of_returns hr
    rw [hvm'.r5] at h5
    obtain ⟨hhigh, hlow⟩ := mergeLow_eq_iff.mp h5
    rw [byteValue_trunc hx] at hlow
    exact ⟨hhigh, hx.trans (congrArg some hlow)⟩
  · rintro ⟨hhigh, hlow⟩
    rw [hlow] at hrun
    obtain ⟨⟨⟩, vm', hr, hvm'⟩ := hrun
    refine ⟨vm', hr, ?_⟩
    rw [hvm'.r5, mergeLow_signTrunc]
    exact mergeLow_eq_iff.mpr ⟨hhigh, rfl⟩

/-- A machine with an empty stack at the code of an expression. -/
def arithVm (node : AstNode) : Vm where
  flags := 0
  regs r := if r = .sp then 64 else 0
  code := (Code.empty.append node.arithCode).getD .empty
  ram := { base := 0, sb := 8, hb := 0, hlm := 0, size := 64, bytes := fun _ => 0 }
  heap := { free := none, used := none, fresh := none, top := 0, sth := 16, lmt := 0, aln := 8, count := 0
            next := fun _ => none, size := fun _ => 0, addr := fun _ => 0 }
  stdout := []

/-- `2 + 3` -/
def sum : AstNode := .binaryExpr .tokPlus (.integerLit 2) (.integerLit 3)

theorem AstNode.generateCyn_value_sum : ∃ cb bs, sum.generateCyn {} = some cb ∧ cb.instructions = sum.arithCode ∧
    Instruction.emitAll sum.arithCode = some bs ∧ (arithVm sum).code.bytes = bs ∧
    ∃ vm', (VmM.steps .idle sum.arithCode.length).Returns (arithVm sum) () vm' ∧ vm'.reg .r5 = 5 := by
  obtain ⟨hgen, bs, hbs, h⟩ := @AstNode.generateCyn_value sum 5 (by decide) {}
  have hcode : Instruction.emitAll sum.arithCode = some (arithVm sum).code.bytes := by decide
  have hbytes : (arithVm sum).code.bytes = bs := Option.some.inj (hcode.symm.trans hbs)
  have hroom : (arithVm sum).HasStack sum.depth := fun _ => by decide
  exact ⟨_, bs, hgen, rfl, hbs, hbytes,
    (h .idle (arithVm sum) [] [] (by rw [hbytes, List.nil_append, List.append_nil]) rfl hroom).mpr ⟨by decide, by decide⟩⟩

/-- `5 - 3` -/
def difference : AstNode := .binaryExpr .tokMinus (.integerLit 5) (.integerLit 3)

/-- The code for `5 - 3` leaves 254 in `r5`: the operands are exchanged, and only a byte is written. -/
theorem AstNode.difference_not_generated : difference.value = some 2 ∧
    (∃ cb, difference.generateCyn {} = some cb ∧ cb.instructions = difference.arithCode) ∧
    Instruction.emitAll difference.arithCode = some (arithVm difference).code.bytes ∧
    (arithVm difference).HasStack difference.depth ∧
    ∃ vm', (VmM.steps .idle difference.arithCode.length).Returns (arithVm difference) () vm' ∧ vm'.reg .r5 = 254 := by
  obtain ⟨⟨⟩, vm', hr, h5⟩ := Prog.exists_of_passes (m := VmM.steps .idle difference.arithCode.length) (s := arithVm difference)
    (p := fun _ vm' => vm'.reg .r5 = 254) (by decide +kernel)
  exact ⟨by decide, ⟨_, rfl, rfl⟩, by decide, fun _ => by decide, vm', hr, of_decide_eq_true h5⟩

end Cyntatic
