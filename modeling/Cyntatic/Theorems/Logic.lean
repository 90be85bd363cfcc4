import Cyntatic.Theorems.Generated
import Cyntatic.Theorems.Labels

/-! # Code generation for `&&` and `||`

The code is the left operand, a jump over the rest, and the left operand once more. The linker looks for the label of the
jump under the text of the expression, and comes to no instruction after it. -/

namespace Cyntatic
open Library

/-! ### The code of an arithmetic expression tells which it is -/

/-- An arithmetic expression. -/
def AstNode.Arith : AstNode → Prop
  | .integerLit _ => True
  | .unaryExpr op e => (∃ ins, unaryOp? op = some ins) ∧ e.Arith
  | .binaryExpr op l r => (∃ ins, binaryOp? op = some [ins]) ∧ l.Arith ∧ r.Arith
  | _ => False

theorem AstNode.arith_of_value {node : AstNode} {v : U64} (h : node.value = some v) : node.Arith := by
  induction node generalizing v with
  | integerLit n => trivial
  | unaryExpr op e ih =>
    obtain ⟨a, ha, hop⟩ := Option.bind_eq_some_iff.mp h
    exact ⟨exists_unaryOp hop, ih ha⟩
  | binaryExpr op l r ihl ihr =>
    obtain ⟨a, ha, hrest⟩ := Option.bind_eq_some_iff.mp h
    obtain ⟨b, hb, hop⟩ := Option.bind_eq_some_iff.mp hrest
    exact ⟨exists_binaryOp hop, ihl ha, ihr hb⟩
  | _ => cases h

/-- The operator that an operation is generated for. -/
def OpCode.operator : OpCode → Option TokenKind
  | .not => some .tokNot
  | .bnot => some .tokComplement
  | .add => some .tokPlus
  | .sub => some .tokMinus
  | .mul => some .tokMult
  | .div => some .tokDiv
  | .mod => some .tokMod
  | .band => some .tokBitAnd
  | .bor => some .tokBitOr
  | .xor => some .tokBitXor
  | .sal => some .tokSal
  | .sar => some .tokSar
  | _ => none

theorem operator_unaryOp {op : TokenKind} {ins : Instruction} (h : unaryOp? op = some ins) :
    ins.stored.op.bind OpCode.operator = some op ∧ ins.stored.osz = 2 := by
  cases op <;> cases h <;> exact ⟨rfl, rfl⟩

theorem operator_binaryOp {op : TokenKind} {ins : Instruction} (h : binaryOp? op = some [ins]) :
    ins.stored.op.bind OpCode.operator = some op ∧ ins.stored.osz = 3 := by
  cases op <;> simp only [binaryOp?, compareIns, List.cons_append, List.nil_append, Option.some.injEq, List.cons.injEq,
    reduceCtorEq, and_false, and_true] at h <;> subst h <;> exact ⟨rfl, rfl⟩

theorem stored_movR5_inj {n k : U64} (h : (movR5 (xIMb .quad n)).stored = (movR5 (xIMb .quad k)).stored) : n = k := by
  have hii : signTrunc 8 n = signTrunc 8 k := congrArg Instruction.ii h
  rwa [signTrunc_full (by decide), signTrunc_full (by decide)] at hii

namespace AstNode

/-- The records of the code of an expression, the last one first: an operation stands before its operands. -/
def records (node : AstNode) : List Instruction := (node.arithCode.map Instruction.stored).reverse

theorem records_unary {op : TokenKind} {e : AstNode} {ins : Instruction} (h : unaryOp? op = some ins) :
    (unaryExpr op e).records = ins.stored :: e.records := by
  simp [records, arithCode, h]

theorem records_binary {op : TokenKind} {l r : AstNode} {ins : Instruction} (h : binaryOp? op = some [ins]) :
    (binaryExpr op l r).records =
      ins.stored :: (unaryIns .pop (rRa .r4)).stored :: (r.records ++ (unaryIns .push (rRa .r5)).stored :: l.records) := by
  simp [records, arithCode, h]

/-- Read from the end, no code is the beginning of another. -/
theorem records_inj {l r : AstNode} {seq seq' : List Instruction} (hl : l.Arith) (hr : r.Arith)
    (h : l.records ++ seq = r.records ++ seq') : l = r ∧ seq = seq' := by
  have hmov (n : U64) : (movR5 (xIMb .quad n)).stored.op.bind OpCode.operator = none := rfl
  induction l generalizing r seq seq' with
  | integerLit n =>
    cases r with
    | integerLit k =>
      obtain ⟨hins, rfl⟩ := List.cons.inj h
      exact ⟨congrArg _ (stored_movR5_inj hins), rfl⟩
    | unaryExpr op e =>
      obtain ⟨⟨ins, hins⟩, -⟩ := hr
      rw [records_unary hins] at h
      have hop := hmov n
      rw [(List.cons.inj h).1, (operator_unaryOp hins).1] at hop
      cases hop
    | binaryExpr op a b =>
      obtain ⟨⟨ins, hins⟩, -⟩ := hr
      rw [records_binary hins] at h
      have hop := hmov n
      rw [(List.cons.inj h).1, (operator_binaryOp hins).1] at hop
      cases hop
    | _ => exact hr.elim
  | unaryExpr op e ih =>
    obtain ⟨⟨ins, hins⟩, he⟩ := hl
    have hop := operator_unaryOp hins
    rw [records_unary hins] at h
    cases r with
    | integerLit k =>
      rw [(List.cons.inj h).1] at hop
      exact absurd ((hmov k).symm.trans hop.1) (by simp)
    | unaryExpr op' e' =>
      obtain ⟨⟨ins', hins'⟩, he'⟩ := hr
      rw [records_unary hins'] at h
      obtain ⟨hhead, htail⟩ := List.cons.inj h
      obtain ⟨rfl, rfl⟩ := ih he he' htail
      rw [hhead, (operator_unaryOp hins').1] at hop
      cases hop.1
      exact ⟨rfl, rfl⟩
    | binaryExpr op' a b =>
      obtain ⟨⟨ins', hins'⟩, -⟩ := hr
      rw [records_binary hins'] at h
      rw [(List.cons.inj h).1, (operator_binaryOp hins').2] at hop
      exact absurd hop.2 (by decide)
    | _ => exact hr.elim
  | binaryExpr op a b iha ihb =>
    obtain ⟨⟨ins, hins⟩, ha, hb⟩ := hl
    have hop := operator_binaryOp hins
    rw [records_binary hins] at h
    cases r with
    | integerLit k =>
      rw [(List.cons.inj h).1] at hop
      exact absurd ((hmov k).symm.trans hop.1) (by simp)
    | unaryExpr op' e' =>
      obtain ⟨⟨ins', hins'⟩, -⟩ := hr
      rw [records_unary hins'] at h
      rw [(List.cons.inj h).1, (operator_unaryOp hins').2] at hop
      exact absurd hop.2 (by decide)
    | binaryExpr op' a' b' =>
      obtain ⟨⟨ins', hins'⟩, ha', hb'⟩ := hr
      rw [records_binary hins'] at h
      simp only [List.cons_append, List.append_assoc] at h
      obtain ⟨hhead, htail⟩ := List.cons.inj h
      obtain ⟨-, htail⟩ := List.cons.inj htail
      -- the right operand, and after the push the left one
      obtain ⟨rfl, hpush⟩ := ihb hb hb' htail
      obtain ⟨rfl, rfl⟩ := iha ha ha' (List.cons.inj hpush).2
      rw [hhead, (operator_binaryOp hins').1] at hop
      cases hop.1
      exact ⟨rfl, rfl⟩
    | _ => exact hr.elim
  | _ => exact hl.elim

theorem arithCode_inj {l r : AstNode} (hl : l.Arith) (hr : r.Arith)
    (h : l.arithCode.map Instruction.stored = r.arithCode.map Instruction.stored) : l = r :=
  (@records_inj l r [] [] hl hr (by rw [records, records, h])).1

/-- The bytes of the code of an expression. -/
def codeSize : AstNode → Nat
  | .integerLit _ => 11
  | .unaryExpr _ e => e.codeSize + 2
  | .binaryExpr _ l r => l.codeSize + r.codeSize + 7
  | _ => 0

theorem linkable_arith {node : AstNode} (h : node.Arith) :
    (∀ ins ∈ node.arithCode, ins.Linkable) ∧ (node.arithCode.map Instruction.linkSize).sum = node.codeSize := by
  induction node with
  | integerLit n => exact ⟨List.forall_mem_singleton.mpr (Instruction.linkable_of_three rfl), rfl⟩
  | unaryExpr op e ih =>
    obtain ⟨⟨ins, hins⟩, he⟩ := h
    obtain ⟨hlink, hsum⟩ := ih he
    have hsize : ins.linkSize = 2 := by cases op <;> cases hins <;> rfl
    rw [arithCode, hins]
    refine ⟨List.forall_mem_append.mpr ⟨hlink, List.forall_mem_singleton.mpr (linkable_unaryOp hins)⟩, ?_⟩
    simp [hsum, hsize, codeSize]
  | binaryExpr op l r ihl ihr =>
    obtain ⟨⟨ins, hins⟩, hl, hr⟩ := h
    obtain ⟨hlinkl, hsuml⟩ := ihl hl
    obtain ⟨hlinkr, hsumr⟩ := ihr hr
    have hpush : (unaryIns .push (rRa .r5)).Linkable := linkable_two rfl rfl rfl
    have hpop : (unaryIns .pop (rRa .r4)).Linkable := linkable_two rfl rfl rfl
    have hsize : ins.linkSize = 3 := by
      cases op <;> simp only [binaryOp?, compareIns, List.cons_append, List.nil_append, Option.some.injEq, List.cons.injEq,
        reduceCtorEq, and_false, and_true] at hins <;> subst hins <;> rfl
    have hpushsize : (unaryIns .push (rRa .r5)).linkSize = 2 := rfl
    have hpopsize : (unaryIns .pop (rRa .r4)).linkSize = 2 := rfl
    rw [arithCode, hins]
    refine ⟨List.forall_mem_append.mpr ⟨hlinkl, List.forall_mem_cons.mpr ⟨hpush, List.forall_mem_append.mpr
      ⟨hlinkr, List.forall_mem_cons.mpr ⟨hpop, linkable_binaryOp hins⟩⟩⟩⟩, ?_⟩
    simp only [List.map_append, List.map_cons, List.sum_append, List.sum_cons, hsuml, hsumr, hsize, hpushsize, hpopsize,
      Option.getD_some, List.map_nil, List.sum_nil, codeSize]
    omega
  | _ => exact h.elim

end AstNode

/-! ### The code of a logical expression -/

/-- The code of a logical expression, for the mode in which the jump has its immediate. -/
def logicCode (l : AstNode) (jump opc : OpCode) (ims : Mode) (target : U64) : List Instruction :=
  l.arithCode ++ binaryIns .cmp (rRa .r5) (xIMb .byte 0) :: unaryIns jump (xIMb ims target) :: unaryIns .push (rRa .r5) ::
    (l.arithCode ++ [unaryIns .pop (rRa .r4), binaryIns opc (rRa .r5) (rRb .r4)])

/-- What follows the jump. -/
def rerun (l : AstNode) (opc : OpCode) : List Instruction :=
  unaryIns .push (rRa .r5) :: (l.arithCode ++ [unaryIns .pop (rRa .r4), binaryIns opc (rRa .r5) (rRb .r4)])

/-- The index of the jump of a logical expression. -/
def jumpIndex (l : AstNode) : Nat := l.arithCode.length + 1

/-- Every reference of a builder is in an instruction that it has. -/
def Builder.Patched (cb : Builder) : Prop := ∀ patch ∈ cb.patchWork, patch.pos < cb.instructions.length

namespace Builder
variable {cb cb' : Builder}

theorem Patched.append (h : cb.Patched) (ins : Instruction) : (cb.appendInstruction ins).Patched := fun patch hpatch => by
  rw [instructions_appendInstruction, List.length_append]
  exact Nat.lt_add_right _ (h patch hpatch)

theorem Patched.appendAll (h : cb.Patched) (seq : List Instruction) : (cb.appendAll seq).Patched := by
  induction seq generalizing cb with
  | nil => exact h
  | cons ins seq ih => exact ih (h.append ins)

/-- The reference comes before the instruction that it is in. -/
theorem Patched.addSymbolReference {p : U32} {name : List U8} {range : Range} (h : cb.Patched)
    (hadd : cb.addSymbolReference cb.pos name range true = some (p, cb')) (ins : Instruction) :
    (cb'.appendInstruction ins).Patched := by
  intro patch hpatch
  rw [instructions_appendInstruction, List.length_append, addSymbolReference_instructions cb hadd, List.length_singleton]
  unfold Builder.addSymbolReference at hadd
  split at hadd
  · cases hadd
    exact Nat.lt_succ_of_lt (h patch hpatch)
  · rw [if_pos rfl] at hadd
    cases hadd
    rcases List.mem_cons.mp ((List.perm_orderedInsert ..).mem_iff.mp hpatch) with rfl | hmem
    · exact Nat.lt_succ_of_le (BitVec.toNat_ofNat .. ▸ Nat.mod_le ..)
    · exact Nat.lt_succ_of_lt (h patch hmem)

theorem Patched.addSymbol {pos : U32} {tag : SymbolTag} {name : List U8} {range : Range} (h : cb.Patched)
    (hadd : cb.addSymbol pos tag name range = some cb') : cb'.Patched := by
  unfold Builder.addSymbol at hadd
  split at hadd
  · cases hadd
  · cases hadd
    exact h

end Builder

/-- The generator keeps every reference in an instruction. -/
theorem AstNode.generateCyn_patched {node : AstNode} {cb cb' : Builder} (h : node.generateCyn cb = some cb')
    (hcb : cb.Patched) : cb'.Patched := by
  induction node generalizing cb cb' with
  | stringLit value =>
    cases h
    exact @Builder.Patched.append (cb.appendString value).2 hcb _
  | boolLit | charLit | integerLit | floatLit =>
    cases h
    exact hcb.append _
  | varExpr offset =>
    cases h
    exact hcb.appendAll _
  | unaryExpr op e ih | postfixExpr op e ih =>
    obtain ⟨c, hc, h⟩ := Option.bind_eq_some_iff.mp h
    obtain ⟨ins, -, h⟩ := Option.bind_eq_some_iff.mp h
    cases h
    exact (ih hc hcb).append ins
  | prefixExpr op e ih =>
    obtain ⟨c, hc, h⟩ := Option.bind_eq_some_iff.mp h
    obtain ⟨ins, -, h⟩ := Option.bind_eq_some_iff.mp h
    cases h
    exact ((ih hc hcb).append ins).append _
  | binaryExpr op l r ihl ihr =>
    obtain ⟨c, hc, h⟩ := Option.bind_eq_some_iff.mp h
    obtain ⟨d, hd, h⟩ := Option.bind_eq_some_iff.mp h
    obtain ⟨seq, -, h⟩ := Option.bind_eq_some_iff.mp h
    cases h
    exact ((ihr hd ((ihl hc hcb).append _)).append _).appendAll seq
  | logicExpr op l r range ihl =>
    obtain ⟨c, hc, h⟩ := Option.bind_eq_some_iff.mp h
    obtain ⟨⟨jump, opc⟩, -, h⟩ := Option.bind_eq_some_iff.mp h
    obtain ⟨⟨pos, d⟩, hd, h⟩ := Option.bind_eq_some_iff.mp h
    obtain ⟨e, he, h⟩ := Option.bind_eq_some_iff.mp h
    have hlabel : c.genLabel.2.Patched := show c.Patched from ihl hc hcb
    exact (((ihl he (((hlabel.append _).addSymbolReference hd _).append _)).append _).append _).addSymbol h

/-- What is in a builder is still in another one, with something appended to it. -/
structure Builder.Extends (cb cb' : Builder) : Prop where
  instructions : ∃ seq, cb'.instructions = cb.instructions ++ seq
  patchWork : ∃ patches, cb'.patchWork = cb.patchWork ++ patches ∧ ∀ patch ∈ patches, cb.instructions.length ≤ patch.pos

theorem logicCode_eq (l : AstNode) (jump opc : OpCode) (ims : Mode) (t : U64) : logicCode l jump opc ims t =
    (l.arithCode ++ [binaryIns .cmp (rRa .r5) (xIMb .byte 0)]) ++ unaryIns jump (xIMb ims t) :: rerun l opc := by
  rw [logicCode, List.append_assoc, List.singleton_append, rerun]

section
variable {op : TokenKind} {l r : AstNode} {range : Range} {cb cb' : Builder} {jump opc : OpCode} {v : U64}

/-- What is generated for a logical expression. -/
theorem AstNode.generateCyn_logicCode (hl : l.value = some v) (hop : logicOp? op = some (jump, opc))
    (h : (logicExpr op l r range).generateCyn cb = some cb') :
    cb'.instructions = cb.instructions ++ logicCode l jump opc .quad 0 ∧
      cb'.patchWork = cb.patchWork.orderedInsert (·.pos < ·.pos)
        ⟨(BitVec.ofNat 32 (cb.instructions.length + jumpIndex l)).toNat, range⟩ := by
  have hlabel (seq : List Instruction) : ({ cb with instructions := seq } : Builder).genLabel =
      (cb.genLabel.1, { cb with instructions := seq, variableCounts := cb.variableCounts + 1 }) := rfl
  have hjump : (cb.instructions ++ l.arithCode ++ [binaryIns .cmp (rRa .r5) (xIMb .byte 0)]).length =
      cb.instructions.length + jumpIndex l := by
    rw [List.length_append, List.length_append, jumpIndex, Nat.add_assoc]
    rfl
  rw [generateCyn, generateCyn_arith hl, Option.bind_eq_bind, Option.bind_some, hlabel] at h
  generalize cb.genLabel.1 = label at h
  simp only [Option.bind_eq_bind, Option.bind_some, hop, Builder.appendInstruction, Builder.pos, Builder.addSymbolReference,
    hjump] at h
  cases hfind : cb.symbols.find? (·.name = label) with
  | none =>
    rw [hfind] at h
    simp only [Option.filter_none, if_true, Option.bind_some, generateCyn_arith hl, Builder.addSymbol, hfind,
      Option.isSome_none, Bool.false_eq_true, if_false, Option.some.injEq] at h
    rw [← h]
    refine ⟨?_, rfl⟩
    simp [logicCode]
  | some sym =>
    -- the label cannot be added where there is a symbol of its name
    have hname : sym.name = label := by simpa using List.find?_some hfind
    rw [hfind, Option.filter_some] at h
    by_cases htag : sym.tag = .label
    · simp [htag, generateCyn_arith hl, Builder.addSymbol] at h
      exact absurd hname (h.1 sym (List.mem_of_find?_eq_some hfind))
    · simp [htag, generateCyn_arith hl, Builder.addSymbol] at h
      exact absurd hname (h.1 sym (List.mem_of_find?_eq_some hfind))

end

/-! ### The linker -/

namespace Builder
variable {cb : Builder} {into code : Code} {uninit : Nat → U8} {refs : AsmM.Refs}

/-- The index of the instruction after the label that a text is the name of. -/
def target? (cb : Builder) (range : Range) : Option Nat :=
  ((cb.symbols.find? (·.name = range.view)).filter (·.tag = .label)).map (·.id.toNat)

/-- Where the instructions begin in the image. -/
def base (cb : Builder) (into : Code) : Nat := into.len + AsmM.headerSize + cb.constants.length

/-- The sizes that the linker counts with. -/
def sizes (cb : Builder) : List Nat := cb.instructions.map Instruction.linkSize

/-- What linking adds to the immediate of instruction `j`. -/
def linkSum (cb : Builder) (into : Code) (j : Nat) : U64 :=
  ((cb.patchWork.filter (·.pos = j)).map fun p => landed (cb.base into) cb.sizes (cb.target? p.range)).sum -
    if cb.patchWork.any (·.pos = j) then ipAt (cb.base into) cb.sizes j else 0

/-- The errors are the references to symbols that are not there. -/
theorem collectRefs_eq {patches : List Patch} {refs refs' : AsmM.Refs} {errors n : Nat}
    (h : cb.collectRefs patches refs errors = (refs', n)) :
    errors ≤ n ∧ (n = errors ↔ ∀ patch ∈ patches, (cb.symbols.find? (·.name = patch.range.view)).isSome) ∧
      ∀ k, refs'.at k = refs.at k ++ (patches.filter (cb.target? ·.range = some k)).map Patch.pos := by
  induction patches generalizing refs errors with
  | nil =>
    cases h
    exact ⟨Nat.le_refl _, by simp, fun k => by simp⟩
  | cons patch patches ih =>
    rw [collectRefs] at h
    cases hfind : cb.symbols.find? (·.name = patch.range.view) with
    | none =>
      rw [hfind] at h
      obtain ⟨hle, -, hat⟩ := ih h
      have htarget : cb.target? patch.range = none := by rw [target?, hfind]; rfl
      refine ⟨by omega, iff_of_false (by omega) fun hall => ?_, fun k => ?_⟩
      · exact absurd (hall patch (List.mem_cons_self ..)) (by rw [hfind]; exact Bool.false_ne_true)
      · rw [hat, List.filter_cons_of_neg (by simp [htarget])]
    | some sym =>
      rw [hfind] at h
      obtain ⟨hle, hiff, hat⟩ := ih h
      have htarget : cb.target? patch.range = if sym.tag = .label then some sym.id.toNat else none := by
        rw [target?, hfind, Option.filter_some]
        by_cases htag : sym.tag = .label <;> simp [htag]
      refine ⟨hle, ?_, fun k => ?_⟩
      · rw [hiff, List.forall_mem_cons, hfind]
        exact (and_iff_right rfl).symm
      · rw [hat, List.filter_cons, htarget]
        by_cases htag : sym.tag = .label
        · rw [if_pos htag, if_pos htag, AsmM.Refs.at_add, List.append_assoc]
          congr 1
          by_cases hk : sym.id.toNat = k
          · simp [hk]
          · simp [hk, Ne.symm hk]
        · simp [htag]

/-- The image: up to the instructions, and the instructions as the loop leaves them. -/
theorem emitCode_bytes (h : cb.emitCode refs uninit into = some code) :
    ∃ ips instrs pre bs, linkLoop cb.patchWork refs cb.instructions.length 0 (BitVec.ofNat 32 (cb.base into))
        cb.instructions = some (ips, instrs) ∧
      Instruction.emitAll instrs = some bs ∧ pre.length = cb.base into ∧ code.bytes = pre ++ bs := by
  unfold emitCode at h
  simp only [Option.bind_eq_bind, Option.bind_eq_some_iff] at h
  obtain ⟨code1, h1, code2, h2, ⟨ips, instrs⟩, hloop, code3, h3, h⟩ := h
  obtain ⟨bs, hbs, hc3⟩ := Code.append_eq_some h3
  have hc2 : code2.bytes = into.bytes ++ (List.range AsmM.headerSize).map uninit ++ cb.constants := by
    rw [Code.push_eq_some h2, Code.push_eq_some h1]
  have hlen : code2.len = cb.base into := by
    rw [Code.len, hc2, List.length_append, List.length_append, List.length_map, List.length_range]
    rfl
  have hbase : cb.base into = into.len + 16 + cb.constants.length := rfl
  rw [hlen] at hloop h
  refine ⟨ips, instrs, codeHeader (BitVec.ofNat 64 code3.len) (BitVec.ofNat 32 (cb.base into))
    (BitVec.ofNat 32 (cb.base into) + cb.main) ++ code2.bytes.drop AsmM.headerSize, bs, hloop, hbs, ?_, ?_⟩
  · rw [List.length_append, List.length_drop, ← Code.len, hlen]
    simp only [codeHeader, List.length_append, length_leBytes, AsmM.headerSize]
    omega
  · rw [Code.push_eq_some h, hc3, List.drop_append_of_le_length (by rw [← Code.len, hlen, AsmM.headerSize]; omega),
      List.append_assoc]
    rfl

/-- Every reference is to a symbol. -/
def Resolved (cb : Builder) : Prop := ∀ patch ∈ cb.patchWork, (cb.symbols.find? (·.name = patch.range.view)).isSome

/-- What the linker gives: errors and no code when a text is the name of no symbol, and else the image of the instructions
    with what is added to them. -/
theorem link_eq {n : Nat} (h : cb.link 0 uninit into = some (n, code)) :
    (n = 0 ↔ cb.Resolved) ∧
      (n = 0 → ∃ pre bs, pre.length = cb.base into ∧ code.bytes = pre ++ bs ∧
        Instruction.emitAll (cb.instructions.mapIdx fun j ins => ins.plus (cb.linkSum into j)) = some bs) := by
  unfold link at h
  obtain ⟨refs, m, hrefs⟩ : ∃ refs m, cb.collectRefs cb.patchWork [] 0 = (refs, m) := ⟨_, _, rfl⟩
  obtain ⟨-, hiff, hat⟩ := collectRefs_eq hrefs
  simp only [hrefs] at h
  by_cases hm : m = 0
  · rw [if_neg (not_not.mpr hm)] at h
    obtain ⟨_, hemit, heq⟩ := Option.map_eq_some_iff.mp h
    cases heq
    refine ⟨iff_of_true rfl (hiff.mp hm), fun _ => ?_⟩
    obtain ⟨ips, instrs, pre, bs, hloop, hbs, hpre, hbytes⟩ := emitCode_bytes hemit
    refine ⟨pre, bs, hpre, hbytes, ?_⟩
    have hpatch := patchLoop_eq (i := 0) rfl (linkLoop_patchLoop hloop)
    have hinstrs : instrs = cb.instructions.mapIdx fun j ins => ins.plus (cb.linkSum into j) := by
      refine List.ext_getElem? fun j => ?_
      rw [hpatch, List.getElem?_mapIdx]
      rcases Nat.lt_or_ge j cb.instructions.length with hj | hj
      · rw [sum_linkTerm_of_refs (fun p => cb.target? p.range) (List.length_map ..) hj
          fun k => by rw [hat]; rfl]
        rfl
      · rw [List.getElem?_eq_none hj]
        rfl
    rw [← hinstrs, hbs]
  · rw [if_pos hm] at h
    cases h
    exact ⟨hiff, fun hn => absurd hn hm⟩

end Builder

theorem mapIdx_plus_zero {seq : List Instruction} {f : Nat → U64} (h : ∀ j < seq.length, f j = 0) :
    (seq.mapIdx fun j ins => ins.plus (f j)) = seq := by
  refine List.ext_getElem? fun j => ?_
  rw [List.getElem?_mapIdx]
  rcases Nat.lt_or_ge j seq.length with hj | hj
  · rw [h j hj]
    cases seq[j]? <;> simp
  · rw [List.getElem?_eq_none hj]
    rfl

namespace Instruction

theorem length_emit_plus (ins : Instruction) (d : U64) : (ins.plus d).emit.map List.length = ins.emit.map List.length := by
  unfold emit
  change (if 1 < ins.osz.val ∧ ins.hasImm then ins.emitMode.map fun ims => ins.head ++ leBytes ims.size (ins.ii + d)
    else some ins.head).map List.length = _
  by_cases himm : 1 < ins.osz.val ∧ ins.hasImm
  · rw [if_pos himm, if_pos himm]
    simp only [Option.map_map, Function.comp_def, List.length_append, length_leBytes]
  · rw [if_neg himm, if_neg himm]

/-- Linking keeps every offset. -/
theorem length_emitAll_plus {seq : List Instruction} {f : Nat → U64} {bs : List U8}
    (h : emitAll (seq.mapIdx fun j ins => ins.plus (f j)) = some bs) : ∃ bs', emitAll seq = some bs' ∧ bs'.length = bs.length := by
  induction seq generalizing f bs with
  | nil => exact ⟨bs, h, rfl⟩
  | cons ins seq ih =>
    rw [List.mapIdx_cons] at h
    obtain ⟨b, hb, rest, hrest, rfl⟩ := emitAll_cons h
    obtain ⟨rest', hrest', hlen⟩ := ih hrest
    have hhead := length_emit_plus ins (f 0)
    rw [hb] at hhead
    obtain ⟨b', hb', hlen'⟩ := Option.map_eq_some_iff.mp hhead.symm
    refine ⟨b' ++ rest', ?_, by rw [List.length_append, List.length_append, hlen, hlen']⟩
    rw [emitAll, hb', Option.bind_eq_bind, Option.bind_some, hrest']
    rfl

theorem length_le_emitAll {seq : List Instruction} {bs : List U8} (h : emitAll seq = some bs) : seq.length ≤ bs.length := by
  induction seq generalizing bs with
  | nil => exact Nat.zero_le _
  | cons ins seq ih =>
    obtain ⟨b, hb, rest, hrest, rfl⟩ := emitAll_cons h
    have hne : 0 < b.length := by
      unfold emit at hb
      split at hb
      · obtain ⟨m, -, rfl⟩ := Option.map_eq_some_iff.mp hb
        simp [head]
      · cases hb
        simp [head]
    have := ih hrest
    rw [List.length_cons, List.length_append]
    omega

theorem emitAll_congr {x y : Instruction} {seq seq' : List Instruction} (h : x.emit = y.emit) :
    emitAll (seq ++ x :: seq') = emitAll (seq ++ y :: seq') := by
  induction seq with
  | nil => simp only [List.nil_append, emitAll, h]
  | cons ins seq ih => simp only [List.cons_append, emitAll, ih]

end Instruction

section
variable {op : TokenKind} {l r : AstNode} {range : Range} {cb cb' : Builder} {jump opc : OpCode} {v : U64} {prog : Builder}

/-- The jump is emitted with a byte of its immediate. -/
theorem emitAll_logicCode {t : U64} :
    Instruction.emitAll (logicCode l jump opc .quad t) = Instruction.emitAll (logicCode l jump opc .byte t) := by
  rw [logicCode_eq, logicCode_eq]
  exact Instruction.emitAll_congr rfl

/-- Only the immediate of the jump is changed. -/
theorem mapIdx_logicCode {f : Nat → U64} {t : U64}
    (hf : ∀ j < (logicCode l jump opc .quad 0).length, f j = if j = jumpIndex l then t else 0) :
    ((logicCode l jump opc .quad 0).mapIdx fun j ins => ins.plus (f j)) = logicCode l jump opc .quad t := by
  have hcmp : (l.arithCode ++ [binaryIns .cmp (rRa .r5) (xIMb .byte 0)]).length = jumpIndex l := List.length_append
  rw [logicCode_eq] at hf ⊢
  rw [List.length_append, hcmp, List.length_cons] at hf
  have hjump : f (jumpIndex l) = t := by rw [hf _ (by omega), if_pos rfl]
  have hplus : (unaryIns jump (xIMb .quad 0)).plus t = unaryIns jump (xIMb .quad t) :=
    congrArg (fun t => unaryIns jump (xIMb .quad t)) (BitVec.zero_add t)
  rw [List.mapIdx_append, List.mapIdx_cons, hcmp, Nat.zero_add, hjump, hplus, mapIdx_plus_zero fun j hj => ?_,
    mapIdx_plus_zero fun j hj => ?_, ← logicCode_eq]
  · rw [hf _ (by omega), if_neg (by omega)]
  · rw [hcmp] at hj
    rw [hf _ (by omega), if_neg (by omega)]

/-- Of the code of a logical expression only the jump has a reference. -/
theorem patches_logicCode (hcb : cb.Patched) (hl : l.value = some v) (hop : logicOp? op = some (jump, opc))
    (hgen : (AstNode.logicExpr op l r range).generateCyn cb = some cb') (hprog : cb'.Extends prog)
    (hlen : prog.instructions.length < 2 ^ 32) {j : Nat} (hj : j < (logicCode l jump opc .quad 0).length) :
    prog.patchWork.filter (·.pos = cb.instructions.length + j) =
      if j = jumpIndex l then [⟨cb.instructions.length + jumpIndex l, range⟩] else [] := by
  obtain ⟨hinstrs, hpatch⟩ := AstNode.generateCyn_logicCode hl hop hgen
  obtain ⟨later, hlater, hpos⟩ := hprog.patchWork
  obtain ⟨seq, hseq⟩ := hprog.instructions
  have hindex : jumpIndex l < (logicCode l jump opc .quad 0).length := by
    have hcmp : (l.arithCode ++ [binaryIns .cmp (rRa .r5) (xIMb .byte 0)]).length = jumpIndex l := List.length_append
    rw [logicCode_eq, List.length_append, hcmp, List.length_cons]
    omega
  rw [hinstrs, List.length_append] at hpos
  rw [hseq, hinstrs, List.length_append, List.length_append] at hlen
  have hmod : (BitVec.ofNat 32 (cb.instructions.length + jumpIndex l)).toNat = cb.instructions.length + jumpIndex l := by
    rw [BitVec.toNat_ofNat, Nat.mod_eq_of_lt (by omega)]
  rw [hmod] at hpatch
  have hnone : later.filter (·.pos = cb.instructions.length + j) = [] :=
    List.filter_eq_nil_iff.mpr fun p hp => by
      have := hpos p hp
      simp only [decide_eq_true_eq]
      omega
  have hbefore : cb.patchWork.filter (·.pos = cb.instructions.length + j) = [] :=
    List.filter_eq_nil_iff.mpr fun p hp => by
      have := hcb p hp
      simp only [decide_eq_true_eq]
      omega
  rw [hlater, List.filter_append, hnone, List.append_nil, hpatch]
  have hperm := (List.perm_orderedInsert (·.pos < ·.pos) (⟨cb.instructions.length + jumpIndex l, range⟩ : Patch)
    cb.patchWork).filter (fun p => decide (p.pos = cb.instructions.length + j))
  rw [List.filter_cons, hbefore] at hperm
  by_cases hjump : j = jumpIndex l
  · rw [if_pos hjump]
    simp only [hjump, decide_true, if_true] at hperm ⊢
    exact List.perm_singleton.mp hperm
  · rw [if_neg hjump]
    have hne : ¬cb.instructions.length + jumpIndex l = cb.instructions.length + j := by omega
    simp only [hne, decide_false, Bool.false_eq_true, if_false] at hperm
    exact List.perm_nil.mp hperm

/-- The immediate of the jump after the linker, where it is instruction `j`. -/
def jumpTarget (prog : Builder) (into : Code) (range : Range) (j : Nat) : U64 :=
  landed (prog.base into) prog.sizes (prog.target? range) - ipAt (prog.base into) prog.sizes j

theorem linkSum_logicCode (hcb : cb.Patched) (hl : l.value = some v) (hop : logicOp? op = some (jump, opc))
    (hgen : (AstNode.logicExpr op l r range).generateCyn cb = some cb') (hprog : cb'.Extends prog)
    (hlen : prog.instructions.length < 2 ^ 32) {j : Nat} (hj : j < (logicCode l jump opc .quad 0).length) (into : Code) :
    prog.linkSum into (cb.instructions.length + j) =
      if j = jumpIndex l then jumpTarget prog into range (cb.instructions.length + jumpIndex l) else 0 := by
  have hfilter := patches_logicCode hcb hl hop hgen hprog hlen hj
  have hany : prog.patchWork.any (·.pos = cb.instructions.length + j) ↔ j = jumpIndex l := by
    constructor
    · intro h
      obtain ⟨p, hp, hpos⟩ := List.any_eq_true.mp h
      have hmem : p ∈ prog.patchWork.filter (·.pos = cb.instructions.length + j) := List.mem_filter.mpr ⟨hp, hpos⟩
      rw [hfilter] at hmem
      by_contra hne
      rw [if_neg hne] at hmem
      cases hmem
    · intro h
      rw [if_pos h] at hfilter
      obtain ⟨hmem, hpos⟩ := List.mem_filter.mp (hfilter.symm ▸ List.mem_singleton_self _)
      exact List.any_eq_true.mpr ⟨_, hmem, hpos⟩
  rw [Builder.linkSum, hfilter]
  by_cases hjump : j = jumpIndex l
  · rw [if_pos hjump, if_pos hjump, if_pos (hany.mpr hjump), List.map_singleton, List.sum_singleton, hjump]
    rfl
  · rw [if_neg hjump, if_neg hjump, if_neg (mt hany.mp hjump), List.map_nil, List.sum_nil, sub_zero]

/-- Where the linker puts the code of a logical expression, and what it is then. -/
theorem link_logicCode (hcb : cb.Patched) (hl : l.value = some v) (hop : logicOp? op = some (jump, opc))
    (hgen : (AstNode.logicExpr op l r range).generateCyn cb = some cb') (hprog : cb'.Extends prog) {into code : Code}
    {pre bs : List U8} (hpre : pre.length = prog.base into) (hcode : code.bytes = pre ++ bs)
    (hbs : Instruction.emitAll (prog.instructions.mapIdx fun j ins => ins.plus (prog.linkSum into j)) = some bs) :
    ∃ pre bs post, pre.length = emitOffset (prog.base into) prog.instructions cb.instructions.length ∧
      pre.length + bs.length = emitOffset (prog.base into) prog.instructions cb'.instructions.length ∧
      Instruction.emitAll (logicCode l jump opc .byte (jumpTarget prog into range (cb.instructions.length + jumpIndex l))) =
        some bs ∧ code.bytes = pre ++ bs ++ post := by
  have hlen : prog.instructions.length < 2 ^ 32 := by
    have h1 := Instruction.length_le_emitAll hbs
    have h2 : (pre ++ bs).length < 2 ^ 31 := by
      rw [← hcode]
      exact code.len_lt
    rw [List.length_mapIdx] at h1
    rw [List.length_append] at h2
    omega
  have hsum := fun j (hj : j < (logicCode l jump opc .quad 0).length) => linkSum_logicCode hcb hl hop hgen hprog hlen hj into
  obtain ⟨hinstrs, -⟩ := AstNode.generateCyn_logicCode hl hop hgen
  obtain ⟨seq, hseq⟩ := hprog.instructions
  rw [hseq, List.mapIdx_append] at hbs
  obtain ⟨b, b3, hb, -, rfl⟩ := Instruction.emitAll_append hbs
  obtain ⟨b', hb', hlen'⟩ := Instruction.length_emitAll_plus hb
  rw [hinstrs, List.mapIdx_append] at hb
  obtain ⟨b1, b2, hb1, hb2, rfl⟩ := Instruction.emitAll_append hb
  obtain ⟨b1', hb1', hlen1⟩ := Instruction.length_emitAll_plus hb1
  refine ⟨pre ++ b1, b2, b3, ?_, ?_, ?_, by rw [hcode]; simp only [List.append_assoc]⟩
  · rw [emitOffset, hseq, hinstrs, List.append_assoc, List.take_left, hb1', List.length_append, hpre, Option.getD_some, hlen1]
  · rw [emitOffset, hseq, List.take_left, hb', List.length_append, hpre, Option.getD_some, hlen', List.length_append,
      Nat.add_assoc]
  · rw [mapIdx_logicCode fun j hj => by rw [Nat.add_comm]; exact hsum j hj] at hb2
    rw [← emitAll_logicCode]
    exact hb2

end

end Cyntatic
