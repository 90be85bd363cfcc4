import Cyntatic.Theorems.AsmLink
import Cyntatic.Theorems.Codegen

/-! # Generated code

The code that is generated for an expression, by the form of the expression. Its layout is what the linker takes it to
be when there is no `&&` and no `||` in it, and then it leaves the stack where it was. -/

namespace Cyntatic
open Library

/-! ### The form of the code -/

/-- The code of an expression, for some positions of strings and labels. -/
inductive Generated : AstNode → List Instruction → Prop
  | stringLit (value : List U8) (pos : U64) : Generated (.stringLit value) [movR5 (xIMb .word pos)]
  | boolLit (value : Bool) : Generated (.boolLit value) [movR5 (xIMb .byte (if value then 1 else 0))]
  | charLit (value : U32) : Generated (.charLit value) [movR5 (xIMb .word (value.setWidth 64))]
  | integerLit (value : U64) : Generated (.integerLit value) [movR5 (xIMb .quad value)]
  | floatLit (value : U64) : Generated (.floatLit value) [movR5 (xIMb .quad value)]
  | varExpr (offset : U32) : Generated (.varExpr offset)
      [binaryIns .mov (rRa .r4) (rbEA .bp .byte (offset.setWidth 64)), movR5 (mRb .r4)]
  | unaryExpr {op : TokenKind} {e : AstNode} {seq : List Instruction} {ins : Instruction} (h : Generated e seq)
      (hop : unaryOp? op = some ins) : Generated (.unaryExpr op e) (seq ++ [ins])
  | prefixExpr {op : TokenKind} {e : AstNode} {seq : List Instruction} {ins : Instruction} (h : Generated e seq)
      (hop : stepOp? op = some ins) : Generated (.prefixExpr op e) (seq ++ [ins, movR5 (mRb .r4)])
  | postfixExpr {op : TokenKind} {e : AstNode} {seq : List Instruction} {ins : Instruction} (h : Generated e seq)
      (hop : stepOp? op = some ins) : Generated (.postfixExpr op e) (seq ++ [ins])
  | binaryExpr {op : TokenKind} {l r : AstNode} {seq seq' ops : List Instruction} (hl : Generated l seq)
      (hr : Generated r seq') (hop : binaryOp? op = some ops) :
      Generated (.binaryExpr op l r) (seq ++ unaryIns .push (rRa .r5) :: (seq' ++ unaryIns .pop (rRa .r4) :: ops))
  | logicExpr {op : TokenKind} {l : AstNode} (r : AstNode) (range : Range) {seq seq' : List Instruction}
      {jump opc : OpCode} (pos : U64) (hl : Generated l seq) (hl' : Generated l seq') (hop : logicOp? op = some (jump, opc)) :
      Generated (.logicExpr op l r range) (seq ++ binaryIns .cmp (rRa .r5) (xIMb .byte 0) ::
        unaryIns jump (xIMb .quad pos) :: unaryIns .push (rRa .r5) ::
          (seq' ++ [unaryIns .pop (rRa .r4), binaryIns opc (rRa .r5) (rRb .r4)]))

theorem Generated.ne_nil {node : AstNode} {seq : List Instruction} (h : Generated node seq) : seq ≠ [] := by
  cases h <;> simp

namespace Builder
variable (cb : Builder)

@[simp] theorem instructions_appendInstruction (ins : Instruction) :
    (cb.appendInstruction ins).instructions = cb.instructions ++ [ins] := rfl

@[simp] theorem instructions_appendAll (seq : List Instruction) :
    (cb.appendAll seq).instructions = cb.instructions ++ seq := by
  induction seq generalizing cb with
  | nil => exact (List.append_nil _).symm
  | cons ins seq ih => exact (ih _).trans (List.append_assoc ..)

theorem addSymbolReference_instructions {cb' : Builder} {pos p : U32} {name : List U8} {range : Range} {b : Bool}
    (h : cb.addSymbolReference pos name range b = some (p, cb')) : cb'.instructions = cb.instructions := by
  unfold addSymbolReference at h
  split at h
  · cases h
    rfl
  · split at h
    · cases h
      rfl
    · cases h

theorem addSymbol_instructions {cb' : Builder} {pos : U32} {tag : SymbolTag} {name : List U8} {range : Range}
    (h : cb.addSymbol pos tag name range = some cb') : cb'.instructions = cb.instructions := by
  unfold addSymbol at h
  split at h
  · cases h
  · cases h
    rfl

end Builder

theorem AstNode.generateCyn_generated {node : AstNode} {cb cb' : Builder} (h : node.generateCyn cb = some cb') :
    ∃ seq, Generated node seq ∧ cb'.instructions = cb.instructions ++ seq := by
  induction node generalizing cb cb' with
  | stringLit value =>
    cases h
    exact ⟨_, .stringLit value _, rfl⟩
  | boolLit value =>
    cases h
    exact ⟨_, .boolLit value, rfl⟩
  | charLit value =>
    cases h
    exact ⟨_, .charLit value, rfl⟩
  | integerLit value =>
    cases h
    exact ⟨_, .integerLit value, rfl⟩
  | floatLit value =>
    cases h
    exact ⟨_, .floatLit value, rfl⟩
  | varExpr offset =>
    cases h
    exact ⟨_, .varExpr offset, Builder.instructions_appendAll ..⟩
  | unaryExpr op e ih =>
    obtain ⟨c, hc, h⟩ := Option.bind_eq_some_iff.mp h
    obtain ⟨ins, hop, h⟩ := Option.bind_eq_some_iff.mp h
    cases h
    obtain ⟨seq, hseq, hins⟩ := ih hc
    refine ⟨_, .unaryExpr hseq hop, ?_⟩
    rw [Builder.instructions_appendInstruction, hins, List.append_assoc]
  | prefixExpr op e ih =>
    obtain ⟨c, hc, h⟩ := Option.bind_eq_some_iff.mp h
    obtain ⟨ins, hop, h⟩ := Option.bind_eq_some_iff.mp h
    cases h
    obtain ⟨seq, hseq, hins⟩ := ih hc
    refine ⟨_, .prefixExpr hseq hop, ?_⟩
    rw [Builder.instructions_appendInstruction, Builder.instructions_appendInstruction, hins, List.append_assoc,
      List.append_assoc, List.singleton_append]
  | postfixExpr op e ih =>
    obtain ⟨c, hc, h⟩ := Option.bind_eq_some_iff.mp h
    obtain ⟨ins, hop, h⟩ := Option.bind_eq_some_iff.mp h
    cases h
    obtain ⟨seq, hseq, hins⟩ := ih hc
    refine ⟨_, .postfixExpr hseq hop, ?_⟩
    rw [Builder.instructions_appendInstruction, hins, List.append_assoc]
  | binaryExpr op l r ihl ihr =>
    obtain ⟨c, hc, h⟩ := Option.bind_eq_some_iff.mp h
    obtain ⟨d, hd, h⟩ := Option.bind_eq_some_iff.mp h
    obtain ⟨ops, hop, h⟩ := Option.bind_eq_some_iff.mp h
    cases h
    obtain ⟨seq, hseq, hins⟩ := ihl hc
    obtain ⟨seq', hseq', hins'⟩ := ihr hd
    refine ⟨_, .binaryExpr hseq hseq' hop, ?_⟩
    rw [Builder.instructions_appendAll, Builder.instructions_appendInstruction, hins',
      Builder.instructions_appendInstruction, hins]
    simp only [List.append_assoc, List.cons_append, List.nil_append]
  | logicExpr op l r range ihl _ =>
    obtain ⟨c, hc, h⟩ := Option.bind_eq_some_iff.mp h
    obtain ⟨⟨jump, opc⟩, hop, h⟩ := Option.bind_eq_some_iff.mp h
    obtain ⟨⟨pos, d⟩, hd, h⟩ := Option.bind_eq_some_iff.mp h
    obtain ⟨e, he, h⟩ := Option.bind_eq_some_iff.mp h
    obtain ⟨seq, hseq, hins⟩ := ihl hc
    obtain ⟨seq', hseq', hins'⟩ := ihl he
    refine ⟨_, .logicExpr r range (pos.setWidth 64) hseq hseq' hop, ?_⟩
    rw [Builder.addSymbol_instructions _ h]
    simp only [Builder.instructions_appendInstruction, hins', Builder.addSymbolReference_instructions _ hd,
      hins, List.append_assoc, List.cons_append, List.nil_append]

/-! ### The size of the code -/

namespace Instruction

/-- `VM_code_append_` adds some bytes for an instruction. -/
def Emits (ins : Instruction) (n : Nat) : Prop := ins.emit.map List.length = some n

theorem emits_iff {ins : Instruction} {n : Nat} : ins.Emits n ↔ ∃ bs, ins.emit = some bs ∧ bs.length = n :=
  Option.map_eq_some_iff

theorem Emits.plus {ins : Instruction} {n : Nat} (h : ins.Emits n) (d : U64) : (ins.plus d).Emits n := by
  refine Eq.trans ?_ h
  unfold emit
  change (if 1 < ins.osz.val ∧ ins.hasImm then ins.emitMode.map fun ims => ins.head ++ leBytes ims.size (ins.ii + d)
    else some ins.head).map List.length = _
  split
  · rw [Option.map_map, Option.map_map]
    exact congrArg (ins.emitMode.map ·) (funext fun ims => by simp)
  · rfl

theorem Linkable.emits {ins : Instruction} (h : ins.Linkable) : ins.Emits ins.linkSize := emits_iff.mpr h.emit

/-- Instructions of some sizes, one after the other. -/
theorem exists_emitAll_of_emits {seq : List Instruction} {sizes : List Nat} (h : List.Forall₂ Emits seq sizes) :
    ∃ bs, emitAll seq = some bs ∧ bs.length = sizes.sum := by
  induction h with
  | nil => exact ⟨[], rfl, rfl⟩
  | cons h _ ih =>
    obtain ⟨b, hb, hlen⟩ := emits_iff.mp h
    obtain ⟨bs, hbs, hsum⟩ := ih
    refine ⟨b ++ bs, by rw [emitAll, hb, hbs]; rfl, ?_⟩
    rw [List.length_append, hlen, hsum, List.sum_cons]

end Instruction

/-- Instructions of some sizes. One of them, and not the last one, has seven bytes more for the linker; before it the
    linker is right. -/
inductive Skewed : List Instruction → List Nat → Prop
  | here {ins : Instruction} {seq : List Instruction} {n : Nat} {sizes : List Nat} (h : ins.Emits n)
      (hlink : ins.linkSize = n + 7) (hseq : List.Forall₂ Instruction.Emits seq sizes) (hne : seq ≠ []) :
      Skewed (ins :: seq) (n :: sizes)
  | there {ins : Instruction} {seq : List Instruction} {sizes : List Nat} (h : ins.Linkable) (hseq : Skewed seq sizes) :
      Skewed (ins :: seq) (ins.linkSize :: sizes)

namespace Skewed
variable {seq seq' : List Instruction} {sizes sizes' : List Nat}

theorem emits (h : Skewed seq sizes) : List.Forall₂ Instruction.Emits seq sizes := by
  induction h with
  | here h _ hseq _ => exact .cons h hseq
  | there h _ ih => exact .cons h.emits ih

theorem append (h : Skewed seq sizes) (h' : List.Forall₂ Instruction.Emits seq' sizes') :
    Skewed (seq ++ seq') (sizes ++ sizes') := by
  induction h with
  | here h hlink hseq hne => exact .here h hlink (List.rel_append hseq h') (by simp [hne])
  | there h _ ih => exact .there h ih

theorem prepend (h : Skewed seq sizes) (h' : ∀ ins ∈ seq', ins.Linkable) :
    Skewed (seq' ++ seq) (seq'.map Instruction.linkSize ++ sizes) := by
  induction seq' with
  | nil => exact h
  | cons ins seq' ih =>
    rw [List.forall_mem_cons] at h'
    exact .there h'.1 (ih h'.2)

/-- After that instruction the offsets differ. -/
theorem exists_offset (h : Skewed seq sizes) :
    ∃ k < seq.length, offset (seq.map Instruction.linkSize) k = offset sizes k + 7 := by
  induction h with
  | @here ins seq n sizes h hlink hseq hne =>
    refine ⟨1, Nat.succ_lt_succ (List.length_pos_of_ne_nil hne), ?_⟩
    simp [offset, hlink]
  | @there ins seq sizes h hseq ih =>
    obtain ⟨k, hk, ih⟩ := ih
    refine ⟨k + 1, Nat.succ_lt_succ hk, ?_⟩
    simp only [offset, List.map_cons, List.take_succ_cons, List.sum_cons] at ih ⊢
    omega

end Skewed

theorem emits_of_linkable {seq : List Instruction} (h : ∀ ins ∈ seq, ins.Linkable) :
    List.Forall₂ Instruction.Emits seq (seq.map Instruction.linkSize) := by
  rw [List.forall₂_map_right_iff, List.forall₂_same]
  exact fun ins hins => (h ins hins).emits

/-! ### The layout of an expression -/

/-- No `&&` and no `||`. -/
def AstNode.NoLogic : AstNode → Prop
  | .unaryExpr _ e | .prefixExpr _ e | .postfixExpr _ e => e.NoLogic
  | .binaryExpr _ l r => l.NoLogic ∧ r.NoLogic
  | .logicExpr .. => False
  | _ => True

section
variable {op : TokenKind} {ins : Instruction}

theorem linkable_two (hosz : ins.osz = 2) (hrmd : ins.rmd = .reg) (hiea : ins.iea = false) : ins.Linkable where
  osz_ne := by rw [hosz]; decide
  ra_eq _ himm := by rw [hrmd] at himm; cases himm
  iea_eq _ := hiea
  imm_one h := absurd (hosz.symm.trans h) (by decide)

theorem linkable_unaryOp (h : unaryOp? op = some ins) : ins.Linkable := by
  cases op <;> cases h <;> exact linkable_two rfl rfl rfl

theorem linkable_stepOp (h : stepOp? op = some ins) : ins.Linkable := by
  cases op <;> cases h <;> exact linkable_two rfl rfl rfl

theorem linkable_binaryOp {seq : List Instruction} (h : binaryOp? op = some seq) : ∀ ins ∈ seq, ins.Linkable :=
  fun ins hins => Instruction.linkable_of_three (AstNode.osz_binaryOp h ins hins)

/-- The jump keeps the mode of its immediate where only the linker looks. -/
theorem emits_jump {jump opc : OpCode} (pos : U64) (h : logicOp? op = some (jump, opc)) :
    (unaryIns jump (xIMb .quad pos)).Emits 3 := by
  cases op <;> cases h <;> rfl

end

/-- Some instructions before or after those of an operand. -/
def Layout (node : AstNode) (seq : List Instruction) : Prop :=
  node.NoLogic ∧ (∀ ins ∈ seq, ins.Linkable) ∨ ¬node.NoLogic ∧ ∃ sizes, Skewed seq sizes

namespace Layout
variable {node node' : AstNode} {seq seq' : List Instruction}

theorem emits (h : Layout node seq) : ∃ sizes, List.Forall₂ Instruction.Emits seq sizes := by
  rcases h with ⟨-, h⟩ | ⟨-, sizes, h⟩
  · exact ⟨_, emits_of_linkable h⟩
  · exact ⟨sizes, h.emits⟩

theorem append (h : Layout node seq) (h' : ∀ ins ∈ seq', ins.Linkable) : Layout node (seq ++ seq') := by
  rcases h with ⟨hn, h⟩ | ⟨hn, sizes, h⟩
  · exact .inl ⟨hn, List.forall_mem_append.mpr ⟨h, h'⟩⟩
  · exact .inr ⟨hn, _, h.append (emits_of_linkable h')⟩

theorem prepend (h : Layout node seq) (h' : ∀ ins ∈ seq', ins.Linkable) : Layout node (seq' ++ seq) := by
  rcases h with ⟨hn, h⟩ | ⟨hn, sizes, h⟩
  · exact .inl ⟨hn, List.forall_mem_append.mpr ⟨h', h⟩⟩
  · exact .inr ⟨hn, _, h.prepend h'⟩

theorem both {op : TokenKind} (h : Layout node seq) (h' : Layout node' seq') :
    Layout (.binaryExpr op node node') (seq ++ seq') := by
  rcases h with ⟨hn, h⟩ | ⟨hn, sizes, h⟩
  · rcases h' with ⟨hn', h'⟩ | ⟨hn', sizes, h'⟩
    · exact .inl ⟨⟨hn, hn'⟩, List.forall_mem_append.mpr ⟨h, h'⟩⟩
    · exact .inr ⟨fun hb => hn' hb.2, _, h'.prepend h⟩
  · obtain ⟨sizes', h'⟩ := h'.emits
    exact .inr ⟨fun hb => hn hb.1, _, h.append h'⟩

end Layout

theorem Generated.layout {node : AstNode} {seq : List Instruction} (h : Generated node seq) : Layout node seq := by
  induction h with
  | unaryExpr _ hop ih => exact ih.append (List.forall_mem_singleton.mpr (linkable_unaryOp hop))
  | prefixExpr _ hop ih =>
    refine ih.append (List.forall_mem_cons.mpr ⟨linkable_stepOp hop, List.forall_mem_singleton.mpr ?_⟩)
    exact Instruction.linkable_of_three rfl
  | postfixExpr _ hop ih => exact ih.append (List.forall_mem_singleton.mpr (linkable_stepOp hop))
  | @binaryExpr op l r seq seq' ops _ _ hop ihl ihr =>
    have hpush : (unaryIns .push (rRa .r5)).Linkable := linkable_two rfl rfl rfl
    have hpop : (unaryIns .pop (rRa .r4)).Linkable := linkable_two rfl rfl rfl
    have hr := ihr.append (List.forall_mem_cons.mpr ⟨hpop, linkable_binaryOp hop⟩)
    exact ihl.both (hr.prepend (List.forall_mem_singleton.mpr hpush))
  | @logicExpr op l r range seq seq' jump opc pos _ _ hop ihl ihl' =>
    have hcmp : (binaryIns .cmp (rRa .r5) (xIMb .byte 0)).Linkable := Instruction.linkable_of_three rfl
    have hpush : (unaryIns .push (rRa .r5)).Linkable := linkable_two rfl rfl rfl
    have hpop : (unaryIns .pop (rRa .r4)).Linkable := linkable_two rfl rfl rfl
    have hop' : (binaryIns opc (rRa .r5) (rRb .r4)).Linkable := Instruction.linkable_of_three rfl
    -- the code after the jump is emitted, whatever the linker takes its size to be
    obtain ⟨rest, hrest⟩ := (ihl'.append (List.forall_mem_cons.mpr ⟨hpop, List.forall_mem_singleton.mpr hop'⟩)).emits
    have hjump := Skewed.here (emits_jump pos hop) rfl (.cons hpush.emits hrest) (List.cons_ne_nil _ _)
    refine .inr ⟨id, ?_⟩
    rcases ihl with ⟨-, h⟩ | ⟨-, sizes, h⟩
    · exact ⟨_, (Skewed.there hcmp hjump).prepend h⟩
    · exact ⟨_, h.append (.cons hcmp.emits hjump.emits)⟩
  | varExpr => exact .inl ⟨trivial, List.forall_mem_cons.mpr ⟨Instruction.linkable_of_three rfl,
      List.forall_mem_singleton.mpr (Instruction.linkable_of_three rfl)⟩⟩
  | _ => exact .inl ⟨trivial, List.forall_mem_singleton.mpr (Instruction.linkable_of_three rfl)⟩

/-! ### The linker -/

theorem Builder.linkLoop_patchLoop {patches : List Patch} {refs : AsmM.Refs} {n i : Nat} {ip : U32} {ips : List U32}
    {instrs instrs' : List Instruction} (h : linkLoop patches refs n i ip instrs = some (ips, instrs')) :
    patchLoop patches refs n i ip instrs = some instrs' := by
  induction n generalizing i ip ips instrs with
  | zero =>
    cases h
    rfl
  | succ n ih =>
    obtain ⟨mid, hmid, h⟩ := Option.bind_eq_some_iff.mp h
    obtain ⟨ins, hins, h⟩ := Option.bind_eq_some_iff.mp h
    obtain ⟨⟨rest, last⟩, hrest, h⟩ := Option.bind_eq_some_iff.mp h
    cases h
    exact Option.bind_eq_some_iff.mpr ⟨mid, hmid, Option.bind_eq_some_iff.mpr ⟨ins, hins, ih hrest⟩⟩

/-- The linker counts in the sizes that it takes the instructions to have. -/
theorem Builder.linkLoop_ips {patches : List Patch} {refs : AsmM.Refs} {db n i : Nat} {sizes : List Nat} {ips : List U32}
    {instrs instrs' : List Instruction} (hsizes : instrs.map Instruction.linkSize = sizes)
    (h : linkLoop patches refs n i (BitVec.ofNat 32 (db + offset sizes i)) instrs = some (ips, instrs')) :
    ips = (List.range' i n).map fun k => BitVec.ofNat 32 (db + offset sizes k) := by
  induction n generalizing i ips instrs with
  | zero =>
    cases h
    rfl
  | succ n ih =>
    obtain ⟨mid, hmid, h⟩ := Option.bind_eq_some_iff.mp h
    obtain ⟨ins, hins, h⟩ := Option.bind_eq_some_iff.mp h
    obtain ⟨⟨rest, last⟩, hrest, h⟩ := Option.bind_eq_some_iff.mp h
    cases h
    have hmidsizes : mid.map Instruction.linkSize = sizes := by
      rw [← hsizes]
      refine List.ext_getElem? fun j => ?_
      rw [List.getElem?_map, List.getElem?_map, linkStep_eq hmid, Option.map_map]
      rfl
    have hsize : sizes[i]? = some ins.linkSize := by rw [← hmidsizes, List.getElem?_map, hins, Option.map_some]
    rw [← BitVec.ofNat_add, Nat.add_assoc, ← offset_succ hsize] at hrest
    rw [ih hmidsizes hrest, List.range'_succ, List.map_cons]

theorem Builder.linkLoop_getElem? {patches : List Patch} {refs : AsmM.Refs} {db k : Nat} {ips : List U32}
    {pre seq instrs : List Instruction}
    (h : linkLoop patches refs (pre ++ seq).length 0 (BitVec.ofNat 32 db) (pre ++ seq) = some (ips, instrs))
    (hk : k < seq.length) : ips[pre.length + k]? = some (BitVec.ofNat 32 (db + (pre.map Instruction.linkSize).sum) +
      BitVec.ofNat 32 (offset (seq.map Instruction.linkSize) k)) := by
  have hips := linkLoop_ips (i := 0) rfl h
  have hoff := offset_append (pre.map Instruction.linkSize) (seq.map Instruction.linkSize) k
  rw [List.length_map, ← List.map_append] at hoff
  rw [hips, List.getElem?_map, List.getElem?_range' (by rw [List.length_append]; omega), Option.map_some, Nat.zero_add,
    Nat.one_mul, hoff, ← BitVec.ofNat_add, Nat.add_assoc]

/-- From instruction `n` on, which is at `start`, the linker gives every instruction the offset at which it is emitted. -/
def LaidOut (ips : List U32) (instrs : List Instruction) (n : Nat) (start : U32) : Prop :=
  ∀ k, n + k < instrs.length → ∃ bs, Instruction.emitAll ((instrs.drop n).take k) = some bs ∧
    ips[n + k]? = some (start + BitVec.ofNat 32 bs.length)

theorem forall₂_emits_plus {seq seq' : List Instruction} {sizes : List Nat} {d : Nat → U64}
    (h : List.Forall₂ Instruction.Emits seq sizes) (hd : ∀ j : Nat, seq'[j]? = seq[j]?.map fun ins => ins.plus (d j)) :
    List.Forall₂ Instruction.Emits seq' sizes := by
  induction h generalizing seq' d with
  | nil =>
    obtain rfl : seq' = [] := List.ext_getElem? hd
    exact .nil
  | cons h _ ih =>
    cases seq' with
    | nil => cases hd 0
    | cons ins seq' =>
      have h0 := hd 0
      rw [List.getElem?_cons_zero, List.getElem?_cons_zero, Option.map_some, Option.some.injEq] at h0
      rw [h0]
      exact .cons (h.plus _) (ih fun j => hd (j + 1))

/-- The offsets of the linker against those of the bytes. -/
theorem laidOut_iff {patches : List Patch} {refs : AsmM.Refs} {db : Nat} {ips : List U32}
    {pre seq instrs : List Instruction} {sizes : List Nat} (hseq : List.Forall₂ Instruction.Emits seq sizes)
    (hl : Builder.linkLoop patches refs (pre ++ seq).length 0 (BitVec.ofNat 32 db) (pre ++ seq) = some (ips, instrs)) :
    LaidOut ips instrs pre.length (BitVec.ofNat 32 (db + (pre.map Instruction.linkSize).sum)) ↔ ∀ k < seq.length,
      BitVec.ofNat 32 (offset (seq.map Instruction.linkSize) k) = BitVec.ofNat 32 (offset sizes k) := by
  obtain ⟨d, hpatch⟩ : ∃ d : Nat → U64, ∀ j : Nat, instrs[j]? = (pre ++ seq)[j]?.map fun ins => ins.plus (d j) :=
    ⟨_, patchLoop_eq (i := 0) rfl (Builder.linkLoop_patchLoop hl)⟩
  have hlen : instrs.length = pre.length + seq.length := by
    rw [← List.length_append]
    refine Nat.le_antisymm (Nat.le_of_not_lt fun h => ?_) (Nat.le_of_not_lt fun h => ?_)
    · have h' := hpatch (pre ++ seq).length
      rw [List.getElem?_eq_getElem h, List.getElem?_eq_none (Nat.le_refl _)] at h'
      cases h'
    · have h' := hpatch instrs.length
      rw [List.getElem?_eq_getElem h, List.getElem?_eq_none (Nat.le_refl _)] at h'
      cases h'
  have hemits : List.Forall₂ Instruction.Emits (instrs.drop pre.length) sizes := by
    refine forall₂_emits_plus (d := fun j => d (pre.length + j)) hseq fun j => ?_
    rw [List.getElem?_drop, hpatch, List.getElem?_append_right (Nat.le_add_right ..), Nat.add_sub_cancel_left]
  rw [LaidOut, hlen]
  constructor
  · intro h k hk
    obtain ⟨bs, hbs, hat⟩ := h k (Nat.add_lt_add_left hk _)
    obtain ⟨bs', hbs', hsum⟩ := Instruction.exists_emitAll_of_emits (List.forall₂_take k hemits)
    obtain rfl := Option.some.inj (hbs.symm.trans hbs')
    rw [Builder.linkLoop_getElem? hl hk, Option.some.injEq, add_right_inj, hsum] at hat
    exact hat
  · intro h k hk
    obtain ⟨bs, hbs, hsum⟩ := Instruction.exists_emitAll_of_emits (List.forall₂_take k hemits)
    refine ⟨bs, hbs, ?_⟩
    rw [Builder.linkLoop_getElem? hl (by omega), h k (by omega), hsum, offset]

/-- The linker gives the instructions of an expression the offsets at which they are emitted exactly when there is no
    `&&` and no `||` in it. -/
theorem AstNode.generateCyn_layout {node : AstNode} {cb cb' : Builder} (h : node.generateCyn cb = some cb')
    {patches : List Patch} {refs : AsmM.Refs} {db : U32} {ips : List U32} {instrs : List Instruction}
    (hl : Builder.linkLoop patches refs cb'.instructions.length 0 db cb'.instructions = some (ips, instrs)) :
    ∃ start, ips[cb.instructions.length]? = some start ∧ (cb.instructions = [] → start = db) ∧
      (LaidOut ips instrs cb.instructions.length start ↔ node.NoLogic) := by
  obtain ⟨seq, hgen, hseq⟩ := generateCyn_generated h
  obtain ⟨b, rfl⟩ : ∃ b, db = BitVec.ofNat 32 b := ⟨db.toNat, by rw [BitVec.ofNat_toNat, BitVec.setWidth_eq]⟩
  rw [hseq] at hl
  refine ⟨BitVec.ofNat 32 (b + (cb.instructions.map Instruction.linkSize).sum), ?_, fun hnil => by rw [hnil]; rfl, ?_⟩
  · have hstart := Builder.linkLoop_getElem? hl (List.length_pos_of_ne_nil hgen.ne_nil)
    rwa [offset_zero, BitVec.add_zero, Nat.add_zero] at hstart
  · rcases hgen.layout with ⟨hn, hlink⟩ | ⟨hn, sizes, hskew⟩
    · rw [laidOut_iff (emits_of_linkable hlink) hl]
      exact ⟨fun _ => hn, fun _ k _ => rfl⟩
    · rw [laidOut_iff hskew.emits hl]
      obtain ⟨k, hk, hoff⟩ := hskew.exists_offset
      refine ⟨fun hall => ?_, fun hn' => absurd hn' hn⟩
      have hk := hall k hk
      rw [hoff, BitVec.ofNat_add, add_eq_left] at hk
      exact absurd hk (by decide)

theorem AstNode.generateCyn_layout_sum : ∃ cb ips instrs, sum.generateCyn {} = some cb ∧
    Builder.linkLoop [] [] cb.instructions.length 0 16 cb.instructions = some (ips, instrs) ∧ LaidOut ips instrs 0 16 := by
  have hgen : sum.generateCyn {} = some { instructions := sum.arithCode } := rfl
  obtain ⟨⟨ips, instrs⟩, hl⟩ := Option.isSome_iff_exists.mp
    (show (Builder.linkLoop [] [] sum.arithCode.length 0 16 sum.arithCode).isSome by decide)
  obtain ⟨start, -, hdb, hiff⟩ := AstNode.generateCyn_layout hgen hl
  have hlaid := hiff.mpr ⟨trivial, trivial⟩
  rw [hdb rfl] at hlaid
  exact ⟨_, ips, instrs, hgen, hl, hlaid⟩

/-- `true || false`, in a source where the text of the expression is its label -/
def disjunction : AstNode :=
  .logicExpr .tokOr (.boolLit true) (.boolLit false) { start := 0, stop := 2, source := ascii ['L', '0'] }

/-- The linker takes the jump of `true || false` to be seven bytes longer than it is. -/
theorem AstNode.disjunction_not_laidOut : ∃ cb ips instrs, disjunction.generateCyn {} = some cb ∧
    cb.symbols.map (fun sym => (sym.name, sym.id)) = [(ascii ['L', '0'], 7)] ∧
    Builder.linkLoop cb.patchWork [(7, [2])] cb.instructions.length 0 16 cb.instructions = some (ips, instrs) ∧
    cb.instructions.length = 7 ∧ ips[3]? = some 34 ∧ (Instruction.emitAll (instrs.take 3)).map List.length = some 11 ∧
    ¬LaidOut ips instrs 0 16 := by
  obtain ⟨⟨ips, instrs⟩, hl, h3, hlen, hbs⟩ : ∃ r, Builder.linkLoop [⟨2, { start := 0, stop := 2, source := ascii ['L', '0'] }⟩]
      [(7, [2])] 7 0 16 ((disjunction.generateCyn {}).get (by decide)).instructions = some r ∧ r.1[3]? = some 34 ∧
      r.2.length = 7 ∧ (Instruction.emitAll (r.2.take 3)).map List.length = some 11 := ⟨_, rfl, by decide, by decide, by decide⟩
  refine ⟨_, ips, instrs, rfl, by decide, hl, by decide, h3, hbs, fun h => ?_⟩
  obtain ⟨bs, hemit, hip⟩ := h 3 (by rw [hlen]; decide)
  rw [List.drop_zero] at hemit
  rw [hemit, Option.map_some, Option.some.injEq] at hbs
  rw [Nat.zero_add, h3, hbs] at hip
  exact absurd hip (by decide)

/-! ### The stack -/

/-- `sp` is moved, while `bp`, `ip` and the code are the same. -/
structure Moved (a b : Vm) (d : U64) : Prop where
  sp : b.reg .sp = a.reg .sp + d
  bp : b.reg .bp = a.reg .bp
  ip : b.reg .ip = a.reg .ip
  code : b.code = a.code

theorem Moved.refl (a : Vm) : Moved a a 0 := ⟨(add_zero _).symm, rfl, rfl, rfl⟩

theorem Moved.trans {a b c : Vm} {d e : U64} (h : Moved a b d) (h' : Moved b c e) : Moved a c (d + e) :=
  ⟨by rw [h'.sp, h.sp, add_assoc], h'.bp.trans h.bp, h'.ip.trans h.ip, h'.code.trans h.code⟩

/-- None of `sp`, `ip` and `bp`. -/
def Place.Free (p : Place) : Prop := ∀ n, p = .reg n → n ∉ [6, 7, 8]

/-- The operations of generated code that do not move `sp`. -/
def OpCode.quiet : OpCode → Bool
  | .not | .bnot | .inc | .dec | .mov | .add | .sub | .sar | .sal | .xor | .bor | .band | .mul | .div | .mod | .cmp => true
  | _ => false

namespace VmM
open Prog
variable {host : Host} {iip : U64} {vm vm' : Vm} {instr : Instruction} {rA rB : Place} {ta tb : Mode} {u : Unit}

theorem moved_write {v : U64} (hA : rA.Free) (h : (write rA v ta).Returns vm u vm') : Moved vm vm' 0 := by
  obtain ⟨-, rfl⟩ := write_returns.mp h
  cases rA with
  | reg n =>
    have hall : ∀ n : Fin 16, n ∉ [6, 7, 8] → Register.ofNat? n ≠ some .sp ∧ Register.ofNat? n ≠ some .ip ∧
        Register.ofNat? n ≠ some .bp := by decide
    obtain ⟨hsp, hip, hbp⟩ := hall n (hA n rfl)
    rw [Vm.writeAt]
    cases hr : Register.ofNat? n with
    | none => exact .refl vm
    | some r =>
      rw [hr] at hsp hip hbp
      have hne {q : Register} (hq : some r ≠ some q) : q ≠ r := fun heq => hq (congrArg some heq.symm)
      refine ⟨?_, Vm.reg_setReg_of_ne _ _ (hne hbp), Vm.reg_setReg_of_ne _ _ (hne hip), rfl⟩
      rw [add_zero]
      exact Vm.reg_setReg_of_ne _ _ (hne hsp)
  | _ => exact ⟨(add_zero _).symm, rfl, rfl, rfl⟩

theorem moved_binary {f : U64 → U64 → Except Stop U64} (hA : rA.Free)
    (h : (binary instr rA rB ta tb f).Returns vm u vm') : Moved vm vm' 0 := by
  simp only [binary, returns_bind, read_returns] at h
  obtain ⟨a, s, ⟨-, -, rfl⟩, b, t, ⟨-, -, rfl⟩, h⟩ := h
  split at h
  · exact moved_write hA h
  · exact absurd h returns_stop

theorem moved_unary {f : U64 → U64} (hA : rA.Free) (h : (unary instr rA ta tb f).Returns vm u vm') : Moved vm vm' 0 := by
  simp only [unary, returns_bind, read_returns] at h
  obtain ⟨a, s, ⟨-, -, rfl⟩, h⟩ := h
  exact moved_write hA h

theorem moved_cmp (h : (cmp instr rA rB ta tb).Returns vm u vm') : Moved vm vm' 0 := by
  simp only [cmp, returns_bind, read_returns, setReg_returns] at h
  obtain ⟨a, s, ⟨-, -, rfl⟩, b, t, ⟨-, -, rfl⟩, rfl⟩ := h
  refine ⟨?_, Vm.reg_setReg_of_ne _ _ (by decide), Vm.reg_setReg_of_ne _ _ (by decide), rfl⟩
  rw [add_zero]
  exact Vm.reg_setReg_of_ne _ _ (by decide)

theorem moved_apply {o : OpCode} (hop : instr.op = some o) (ho : o.quiet = true) (hA : rA.Free)
    (h : (apply host instr iip rA rB).Returns vm u vm') : Moved vm vm' 0 := by
  simp only [apply, hop] at h
  cases o <;> simp only [OpCode.quiet, Bool.false_eq_true] at ho
  case not | bnot | inc | dec => exact moved_unary hA h
  case mov =>
    simp only [returns_bind, read_returns] at h
    obtain ⟨b, t, ⟨-, -, rfl⟩, h⟩ := h
    exact moved_write hA h
  case cmp => exact moved_cmp h
  case mod => exact absurd h abort_returns
  all_goals exact moved_binary hA h

theorem moved_push (h : (push (read instr rA tb)).Returns vm u vm') : Moved vm vm' (-8) := by
  simp only [push, returns_bind, pushn_none_returns, read_returns, storeWord_returns] at h
  obtain ⟨off, s, ⟨-, -, -, rfl⟩, v, t, ⟨-, -, rfl⟩, -, rfl⟩ := h
  have hone : wordsSize 1 = 8 := rfl
  refine ⟨?_, ?_, ?_, rfl⟩
  · rw [Vm.reg_setBytes, Vm.reg_setReg, hone, sub_eq_add_neg]
  · rw [Vm.reg_setBytes, Vm.reg_setReg_of_ne _ _ (by decide)]
  · rw [Vm.reg_setBytes, Vm.reg_setReg_of_ne _ _ (by decide)]

theorem moved_pop (hA : rA.Free) (h : (do write rA (← pop) tb : VmM Unit).Returns vm u vm') : Moved vm vm' 8 := by
  simp only [returns_bind, pop_returns] at h
  obtain ⟨v, s, ⟨-, -, rfl⟩, h⟩ := h
  have hw := moved_write hA h
  have hs : Moved vm (vm.setReg .sp (vm.reg .sp + 8)) 8 :=
    ⟨Vm.reg_setReg .., Vm.reg_setReg_of_ne _ _ (by decide), Vm.reg_setReg_of_ne _ _ (by decide), rfl⟩
  exact hs.trans hw

theorem placeReg_free {n : Fin 16} {i : Bool} {d : U64} (hn : i = true ∨ n ∉ [6, 7, 8])
    (h : (placeReg n i d).Returns vm rA vm') : rA.Free := by
  cases i with
  | true =>
    obtain ⟨addr, s, -, h⟩ := returns_bind.mp h
    obtain ⟨off, t, -, h⟩ := returns_bind.mp h
    obtain ⟨rfl, -⟩ := returns_pure.mp h
    intro m hm
    cases hm
  | false =>
    obtain ⟨rfl, -⟩ := returns_pure.mp h
    intro m hm
    cases hm
    exact hn.resolve_left (by decide)

/-- Where an instruction writes. -/
theorem operands_free (hosz : instr.osz = 2 ∧ instr.rmd = .reg ∨ instr.osz = 3) (hra : instr.iam = true ∨ instr.ra ∉ [6, 7, 8])
    (h : (operands instr).Returns vm (rA, rB) vm') : rA.Free := by
  unfold operands at h
  rcases hosz with ⟨hosz, hrmd⟩ | hosz
  · simp only [hosz] at h
    obtain ⟨p, s, hp, h⟩ := returns_bind.mp h
    obtain ⟨heq, -⟩ := returns_pure.mp h
    obtain ⟨rfl, -⟩ := Prod.mk.inj heq
    rw [placeOnly, if_pos hrmd] at hp
    exact placeReg_free hra hp
  · simp only [hosz] at h
    obtain ⟨p, s, hp, h⟩ := returns_bind.mp h
    obtain ⟨q, t, hq, h⟩ := returns_bind.mp h
    obtain ⟨heq, -⟩ := returns_pure.mp h
    obtain ⟨rfl, -⟩ := Prod.mk.inj heq
    exact placeReg_free hra hp

end VmM

/-- An instruction that does not move `sp`. -/
structure Instruction.Quiet (ins : Instruction) : Prop where
  op : ∃ o, ins.stored.op = some o ∧ o.quiet = true
  osz : ins.stored.osz = 2 ∧ ins.stored.rmd = .reg ∨ ins.stored.osz = 3
  ra : ins.stored.iam = true ∨ ins.stored.ra ∉ [6, 7, 8]

/-- Code in which every push has its pop. -/
inductive Balanced : List Instruction → Prop
  | nil : Balanced []
  | cons {ins : Instruction} {seq : List Instruction} (h : ins.Quiet) (hs : Balanced seq) : Balanced (ins :: seq)
  | bracket {seq seq' : List Instruction} (hs : Balanced seq) (hs' : Balanced seq') :
      Balanced (unaryIns .push (rRa .r5) :: (seq ++ unaryIns .pop (rRa .r4) :: seq'))

theorem Balanced.append {seq seq' : List Instruction} (h : Balanced seq) (h' : Balanced seq') : Balanced (seq ++ seq') := by
  induction h with
  | nil => exact h'
  | cons h _ ih => exact .cons h ih
  | bracket hs _ _ ih =>
    rw [List.cons_append, List.append_assoc, List.cons_append]
    exact .bracket hs ih

theorem balanced_of_quiet {seq : List Instruction} (h : ∀ ins ∈ seq, ins.Quiet) : Balanced seq := by
  induction seq with
  | nil => exact .nil
  | cons ins seq ih =>
    rw [List.forall_mem_cons] at h
    exact .cons h.1 (ih h.2)

section
variable {op : TokenKind} {ins : Instruction}

theorem quiet_unaryOp (h : unaryOp? op = some ins) : ins.Quiet := by
  cases op <;> cases h <;> exact ⟨⟨_, rfl, rfl⟩, .inl ⟨rfl, rfl⟩, .inr (by decide)⟩

theorem quiet_stepOp (h : stepOp? op = some ins) : ins.Quiet := by
  cases op <;> cases h <;> exact ⟨⟨_, rfl, rfl⟩, .inl ⟨rfl, rfl⟩, .inl rfl⟩

theorem quiet_three (hosz : ins.osz = 3) (hop : ins.op.any OpCode.quiet = true) (hra : ins.ra ∉ [6, 7, 8]) : ins.Quiet := by
  have hstored := Instruction.stored_three hosz
  obtain ⟨o, ho, hq⟩ : ∃ o, ins.op = some o ∧ o.quiet = true := by
    cases ho : ins.op with
    | none =>
      rw [ho] at hop
      cases hop
    | some o =>
      rw [ho] at hop
      exact ⟨o, rfl, hop⟩
  refine ⟨⟨o, ?_, hq⟩, .inr ?_, .inr ?_⟩ <;> rw [hstored]
  · exact ho
  · exact hosz
  · exact hra

/-- `mov` to `r4` or `r5` -/
theorem quiet_mov4 {b : Register} {t : Mode} {n : U64} : (binaryIns .mov (rRa .r4) (rbEA b t n)).Quiet :=
  quiet_three rfl rfl (show (4 : Fin 16) ∉ [6, 7, 8] by decide)

theorem quiet_mov5_imm {t : Mode} {n : U64} : (movR5 (xIMb t n)).Quiet :=
  quiet_three rfl rfl (show (5 : Fin 16) ∉ [6, 7, 8] by decide)

theorem quiet_mov5 : (movR5 (mRb .r4)).Quiet := quiet_three rfl rfl (by decide)

theorem quiet_binaryOp {seq : List Instruction} (h : binaryOp? op = some seq) : ∀ ins ∈ seq, ins.Quiet := by
  have hall : ∀ ins ∈ seq, ins.op.any OpCode.quiet = true ∧ ins.ra ∉ [6, 7, 8] := by
    cases op <;> cases h <;> decide
  intro ins hins
  exact quiet_three (AstNode.osz_binaryOp h ins hins) (hall ins hins).1 (hall ins hins).2

end

theorem Generated.balanced {node : AstNode} {seq : List Instruction} (h : Generated node seq) (hn : node.NoLogic) :
    Balanced seq := by
  induction h with
  | varExpr => exact .cons quiet_mov4 (.cons quiet_mov5 .nil)
  | unaryExpr _ hop ih => exact (ih hn).append (.cons (quiet_unaryOp hop) .nil)
  | prefixExpr _ hop ih => exact (ih hn).append (.cons (quiet_stepOp hop) (.cons quiet_mov5 .nil))
  | postfixExpr _ hop ih => exact (ih hn).append (.cons (quiet_stepOp hop) .nil)
  | binaryExpr _ _ hop ihl ihr => exact (ihl hn.1).append (.bracket (ihr hn.2) (balanced_of_quiet (quiet_binaryOp hop)))
  | logicExpr => exact hn.elim
  | _ => exact .cons quiet_mov5_imm .nil

theorem Generated.linkable {node : AstNode} {seq : List Instruction} (h : Generated node seq) (hn : node.NoLogic) :
    ∀ ins ∈ seq, ins.Linkable := by
  rcases h.layout with ⟨-, h⟩ | ⟨hn', -⟩
  · exact h
  · exact absurd hn hn'

section
open Prog
variable {host : Host} {vm vm' : Vm} {i j : Nat} {ins : Instruction} {seq seq' : List Instruction} {u : Unit}

/-- One round at an instruction. -/
theorem steps_cons (h : vm.code.Holds i (ins :: seq) j) (hip : vm.reg .ip = BitVec.ofNat 64 i)
    (hr : (VmM.steps host (ins :: seq).length).Returns vm u vm') :
    ∃ k t, vm.code.Holds k seq j ∧ (VmM.execute host ins.stored (BitVec.ofNat 64 i)).Returns (vm.goto k) () t ∧
      (VmM.steps host seq.length).Returns t u vm' := by
  cases h with
  | @cons _ n _ _ _ h hs =>
    obtain ⟨⟨⟩, t, hstep, hrest⟩ := returns_bind.mp hr
    exact ⟨i + n, t, hs, (VmM.step_of_decodes h hip).mp hstep, hrest⟩

theorem moved_execute {iip : U64} (hq : ins.Quiet) (h : (VmM.execute host ins.stored iip).Returns vm u vm') :
    Moved vm vm' 0 := by
  obtain ⟨rA, rB, hops, h⟩ := VmM.execute_returns.mp h
  obtain ⟨o, hop, ho⟩ := hq.op
  exact VmM.moved_apply hop ho (VmM.operands_free hq.osz hq.ra hops) h

theorem Moved.then {a b c : Vm} {d e : U64} (h : Moved (a.goto i) b d) (h' : Moved (b.goto j) c e) :
    Moved (a.goto j) c (d + e) where
  sp := by
    rw [h'.sp, Vm.reg_goto_of_ne _ _ (by decide), h.sp, Vm.reg_goto_of_ne _ _ (by decide), Vm.reg_goto_of_ne _ _ (by decide),
      add_assoc]
  bp := by
    rw [h'.bp, Vm.reg_goto_of_ne _ _ (by decide), h.bp, Vm.reg_goto_of_ne _ _ (by decide), Vm.reg_goto_of_ne _ _ (by decide)]
  ip := by rw [h'.ip, Vm.reg_goto, Vm.reg_goto]
  code := h'.code.trans h.code

theorem Moved.code_eq {a b : Vm} {d : U64} (h : Moved (a.goto i) b d) : b.code = a.code := h.code

theorem Moved.ip_eq {a b : Vm} {d : U64} (h : Moved (a.goto i) b d) : b.reg .ip = BitVec.ofNat 64 i := by
  rw [h.ip, Vm.reg_goto]

/-- Balanced code ends where `sp` and `bp` were. -/
theorem Balanced.run (hb : Balanced seq) (hcode : vm.code.Holds i seq j) (hip : vm.reg .ip = BitVec.ofNat 64 i)
    (hr : (VmM.steps host seq.length).Returns vm u vm') : Moved (vm.goto j) vm' 0 := by
  induction hb generalizing vm i j u vm' with
  | nil =>
    cases hcode
    obtain ⟨-, rfl⟩ := returns_pure.mp hr
    rw [Vm.goto_eq hip]
    exact .refl _
  | cons hq _ ih =>
    obtain ⟨k, t, hrest, hexec, hr⟩ := steps_cons hcode hip hr
    have ht := moved_execute hq hexec
    have hfin := ht.then (ih (ht.code_eq ▸ hrest) ht.ip_eq hr)
    rwa [add_zero] at hfin
  | @bracket seq seq' _ _ ih ih' =>
    obtain ⟨k, t, hrest, hexec, hr⟩ := steps_cons hcode hip hr
    obtain ⟨rA, rB, -, hpush⟩ := VmM.execute_returns.mp hexec
    have ht := VmM.moved_push hpush
    -- between the push and its pop
    obtain ⟨k', hseq, hafter⟩ := Code.holds_append.mp hrest
    rw [List.length_append, VmM.steps_add, returns_bind] at hr
    obtain ⟨⟨⟩, s, hs, hr⟩ := hr
    have hmid := ht.then (ih (ht.code_eq ▸ hseq) ht.ip_eq hs)
    obtain ⟨k'', r, hlast, hexec', hr⟩ := steps_cons (hmid.code_eq ▸ hafter) hmid.ip_eq hr
    obtain ⟨rA', rB', hops, hpop⟩ := VmM.execute_returns.mp hexec'
    have hfree := VmM.operands_free (.inl ⟨rfl, rfl⟩) (.inr (by decide)) hops
    have hback := hmid.then (VmM.moved_pop hfree hpop)
    have hfin := hback.then (ih' (hback.code_eq ▸ hmid.code_eq ▸ hlast) hback.ip_eq hr)
    rwa [add_zero, add_zero, neg_add_cancel] at hfin

end

/-- Code of an expression without `&&` and `||` that ends leaves `sp` and `bp` as they were. -/
theorem AstNode.generateCyn_keepsStack {node : AstNode} (hn : node.NoLogic) {cb cb' : Builder}
    (h : node.generateCyn cb = some cb') :
    ∃ seq bs, cb'.instructions = cb.instructions ++ seq ∧ Instruction.emitAll seq = some bs ∧
      ∀ (host : Host) (vm vm' : Vm) (pre post : List U8), vm.code.bytes = pre ++ bs ++ post →
        vm.reg .ip = BitVec.ofNat 64 pre.length → (VmM.steps host seq.length).Returns vm () vm' →
          vm'.reg .sp = vm.reg .sp ∧ vm'.reg .bp = vm.reg .bp := by
  obtain ⟨seq, hgen, hseq⟩ := generateCyn_generated h
  have hlink := hgen.linkable hn
  obtain ⟨bs, hbs⟩ := Instruction.exists_emitAll fun ins hins => (hlink ins hins).toEncodable
  refine ⟨seq, bs, hseq, hbs, fun host vm vm' pre post hcode hip hr => ?_⟩
  have hholds := Code.holds_of_emitAll (fun ins hins => (hlink ins hins).toEncodable) hbs hcode
  have hrun := (hgen.balanced hn).run hholds hip hr
  constructor
  · rw [hrun.sp, add_zero, Vm.reg_goto_of_ne _ _ (by decide)]
  · rw [hrun.bp, Vm.reg_goto_of_ne _ _ (by decide)]

/-- `++x + 3` -/
def increment : AstNode := .binaryExpr .tokPlus (.prefixExpr .tokPlusPlus (.varExpr 0)) (.integerLit 3)

/-- The code of `++x + 3` -/
def incrementCode : List Instruction := ((increment.generateCyn {}).map (·.instructions)).getD []

/-- A machine at that code. -/
def incrementVm : Vm := { arithVm increment with code := (Code.empty.append incrementCode).getD .empty }

theorem AstNode.generateCyn_keepsStack_increment : ∃ vm', (VmM.steps .idle incrementCode.length).Returns incrementVm () vm' ∧
    vm'.reg .r5 = 4 ∧ vm'.reg .sp = incrementVm.reg .sp ∧ vm'.reg .bp = incrementVm.reg .bp := by
  obtain ⟨⟨⟩, vm', hr, h5⟩ := Prog.exists_of_passes (m := VmM.steps .idle incrementCode.length) (s := incrementVm)
    (p := fun _ vm' => vm'.reg .r5 = 4) (by decide +kernel)
  have hgen : increment.generateCyn {} = some { instructions := incrementCode } := rfl
  obtain ⟨seq, bs, hseq, hbs, hrun⟩ := @AstNode.generateCyn_keepsStack increment ⟨trivial, trivial⟩ _ _ hgen
  obtain rfl : incrementCode = seq := hseq
  have hcode : Instruction.emitAll incrementCode = some incrementVm.code.bytes := by decide
  have hbytes : incrementVm.code.bytes = bs := Option.some.inj (hcode.symm.trans hbs)
  have hkept := hrun .idle incrementVm vm' [] [] (by rw [hbytes, List.nil_append, List.append_nil]) rfl hr
  exact ⟨vm', hr, of_decide_eq_true h5, hkept⟩

end Cyntatic
