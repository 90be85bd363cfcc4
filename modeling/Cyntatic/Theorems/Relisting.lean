import Cyntatic.Theorems.Immediates
import Cyntatic.Theorems.Lines
import Cyntatic.Theorems.Grammar

/-! # Listings that are assembled again

The listing of an image is a source of the assembler. It says what the instructions of the image say, and so has the same
listing again; only the widths of the immediates may change. -/

namespace Cyntatic
open Library Prog

/-! ### What the tokens of a listing say -/

namespace Piece
variable {ps qs : List Piece} {toks : List Token} {v : U64} {r : Fin 16} {indirect iea : Bool} {rmd : ArgMode}

theorem Tokens.append (h : Tokens (ps ++ qs) toks) : ∃ ts us, toks = ts ++ us ∧ Tokens ps ts ∧ Tokens qs us := by
  rw [Tokens, solid, List.filter_append] at h
  exact ⟨_, _, (List.take_append_drop _ toks).symm, (List.forall₂_take_append _ _ _ h.flip).flip, (List.forall₂_drop_append _ _ _ h.flip).flip⟩

theorem Tokens.single {p : Piece} (h : Tokens [p] toks) (hp : p ≠ .space) : ∃ tok, toks = [tok] ∧ p.Reads tok := by
  rw [Tokens, solid, List.filter_cons_of_pos (by simpa using hp), List.filter_nil] at h
  obtain ⟨tok, us, hread, hnil, rfl⟩ := List.forall₂_cons_left_iff.mp h
  obtain rfl := List.forall₂_nil_left_iff.mp hnil
  exact ⟨tok, rfl, hread⟩

/-- The tokens of a signed number. -/
theorem Tokens.signed (h : Tokens (signed v) toks) : ∃ sign num, toks = sign ++ [num] ∧ Signed (v.toInt < 0) sign ∧
    num.kind = .tokInteger ∧ num.getInt? = some (BitVec.ofNat 64 v.toInt.natAbs) := by
  obtain ⟨sign, nums, rfl, hsign, hnum⟩ := h.append
  obtain ⟨num, rfl, hkind, hint⟩ := hnum.single (by simp)
  refine ⟨sign, num, rfl, ?_, hkind, hint⟩
  by_cases hneg : v.toInt < 0
  · rw [if_pos hneg] at hsign
    obtain ⟨minus, rfl, hminus⟩ := hsign.single (by simp)
    rw [decide_eq_true hneg]
    exact .minus hminus
  · rw [if_neg hneg] at hsign
    obtain rfl := List.forall₂_nil_left_iff.mp hsign
    rw [decide_eq_false hneg]
    exact .none

theorem ofText?_register (h : r.val < registerNames.length) :
    Register.ofText? (ascii (registerNames[r.val]?.getD [])) = some (.ofFin r) := by
  have hall : ∀ r : Fin 16, r.val < registerNames.length →
      Register.ofText? (ascii (registerNames[r.val]?.getD [])) = some (.ofFin r) := by decide
  exact hall r h

theorem Tokens.register (h : Tokens [register r] toks) (hr : r.val < registerNames.length) :
    (ArgHead.reg (.ofFin r)).Spelled toks := by
  obtain ⟨tok, rfl, hkind, htext⟩ := h.single (by simp [Piece.register])
  exact .reg hkind (by rw [htext, ofText?_register hr])

/-- The tokens of an operand spell the argument. -/
theorem Tokens.operand (h : Tokens (operand indirect rmd r v iea) toks) (hr : rmd = .reg → r.val < registerNames.length)
    (hea : rmd = .reg → iea = true → indirect = true) : (Arg.ofOperand indirect rmd r v iea).Spelled toks := by
  have hnumber : ∀ ts, Tokens (Piece.signed v) ts → (ArgHead.int (BitVec.ofNat 64 v.toInt.natAbs) (v.toInt < 0)).Spelled ts := by
    intro ts hts
    obtain ⟨sign, num, rfl, hsign, hkind, hint⟩ := hts.signed
    have hspelled := ArgHead.Spelled.int hsign (.none : Optional .tokHash _ _) hkind hint
    rwa [List.append_nil] at hspelled
  have hbrackets : ∀ ps, Tokens (brackets true ps) toks → ∃ lb inner rb, toks = lb :: inner ++ [rb] ∧ lb.kind = .tokLBracket ∧
      rb.kind = .tokRBracket ∧ Tokens ps inner := by
    intro ps hps
    obtain ⟨ts, us, rfl, hts, hus⟩ := Tokens.append hps
    obtain ⟨ls, inner, rfl, hls, hinner⟩ := Tokens.append hts
    obtain ⟨lb, rfl, hlb⟩ := hls.single (by simp)
    obtain ⟨rb, rfl, hrb⟩ := hus.single (by simp)
    exact ⟨lb, inner, rb, rfl, hlb, hrb, hinner⟩
  cases rmd with
  | imm =>
    cases indirect with
    | false => exact .bare (hnumber toks h)
    | true =>
      obtain ⟨lb, inner, rb, rfl, hlb, hrb, hinner⟩ := hbrackets _ h
      exact .mem hlb (hnumber inner hinner) hrb
  | reg =>
    cases iea with
    | false =>
      cases indirect with
      | false => exact .bare (Tokens.register h (hr rfl))
      | true =>
        obtain ⟨lb, inner, rb, rfl, hlb, hrb, hinner⟩ := hbrackets _ h
        exact .mem hlb (Tokens.register hinner (hr rfl)) hrb
    | true =>
      obtain rfl := hea rfl rfl
      obtain ⟨lb, inner, rb, rfl, hlb, hrb, hinner⟩ := hbrackets _ h
      obtain ⟨ts, us, rfl, hts, hus⟩ := Tokens.append hinner
      obtain ⟨cs, ns, rfl, hcs, hns⟩ := Tokens.append hus
      obtain ⟨comma, rfl, hcomma⟩ := Tokens.single (p := .mark ',' .tokComma) hcs (by simp)
      obtain ⟨sign, num, rfl, hsign, hkind, hint⟩ := Tokens.signed hns
      have hpart : EaPart.Spelled false _ _ := .int hcomma hsign hkind hint
      have hspelled := Arg.Spelled.ea hlb (Tokens.register hts (hr rfl)) hpart hrb
      simpa [Arg.ofOperand] using hspelled

end Piece

theorem Arg.readable_ofOperand {as : AssemblerCtx} {rest : List Token} {indirect iea isRb : Bool} {rmd : ArgMode} {r : Fin 16} {v : U64}
    (h : iea = true → isRb = true) : (Arg.ofOperand indirect rmd r v iea).Readable as rest isRb := by
  cases rmd with
  | imm => exact ⟨⟨trivial, fun _ he => by cases he⟩, fun _ => trivial, fun hsome => by cases hsome⟩
  | reg =>
    cases iea with
    | false => exact ⟨⟨trivial, fun _ he => by cases he⟩, fun _ => trivial, fun hsome => by cases hsome⟩
    | true => exact ⟨⟨trivial, fun _ he => Option.some.inj he ▸ trivial⟩, fun _ => trivial, fun _ => ⟨h rfl, rfl⟩⟩

namespace Instruction
open Piece

variable {ins : Instruction} {text : List Char} {opc : OpCode} {seq : List Instruction} {as : AssemblerCtx} {toks : List Token}

theorem osz_cases {ins : Instruction} (h : ins.osz ≠ 0) : ins.osz = 1 ∨ ins.osz = 2 ∨ ins.osz = 3 := by
  have hall : ∀ o : Fin 4, o ≠ 0 → o = 1 ∨ o = 2 ∨ o = 3 := by decide
  exact hall _ h

theorem Assemblable.length_args (h : ins.Assemblable opc) : ins.sourceArgs.length = ins.osz.val - 1 := by
  rcases osz_cases h.size with hosz | hosz | hosz <;> rw [sourceArgs, hosz] <;> rfl

/-- The operands of a line are arguments. -/
theorem Assemblable.args (h : ins.Assemblable opc) (hr : ins.Registers) (htoks : Tokens ins.operands toks) :
    ArgsWritten as false ins.sourceArgs toks := by
  unfold operands at htoks
  unfold sourceArgs
  by_cases htwo : ins.osz = 2
  · rw [if_pos htwo] at htoks ⊢
    have hspelled := Tokens.operand (show Tokens (operand _ _ _ _ _) toks from htoks) (hr.two htwo) (fun _ hfalse => by cases hfalse)
    have hargs : ArgsWritten as false _ _ := .cons hspelled (Arg.readable_ofOperand fun hfalse => by cases hfalse) .nil
    rwa [List.append_nil] at hargs
  · rw [if_neg htwo] at htoks ⊢
    by_cases hthree : ins.osz = 3
    · rw [if_pos hthree] at htoks ⊢
      rw [List.append_assoc] at htoks
      obtain ⟨ts, us, rfl, hts, hus⟩ := Tokens.append htoks
      have hfirst := Tokens.operand (show Tokens (operand _ _ _ _ _) ts from hts) (fun _ => hr.first hthree) (fun _ hfalse => by cases hfalse)
      have hsecond := Tokens.operand (show Tokens (operand _ _ _ _ _) us from hus) (hr.second hthree) (h.ea hthree)
      have hrest : ArgsWritten as true _ _ := .cons hsecond (Arg.readable_ofOperand fun _ => rfl) .nil
      rw [List.append_nil] at hrest
      exact .cons hfirst (Arg.readable_ofOperand fun hfalse => by cases hfalse) hrest
    · rw [if_neg hthree] at htoks ⊢
      obtain rfl := List.forall₂_nil_left_iff.mp htoks
      exact .nil

theorem ofExt?_letter (m : Mode) : Mode.ofExt? (ascii m.letter) = some m := by cases m <;> decide

/-- The tokens of a line are an instruction and the end of the line. -/
theorem Assemblable.written (h : ins.Assemblable opc) (hr : ins.Registers) (htoks : Tokens ins.pieces toks)
    (hlen : as.instructions.length + 1 < 2 ^ 31) :
    ∃ ts nl, toks = ts ++ [nl] ∧ Stmt.Written as (.instr ins.source) ts ∧ Stmt.Written (Stmt.run as (.instr ins.source)) .skip [nl] := by
  obtain ⟨us, ls, rfl, hus, hls⟩ := Tokens.append htoks
  obtain ⟨nl, rfl, hnl⟩ := hls.single (by simp)
  obtain ⟨heads, ops, rfl, hheads, hops⟩ := Tokens.append hus
  obtain ⟨name, rest, ⟨hname, htext⟩, hrest, rfl⟩ := List.forall₂_cons_left_iff.mp hheads
  obtain ⟨dot, rest', hdot, hrest', rfl⟩ := List.forall₂_cons_left_iff.mp hrest
  obtain ⟨letter, rest'', ⟨hletter, hext⟩, hnil, rfl⟩ := List.forall₂_cons_left_iff.mp hrest'
  obtain rfl := List.forall₂_nil_left_iff.mp hnil
  refine ⟨_, nl, rfl, ?_, .skip (.inl hnl)⟩
  refine @Stmt.Written.instr as ins.source name [dot, letter] ops hname ?_ (.some hdot hletter (hext ▸ ofExt?_letter ins.imd)) (h.args hr hops) hlen
  rw [htext, h.arity, source, h.op, h.length_args]
  rfl

theorem written_program (h : ∀ ins ∈ seq, ∃ opc text, ins.Assemblable opc ∧ ins.print = some text)
    (htoks : Tokens (seqPieces seq) toks) (hlen : as.instructions.length + seq.length < 2 ^ 31) : Written as (program seq) toks := by
  induction seq generalizing as toks with
  | nil =>
    obtain rfl := List.forall₂_nil_left_iff.mp htoks
    exact .nil
  | cons ins seq ih =>
    obtain ⟨opc, text, hasm, hp⟩ := h ins List.mem_cons_self
    obtain ⟨ts, us, rfl, hts, hus⟩ := Tokens.append (show Tokens (ins.pieces ++ seqPieces seq) toks from htoks)
    rw [List.length_cons] at hlen
    obtain ⟨line, nl, rfl, hline, hnl⟩ := hasm.written (hasm.registers hp) hts (show as.instructions.length + 1 < 2 ^ 31 by omega)
    rw [List.append_assoc]
    refine .cons hline (.cons hnl (ih (fun x hx => h x (List.mem_cons_of_mem _ hx)) hus ?_))
    change (as.instructions ++ [_]).length + seq.length < 2 ^ 31
    rw [List.length_append, List.length_singleton]
    omega

/-! ### What is read again -/

theorem toNat_ofFin {r : Fin 16} (h : r.val < registerNames.length) : (Register.ofFin r).toNat = r.val := by
  have hall : ∀ r : Fin 16, r.val < registerNames.length → (Register.ofFin r).toNat = r.val := by decide
  exact hall r h

/-- A number is the sum of its sign and its digits. -/
theorem addSigned_natAbs (v : U64) : AsmM.addSigned 0 (BitVec.ofNat 64 v.toInt.natAbs) (v.toInt < 0) = v := by
  have hlo := BitVec.le_toInt v
  have hhi := BitVec.toInt_lt (x := v)
  unfold AsmM.addSigned
  apply BitVec.eq_of_toInt_eq
  change (0#64 + _).toInt = _
  rw [BitVec.zero_add]
  by_cases hneg : v.toInt < 0
  · rw [if_pos (decide_eq_true hneg), ← BitVec.ofInt_natCast, ← BitVec.ofInt_neg, BitVec.toInt_ofInt]
    rw [Int.ofNat_natAbs_of_nonpos (Int.le_of_lt hneg), neg_neg]
    exact Int.bmod_eq_of_le (by omega) (by omega)
  · rw [if_neg (by simpa using hneg), ← BitVec.ofInt_natCast, BitVec.toInt_ofInt, Int.natAbs_of_nonneg (by omega)]
    exact Int.bmod_eq_of_le (by omega) (by omega)

theorem signTrunc_width (v : U64) : signTrunc (width v).size v = v := by
  have htrunc := Mode.signTrunc_integerSize (BitVec.ofNat 64 v.toInt.natAbs) (v.toInt < 0)
  rwa [addSigned_natAbs] at htrunc

variable (as) in
theorem record_ofOperand {instr : Instruction} {indirect iea : Bool} {rmd : ArgMode} {r : Fin 16} {v : U64} (hii : instr.ii = 0) :
    (Arg.ofOperand indirect rmd r v iea).record as instr =
      if rmd = .reg then
        if iea then { instr with rmd := .reg, ims := width v, ii := v, iea := true } else { instr with rmd := .reg }
      else { instr with rmd := .imm, ims := width v, ii := v } := by
  cases rmd with
  | imm =>
    change { instr with rmd := .imm, ii := AsmM.addSigned 0 _ _, ims := _ } = _
    rw [addSigned_natAbs]
    rfl
  | reg =>
    cases iea with
    | false => rfl
    | true =>
      have hrecord : (Arg.ofOperand indirect .reg r v true).record as instr = { instr with
          rmd := .reg, ims := width v, ii := AsmM.addSigned instr.ii (BitVec.ofNat 64 v.toInt.natAbs) (v.toInt < 0), iea := true } := rfl
      rw [hrecord, hii, addSigned_natAbs]
      rfl

theorem Assemblable.base_eq (h : ins.Assemblable opc) : ins.source.base = { osz := ins.osz, opc := ins.opc, imd := ins.imd } := by
  have hopc : opc.toNat = ins.opc.val := by
    have hall : ∀ i < OpCode.table.length, ∀ entry ∈ OpCode.table[i]?, entry.1.toNat = i := by decide
    obtain ⟨entry, hentry, rfl⟩ := Option.map_eq_some_iff.mp h.op
    exact hall _ h.lt_table entry hentry
  have hosz : Fin.ofNat 4 (ins.sourceArgs.length + 1) = ins.osz := by
    rw [h.length_args]
    rcases osz_cases h.size with hosz | hosz | hosz <;> rw [hosz] <;> rfl
  rw [SourceInstr.base, source]
  simp only [h.op, Option.getD_some, hopc, hosz]

theorem record_first {instr : Instruction} {indirect : Bool} {r : Fin 16} (hr : r.val < registerNames.length) :
    (Arg.ofOperand indirect .reg r 0 false).first as instr = { instr with rmd := .reg, iam := indirect, ra := r } := by
  have hra : (⟨(Register.ofFin r).toNat, (Register.ofFin r).toNat_lt⟩ : Fin 16) = r := Fin.ext (toNat_ofFin hr)
  change { instr with rmd := .reg, iam := indirect, ra := ⟨(Register.ofFin r).toNat, _⟩ } = _
  rw [hra]

/-- A line that is read again. -/
theorem Assemblable.record_source (h : ins.Assemblable opc) (hr : ins.Registers) : ins.source.record as = ins.reread := by
  have hargs : ins.source.args = ins.sourceArgs := rfl
  rw [SourceInstr.record, h.base_eq, hargs, sourceArgs, reread]
  by_cases htwo : ins.osz = 2
  · simp only [if_pos htwo]
    cases hrmd : ins.rmd with
    | reg => exact record_first (hr.two htwo hrmd)
    | imm =>
      rw [Arg.first, record_ofOperand as rfl]
      rfl
  · simp only [if_neg htwo]
    by_cases hthree : ins.osz = 3
    · simp only [if_pos hthree]
      rw [record_first (hr.first hthree), Arg.second, record_ofOperand as rfl]
      cases hrmd : ins.rmd with
      | imm => rfl
      | reg =>
        have hrb : (⟨(Register.ofFin ins.rb).toNat, (Register.ofFin ins.rb).toNat_lt⟩ : Fin 16) = ins.rb :=
          Fin.ext (toNat_ofFin (hr.second hthree hrmd))
        have hhead : (Arg.ofOperand ins.ibm .reg ins.rb ins.ii ins.iea).head.register = .ofFin ins.rb := rfl
        simp only [if_true, hhead, hrb]
        cases ins.iea <;> rfl
    · simp only [if_neg hthree]

theorem print_congr {a b : Instruction} (hosz : a.osz = b.osz) (hopc : a.opc = b.opc) (himd : a.imd = b.imd)
    (hops : a.osz ≠ 0 → a.osz ≠ 1 → a.printOperands = b.printOperands) : a.print = b.print := by
  rw [print, print, ← hosz, ← hopc, ← himd]
  by_cases hzero : a.osz = 0
  · rw [if_pos hzero, if_pos hzero]
  · rw [if_neg hzero, if_neg hzero]
    by_cases hone : a.osz = 1
    · simp only [if_pos hone]
    · rw [hops hzero hone]

@[simp] theorem osz_reread : ins.reread.osz = ins.osz := by
  rw [reread]
  split_ifs <;> rfl

@[simp] theorem opc_reread : ins.reread.opc = ins.opc := by
  rw [reread]
  split_ifs <;> rfl

@[simp] theorem imd_reread : ins.reread.imd = ins.imd := by
  rw [reread]
  split_ifs <;> rfl

theorem reread_two (hosz : ins.osz = 2) : ins.reread.rmd = ins.rmd ∧ ins.reread.iam = ins.iam ∧
    (ins.rmd = .reg → ins.reread.ra = ins.ra) ∧ (ins.rmd = .imm → ins.reread.ims = width ins.ii ∧ ins.reread.ii = ins.ii) := by
  rw [reread, if_pos hosz]
  cases hrmd : ins.rmd <;> simp

theorem reread_three (hosz : ins.osz = 3) : ins.reread.rmd = ins.rmd ∧ ins.reread.iam = ins.iam ∧ ins.reread.ra = ins.ra ∧
    ins.reread.ibm = ins.ibm ∧ (ins.rmd = .reg → ins.reread.rb = ins.rb ∧ ins.reread.iea = ins.iea) ∧
    ((ins.rmd = .reg → ins.iea = true) → ins.reread.hasImm = true ∧ ins.reread.ims = width ins.ii ∧ ins.reread.ii = ins.ii) := by
  rw [reread, if_neg (by rw [hosz]; decide), if_pos hosz]
  cases hrmd : ins.rmd <;> cases hiea : ins.iea <;> simp [hasImm]

/-- What is read again of a line is printed as the line was, once it is emitted and decoded. -/
theorem print_reread (hsize : ins.osz ≠ 0) (hone : ins.osz = 1 → ins.imd = .byte) : ins.reread.stored.print = ins.print := by
  rcases osz_cases hsize with hosz | hosz | hosz
  · rw [@stored_one ins.reread (osz_reread.trans hosz)]
    exact print_congr osz_reread opc_reread (hone hosz).symm fun _ hne => absurd (osz_reread.trans hosz) hne
  · obtain ⟨hrmd, hiam, hra, himm⟩ := reread_two hosz
    rw [@stored_two ins.reread (osz_reread.trans hosz)]
    cases hmode : ins.rmd with
    | reg =>
      rw [if_neg (by rw [hrmd, hmode]; decide)]
      refine print_congr osz_reread opc_reread imd_reread fun _ _ => ?_
      refine Eq.trans (printOperands_two ?_) ?_
      · exact osz_reread.trans hosz
      rw [printOperands_two hosz, hrmd, hiam, hra hmode, hmode, if_pos rfl, if_pos rfl]
    | imm =>
      rw [if_pos (hrmd.trans hmode)]
      refine print_congr osz_reread opc_reread imd_reread fun _ _ => ?_
      refine Eq.trans (printOperands_two ?_) ?_
      · exact osz_reread.trans hosz
      rw [printOperands_two hosz, hrmd, hiam, hmode, (himm hmode).1, (himm hmode).2, signTrunc_width]
      rfl
  · obtain ⟨hrmd, hiam, hra, hibm, hreg, himm⟩ := reread_three hosz
    rw [@stored_three ins.reread (osz_reread.trans hosz)]
    refine print_congr osz_reread opc_reread imd_reread fun _ _ => ?_
    refine Eq.trans (printOperands_three ?_) ?_
    · exact osz_reread.trans hosz
    rw [printOperands_three hosz, hrmd, hiam, hra, hibm]
    by_cases hnumber : ins.rmd = .reg → ins.iea = true
    · obtain ⟨hhas, hims, hii⟩ := himm hnumber
      rw [if_pos hhas, hims, hii, signTrunc_width]
      cases hmode : ins.rmd with
      | reg => rw [(hreg hmode).1, (hreg hmode).2]
      | imm => rfl
    · obtain ⟨hmode, hiea⟩ := Classical.not_imp.mp hnumber
      rw [hmode, if_pos rfl, if_pos rfl, (hreg hmode).1, (hreg hmode).2, if_neg hiea, if_neg hiea]

/-! ### Whole listings -/

theorem Prints.source (h : Prints seq text) (hasm : ∀ ins ∈ seq, ∃ opc, ins.Assemblable opc) : Piece.source (seqPieces seq) = text := by
  induction h with
  | nil => rfl
  | @cons ins seq line rest hp _ ih =>
    obtain ⟨⟨opc, hins⟩, hseq⟩ := List.forall_mem_cons.mp hasm
    rw [seqPieces, List.flatMap_cons, Piece.source_append, hins.source_pieces hp]
    exact congrArg _ (ih hseq)

/-- The lines of a listing are those of what is read of them. -/
theorem Prints.reread (h : Prints seq text) (hseq : ∀ ins ∈ seq, ins.osz ≠ 0 ∧ (ins.osz = 1 → ins.imd = .byte)) :
    Prints (seq.map fun ins => ins.reread.stored) text := by
  induction h with
  | nil => exact .nil
  | @cons ins seq line rest hp _ ih =>
    obtain ⟨⟨hsize, hone⟩, hrest⟩ := List.forall_mem_cons.mp hseq
    exact .cons ((print_reread hsize hone).trans hp) (ih hrest)

end Instruction

namespace Code
variable {code : Code} {text : List Char}

/-- The listing of emitted instructions is that of what they stand for. -/
theorem lists_image {db : Nat} {instrs : List Instruction} (h : Image code db instrs) (hdb : code.db? = some (BitVec.ofNat 32 db))
    (hlt : db < 2 ^ 31) (hp : Instruction.Prints (instrs.map Instruction.stored) text) :
    code.Lists (instrs.map Instruction.stored) text := by
  obtain ⟨pre, bs, hc, rfl, hbs⟩ := h.emitted
  have hdecoded := disassemble_emitAll (fun ins hins => (h.linkable ins hins).toEncodable) hbs hc
  have hlen : code.len = pre.length + (instrs.map Instruction.linkSize).sum := by
    rw [Code.len, hc, List.length_append, Instruction.length_emitAll h.linkable hbs]
  have hone : instrs.length ≤ (instrs.map Instruction.linkSize).sum := by
    rw [← List.length_map Instruction.linkSize]
    refine List.length_le_sum_of_one_le _ fun n hn => ?_
    obtain ⟨ins, hins, rfl⟩ := List.mem_map.mp hn
    rw [Instruction.linkSize]
    rcases (h.linkable ins hins).toEncodable.osz_cases with hosz | hosz | hosz <;> rw [hosz] <;> exact Nat.le_add_right_of_le (by decide)
  have hmore := @disassemble_mono _ _ code.len _ _ _ hdecoded (by omega)
  have hstart : (BitVec.ofNat 32 pre.length).toNat = pre.length := Nat.mod_eq_of_lt (by omega)
  exact ⟨_, _, hdb, hstart.symm ▸ hmore, hstart.symm ▸ (disassembleLoop_eq_some hmore).mpr hp⟩

end Code

namespace Instruction
variable {ins : Instruction} {seq : List Instruction} {text : List Char} {as : AssemblerCtx}

theorem pending_ofOperand {indirect iea : Bool} {rmd : ArgMode} {r : Fin 16} {v : U64} :
    (Arg.ofOperand indirect rmd r v iea).head.pending as = [] := by cases rmd <;> rfl

theorem pending_source : ins.source.pending as = [] := by
  refine List.flatMap_eq_nil_iff.mpr fun arg harg => ?_
  change arg ∈ ins.sourceArgs at harg
  unfold sourceArgs at harg
  split_ifs at harg
  · obtain rfl := List.mem_singleton.mp harg
    exact pending_ofOperand
  · rcases List.mem_pair.mp harg with rfl | rfl <;> exact pending_ofOperand
  · cases harg

/-- What is left of a listing: its instructions, and nothing to link. -/
theorem runAll_program (h : ∀ ins ∈ seq, ∃ opc text, ins.Assemblable opc ∧ ins.print = some text) :
    runAll as (program seq) = { as with instructions := as.instructions ++ seq.map reread } := by
  induction seq generalizing as with
  | nil => simp [program, runAll]
  | cons ins seq ih =>
    obtain ⟨⟨opc, line, hasm, hp⟩, hseq⟩ := List.forall_mem_cons.mp h
    have hrun : Stmt.run as (.instr ins.source) = { as with instructions := as.instructions ++ [ins.reread] } := by
      rw [Stmt.run, hasm.record_source (hasm.registers hp), pending_source]
      rfl
    change runAll (Stmt.run (Stmt.run as (.instr ins.source)) .skip) (program seq) = _
    rw [hrun, ih hseq]
    simp [Stmt.run]

/-! ### The size of the image -/

/-- No number has more bytes than digits. -/
theorem size_width (v : U64) : (width v).size ≤ (signedText v).length := by
  have hdigits : (unsignedText v.toInt.natAbs).length ≤ (signedText v).length := by
    unfold signedText
    split
    · exact Nat.le_succ _
    · exact Nat.le_refl _
  have hpos : 0 < (unsignedText v.toInt.natAbs).length := Nat.length_toDigits_pos
  have hlong (k : Nat) (hk : 0 < k) (h : 10 ^ k ≤ v.toInt.natAbs) : k < (unsignedText v.toInt.natAbs).length := by
    by_contra hle
    exact absurd ((Nat.length_toDigits_le_iff (by decide) hk).mp (Nat.not_lt.mp hle)) (Nat.not_lt.mpr h)
  have h1 := hlong 1 (by decide)
  have h4 := hlong 4 (by decide)
  have h9 := hlong 9 (by decide)
  have hnat : (BitVec.ofNat 64 v.toInt.natAbs).toNat = v.toInt.natAbs := Nat.mod_eq_of_lt (Piece.natAbs_lt v)
  have hbyte : (0x7F : U64).toNat = 127 := rfl
  have hshort : (0x7FFF : U64).toNat = 32767 := rfl
  have hword : (0x7FFFFFFF : U64).toNat = 2147483647 := rfl
  unfold width Mode.integerSize
  simp only [BitVec.le_def, hnat]
  split_ifs <;> simp only [Mode.size] <;> omega

theorem length_bracketed {indirect : Bool} : text.length ≤ (bracketed indirect text).length := by
  unfold bracketed
  split
  · simp only [List.length_append]
    omega
  · exact Nat.le_refl _

/-- The operands of an instruction are not shorter than its immediate. -/
theorem size_operands (hone : ins.osz ≠ 1) (hsize : ins.osz ≠ 0) (hp : ins.printOperands = some text) :
    ins.reread.linkSize ≤ ins.osz.val + text.length := by
  have hwidth := size_width ins.ii
  rcases osz_cases hsize with hosz | hosz | hosz
  · exact absurd hosz hone
  · rw [printOperands_two hosz] at hp
    obtain ⟨inner, hinner, rfl⟩ := Option.map_eq_some_iff.mp hp
    have hle := @length_bracketed inner ins.iam
    rw [linkSize, reread, if_pos hosz, hosz]
    cases hrmd : ins.rmd with
    | reg => simp
    | imm =>
      rw [hrmd, if_neg (by decide)] at hinner
      obtain rfl := Option.some.inj hinner
      simp
      omega
  · rw [printOperands_three hosz] at hp
    obtain ⟨first, hfirst, hp⟩ := Option.bind_eq_some_iff.mp hp
    obtain ⟨second, hsecond, rfl⟩ := Option.map_eq_some_iff.mp hp
    have hle := @length_bracketed second ins.ibm
    have hne : ins.osz ≠ 2 := by rw [hosz]; decide
    rw [linkSize, reread, if_neg hne, if_pos hosz, hosz, List.length_append, List.length_append]
    cases hrmd : ins.rmd with
    | reg =>
      rw [hrmd, if_pos rfl] at hsecond
      obtain ⟨name, hname, hsecond⟩ := Option.map_eq_some_iff.mp hsecond
      cases hiea : ins.iea with
      | false => simp
      | true =>
        have hnumber : (signedText ins.ii).length ≤ second.length := by
          rw [← hsecond, hiea, if_pos rfl, List.length_append, List.length_append]
          omega
        simp
        omega
    | imm =>
      rw [hrmd, if_neg (by decide)] at hsecond
      obtain rfl := Option.some.inj hsecond
      simp
      omega

/-- No instruction has more bytes than its line has characters. -/
theorem size_reread {opc : OpCode} (h : ins.Assemblable opc) (hp : ins.print = some text) : ins.reread.linkSize ≤ text.length := by
  rw [print, if_neg h.size, if_neg (Nat.not_le.mpr h.lt_table)] at hp
  obtain ⟨name, hname, hp⟩ := Option.bind_eq_some_iff.mp hp
  obtain ⟨mode, hmode, hp⟩ := Option.bind_eq_some_iff.mp hp
  have htwo : mode.length = 2 := by
    cases hm : ins.imd <;> rw [hm] at hmode <;> exact Option.some.inj hmode ▸ rfl
  split at hp
  · rename_i hone
    obtain rfl := Option.some.inj hp
    have hne2 : ins.osz ≠ 2 := by rw [hone]; decide
    have hne3 : ins.osz ≠ 3 := by rw [hone]; decide
    rw [linkSize, reread, if_neg hne2, if_neg hne3, List.length_append, hone]
    simp
    omega
  · rename_i hone
    obtain ⟨operands, hops, hp⟩ := Option.bind_eq_some_iff.mp hp
    obtain rfl := Option.some.inj hp
    have hle := size_operands hone h.size hops
    have hosz := ins.osz.isLt
    simp only [List.length_append, List.length_singleton]
    omega

theorem imageSize_program (h : ∀ ins ∈ seq, ∃ opc, ins.Assemblable opc) (hp : Prints seq text) :
    (seq.map fun ins => ins.reread.linkSize).sum ≤ text.length := by
  induction hp with
  | nil => exact Nat.le_refl _
  | @cons ins seq line rest hline _ ih =>
    obtain ⟨⟨opc, hins⟩, hseq⟩ := List.forall_mem_cons.mp h
    have hfirst := size_reread hins hline
    have hrest := ih hseq
    rw [List.map_cons, List.sum_cons, List.length_append, List.length_append]
    omega

end Instruction

theorem Piece.length_le_source {ps : List Piece} (h : Separate ps) : ps.length ≤ (source ps).length := by
  induction ps with
  | nil => exact Nat.le_refl _
  | cons p ps ih =>
    have hrest := ih h.2
    have hpos : 0 < p.text.length := by
      cases p with
      | name w =>
        have hstart := h.1.1.start
        cases w with
        | nil => cases hstart
        | cons c cs => exact Nat.succ_pos _
      | number n => exact Nat.length_toDigits_pos
      | space => decide
      | mark c kind => exact Nat.one_pos
      | newline => decide
    rw [source, List.flatMap_cons, List.length_append, List.length_cons]
    change _ ≤ _ + (source ps).length
    omega

theorem Instruction.Prints.length_le {seq : List Instruction} {text : List Char} (h : Prints seq text) : seq.length ≤ text.length := by
  induction h with
  | nil => exact Nat.le_refl _
  | cons _ _ ih =>
    rw [List.length_cons, List.length_append, List.length_append, List.length_singleton]
    omega

section Listing
open Instruction

variable {seq : List Instruction} {text : List Char} {log : Log} {strtod : LexM.Strtod} {fuel n : Nat} {toks : List Token}
  {stop : Range} {uninit : Nat → U8}

theorem Instruction.Prints.assemblable (h : Prints seq text) (hasm : ∀ ins ∈ seq, ∃ opc, ins.Assemblable opc) :
    ∀ ins ∈ seq, ∃ opc line, ins.Assemblable opc ∧ ins.print = some line := by
  intro ins hins
  obtain ⟨opc, hopc⟩ := hasm ins hins
  obtain ⟨line, hline⟩ := h.exists_print ins hins
  exact ⟨opc, line, hopc, hline⟩

/-- The tokens of a listing. -/
theorem tokens_listing (h : Prints seq text) (hasm : ∀ ins ∈ seq, ∃ opc, ins.Assemblable opc) (hfuel : text.length < fuel)
    (hn : text.length < n) : ∃ toks lX, Returns (LexM.tokens strtod fuel n) (.init log false (ascii text)) toks lX ∧ lX.log = log ∧
      Piece.Tokens (seqPieces seq) toks := by
  have hsource := h.source hasm
  have hseparate := (separate_listing (h.assemblable hasm)).1
  have hpieces := Piece.length_le_source hseparate
  have hbefore : LexM.Before (ascii text) (.init log false (ascii text)) [] (ascii (Piece.source (seqPieces seq))) := by
    rw [hsource]
    exact ⟨Lexer.inStep_init log false, Lexer.rest_init log _, by simp⟩
  rw [hsource] at hpieces
  exact LexM.tokens_pieces hbefore hseparate (by rwa [ascii, List.length_map]) (by omega)

/-- What the assembler makes of the tokens of a listing is listed as they were. -/
theorem AsmM.assemble_listing (h : Prints seq text) (hasm : ∀ ins ∈ seq, ∃ opc, ins.Assemblable opc)
    (hone : ∀ ins ∈ seq, ins.osz = 1 → ins.imd = .byte) (hlen : headerSize + text.length < 2 ^ 31)
    (htoks : Piece.Tokens (seqPieces seq) toks) : ∃ code as, (assemble .empty).Returns (.init toks stop [] uninit) (code.len, code) as ∧
      as.errors = 0 ∧ code.Lists (seq.map fun ins => ins.reread.stored) text := by
  let as0 : AssemblerCtx := .init toks stop [] uninit
  have hprints := h.assemblable hasm
  have hcount := h.length_le
  have hwritten : Written as0 (program seq) toks := written_program hprints htoks (by
    change 0 + seq.length < _
    omega)
  have hrun : runAll as0 (program seq) = { as0 with instructions := seq.map reread } := by
    rw [runAll_program hprints]
    rfl
  have hsize : Code.empty.len + (runAll as0 (program seq)).imageSize < 2 ^ 31 := by
    have hsum := imageSize_program hasm h
    rw [hrun, AssemblerCtx.imageSize, List.map_map]
    change 0 + (headerSize + 0 + _) < _
    refine Nat.lt_of_le_of_lt ?_ hlen
    rw [Nat.zero_add, Nat.add_zero]
    exact Nat.add_le_add_left hsum _
  obtain ⟨code, as, as', lines, hassemble, hlink, herr, has, hc⟩ := assemble_links hwritten (by rw [hrun]; simp [as0, AssemblerCtx.init]) hsize
  obtain ⟨-, db, hdb31, hdb, himage, hlinked⟩ := link_returns hlink herr hc.linkable_records
  have hinstrs : as.instructions = seq.map reread := by rw [has, hrun]
  have hpatches : as.patchWork = [] := by rw [has, hrun]; rfl
  have hsame : as'.instructions = seq.map reread := by
    refine List.ext_getElem? fun j => ?_
    have hzero : linkSum as db (as.instructions.map linkSize) j = 0#64 := by
      rw [linkSum, hpatches]
      simp
    have hplus : (fun ins : Instruction => ins.plus 0#64) = id := funext plus_zero
    rw [hlinked, hzero, hplus, Option.map_id_apply, hinstrs]
  have hlist : code.Lists (as'.instructions.map stored) text := by
    refine Code.lists_image himage hdb hdb31 ?_
    rw [hsame, List.map_map]
    refine h.reread fun ins hins => ?_
    obtain ⟨opc, hopc⟩ := hasm ins hins
    exact ⟨hopc.size, hone ins hins⟩
  rw [hsame, List.map_map] at hlist
  exact ⟨code, as', hassemble, herr, hlist⟩

end Listing

/-- The listing of an image, where the assembler has what is in it, is a source without errors, and the image that is made of
    it has the same listing. -/
theorem Code.reassembles {code : Code} {seq : List Instruction} {text : List Char} {log : Log} {strtod : LexM.Strtod} {fuel n : Nat}
    {stop : Range} {uninit : Nat → U8} (h : code.Lists seq text) (hasm : ∀ ins ∈ seq, ∃ opc, ins.Assemblable opc)
    (hlen : AsmM.headerSize + text.length < 2 ^ 31) (hfuel : text.length < fuel) (hn : text.length < n) :
    ∃ toks lX code' as, Returns (LexM.tokens strtod fuel n) (.init log false (ascii text)) toks lX ∧ lX.log = log ∧
      (AsmM.assemble .empty).Returns (.init toks stop [] uninit) (code'.len, code') as ∧ as.errors = 0 ∧
      code'.Lists (seq.map fun ins => ins.reread.stored) text := by
  obtain ⟨db, last, -, hseq, htext⟩ := h
  have hprints := (disassembleLoop_eq_some hseq).mp htext
  obtain ⟨toks, lX, htoks, hlog, hreads⟩ := tokens_listing hprints hasm hfuel hn
  obtain ⟨code', as, hassemble, herr, hlist⟩ := AsmM.assemble_listing hprints hasm (imd_disassemble hseq) hlen hreads
  exact ⟨toks, lX, code', as, htoks, hlog, hassemble, herr, hlist⟩

/-- The listing of `pushHaltCode` -/
def pushHaltText : List Char := ['p', 'u', 's', 'h', '.', 'q', ' ', 'r', '1', '\n', 'h', 'a', 'l', 't', '.', 'b', '\n']

/-- The instructions of `pushHaltCode` -/
def pushHaltSeq : List Instruction := [{ osz := 2, opc := 13, ra := 1, imd := .quad }, { osz := 1 }]

theorem lists_pushHalt : Code.pushHaltCode.Lists pushHaltSeq pushHaltText := ⟨16, 19, rfl, by decide, by decide⟩

theorem Code.reassembles_pushHalt : ∃ toks lX code' as,
    Returns (LexM.tokens (fun _ => ⟨0, false, 0⟩) 18 18) (.init {} false (ascii pushHaltText)) toks lX ∧ lX.log = {} ∧
      (AsmM.assemble .empty).Returns (.init toks endRange [] fun _ => 0) (code'.len, code') as ∧ as.errors = 0 ∧
      code'.Lists (pushHaltSeq.map fun ins => ins.reread.stored) pushHaltText := by
  refine reassembles lists_pushHalt (fun ins hins => ?_) (by decide) (by decide) (by decide)
  rcases List.mem_pair.mp hins with rfl | rfl
  · exact ⟨.push, rfl, by decide, by decide, by decide, by decide⟩
  · exact ⟨.halt, rfl, by decide, by decide, by decide, by decide⟩

end Cyntatic
