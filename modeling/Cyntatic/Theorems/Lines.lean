import Cyntatic.Theorems.AsmStatements
import Cyntatic.Theorems.Disassembly
import Cyntatic.Theorems.Pieces

/-! # The lines of a listing

What a line of a listing is made of, where its pieces end, and what the assembler reads it as. -/

namespace Cyntatic
open Library Prog

/-! ### The pieces of a listing -/

/-- The letter of a mode. -/
def Mode.letter : Mode → List Char
  | .byte => ['b']
  | .short => ['s']
  | .word => ['w']
  | .quad => ['q']

namespace Piece

/-- A signed number. -/
def signed (v : U64) : List Piece :=
  (if v.toInt < 0 then [mark '-' .tokMinus] else []) ++ [number v.toInt.natAbs]

def brackets (indirect : Bool) (ps : List Piece) : List Piece :=
  if indirect then [mark '[' .tokLBracket] ++ ps ++ [mark ']' .tokRBracket] else ps

/-- A register, by its number. -/
def register (r : Fin 16) : Piece := name (registerNames[r.val]?.getD [])

/-- An operand: a register, to which a number may be added, or a number. -/
def operand (indirect : Bool) (rmd : ArgMode) (r : Fin 16) (ii : U64) (iea : Bool) : List Piece :=
  brackets indirect <|
    if rmd = .reg then [register r] ++ if iea then [mark ',' .tokComma, space] ++ signed ii else [] else signed ii

end Piece

namespace Instruction

/-- The operands of an instruction. -/
def operands (ins : Instruction) : List Piece :=
  if ins.osz = 2 then [.space] ++ Piece.operand ins.iam ins.rmd ins.ra ins.ii false
  else if ins.osz = 3 then
    [.space] ++ Piece.operand ins.iam .reg ins.ra 0 false ++ [.space] ++ Piece.operand ins.ibm ins.rmd ins.rb ins.ii ins.iea
  else []

/-- The line of an instruction in the listing. -/
def pieces (ins : Instruction) : List Piece :=
  [.name (instructionNames[ins.opc.val]?.getD []), .mark '.' .tokDot, .name ins.imd.letter] ++ ins.operands ++ [.newline]

/-- What the assembler reads of an instruction in a listing: an instruction that it has, with its number of operands and a
    name that is no keyword, in which a number is added to a register only in brackets. -/
structure Assemblable (ins : Instruction) (opc : OpCode) : Prop where
  op : ins.op = some opc
  arity : OpCode.lookup? (ascii (instructionNames[ins.opc.val]?.getD [])) = some (opc, ins.osz.val - 1)
  size : ins.osz ≠ 0
  word : opc ∉ [.and, .or]
  ea : ins.osz = 3 → ins.rmd = .reg → ins.iea = true → ins.ibm = true

end Instruction

/-! ### What is printed -/

namespace Piece
variable {ps qs : List Piece} {v : U64} {r : Fin 16} {indirect iea : Bool} {rmd : ArgMode}

theorem source_append : source (ps ++ qs) = source ps ++ source qs := List.flatMap_append

theorem source_brackets : source (brackets indirect ps) = bracketed indirect (source ps) := by
  cases indirect with
  | false => rfl
  | true =>
    change source ([mark '[' .tokLBracket] ++ ps ++ [mark ']' .tokRBracket]) = _
    rw [source_append, source_append]
    rfl

theorem source_signed : source (signed v) = signedText v := by
  unfold signed signedText
  split
  · exact congrArg ('-' :: ·) (List.append_nil _)
  · exact List.append_nil _

theorem source_register {text : List Char} (h : registerNames[r.val]? = some text) : source [register r] = text := by
  rw [register, h]
  exact List.append_nil _

theorem source_number : source (operand indirect .imm r v iea) = bracketed indirect (signedText v) := by
  rw [operand, source_brackets, if_neg (by decide), source_signed]

theorem source_reg {text : List Char} (h : registerNames[r.val]? = some text) :
    source (operand indirect .reg r v iea) = bracketed indirect (text ++ if iea then [',', ' '] ++ signedText v else []) := by
  rw [operand, source_brackets, if_pos rfl, source_append, source_register h]
  cases iea with
  | false => rfl
  | true =>
    change bracketed indirect (text ++ source ([mark ',' .tokComma, space] ++ signed v)) = _
    rw [source_append, source_signed]
    rfl

end Piece

namespace Instruction
variable {ins : Instruction} {text : List Char} {opc : OpCode}

/-- The only operand of an instruction. -/
theorem printOperands_two (hosz : ins.osz = 2) : ins.printOperands =
    (if ins.rmd = .reg then registerNames[ins.ra.val]? else some (signedText ins.ii)).map (bracketed ins.iam) := by
  rw [printOperands, hosz]
  cases hrmd : ins.rmd with
  | reg => exact Option.map_eq_bind.symm
  | imm => rfl

/-- The two operands of an instruction. -/
theorem printOperands_three (hosz : ins.osz = 3) : ins.printOperands = registerNames[ins.ra.val]?.bind fun first =>
    (if ins.rmd = .reg then
      registerNames[ins.rb.val]?.map fun name => name ++ if ins.iea then [',', ' '] ++ signedText ins.ii else []
    else some (signedText ins.ii)).map fun second => bracketed ins.iam first ++ [' '] ++ bracketed ins.ibm second := by
  rw [printOperands, hosz]
  refine congrArg (Option.bind _) (funext fun first => ?_)
  cases hrmd : ins.rmd with
  | reg => exact Option.map_eq_bind.symm
  | imm => rfl

theorem source_operands (h : ins.printOperands = some text) : Piece.source ins.operands = [' '] ++ text := by
  unfold operands
  by_cases htwo : ins.osz = 2
  · rw [printOperands_two htwo] at h
    obtain ⟨inner, hinner, rfl⟩ := Option.map_eq_some_iff.mp h
    rw [if_pos htwo, Piece.source_append]
    cases hrmd : ins.rmd with
    | reg =>
      rw [hrmd, if_pos rfl] at hinner
      rw [Piece.source_reg hinner, if_neg (by decide), List.append_nil]
      rfl
    | imm =>
      rw [hrmd, if_neg (by decide)] at hinner
      obtain rfl := Option.some.inj hinner
      rw [Piece.source_number]
      rfl
  · have hthree : ins.osz = 3 := by
      unfold printOperands at h
      split at h
      · exact absurd ‹_› htwo
      · assumption
      · cases h
    rw [printOperands_three hthree] at h
    obtain ⟨first, hfirst, h⟩ := Option.bind_eq_some_iff.mp h
    obtain ⟨second, hsecond, rfl⟩ := Option.map_eq_some_iff.mp h
    rw [if_neg htwo, if_pos hthree, Piece.source_append, Piece.source_append, Piece.source_append,
      Piece.source_reg hfirst, if_neg (by decide), List.append_nil]
    suffices hlast : Piece.source (Piece.operand ins.ibm ins.rmd ins.rb ins.ii ins.iea) = bracketed ins.ibm second by
      rw [hlast]
      simp only [List.append_assoc]
      rfl
    cases hrmd : ins.rmd with
    | reg =>
      rw [hrmd, if_pos rfl] at hsecond
      obtain ⟨name, hname, rfl⟩ := Option.map_eq_some_iff.mp hsecond
      exact Piece.source_reg hname
    | imm =>
      rw [hrmd, if_neg (by decide)] at hsecond
      obtain rfl := Option.some.inj hsecond
      exact Piece.source_number

theorem Assemblable.lt_table (h : ins.Assemblable opc) : ins.opc.val < OpCode.table.length := by
  obtain ⟨entry, hentry, -⟩ := Option.map_eq_some_iff.mp h.op
  exact (List.getElem?_eq_some_iff.mp hentry).1

/-- The listing has the line of an instruction that can be assembled. -/
theorem Assemblable.source_pieces (h : ins.Assemblable opc) (hp : ins.print = some text) :
    Piece.source ins.pieces = text ++ ['\n'] := by
  rw [print, if_neg h.size, if_neg (Nat.not_le.mpr h.lt_table)] at hp
  obtain ⟨name, hname, hp⟩ := Option.bind_eq_some_iff.mp hp
  obtain ⟨mode, hmode, hp⟩ := Option.bind_eq_some_iff.mp hp
  have hletter : mode = '.' :: ins.imd.letter := by
    cases hm : ins.imd <;> rw [hm] at hmode <;> exact (Option.some.inj hmode).symm
  suffices hops : name ++ mode ++ Piece.source ins.operands = text by
    rw [pieces, hname, Piece.source_append, Piece.source_append, ← hops, hletter]
    change name ++ (['.'] ++ (ins.imd.letter ++ [])) ++ _ ++ ['\n'] = _
    simp
  split at hp
  · rename_i hosz
    obtain rfl := Option.some.inj hp
    rw [operands, if_neg (by rw [hosz]; decide), if_neg (by rw [hosz]; decide)]
    exact List.append_nil _
  · obtain ⟨operands, hops, hp⟩ := Option.bind_eq_some_iff.mp hp
    obtain rfl := Option.some.inj hp
    rw [source_operands hops, List.append_assoc _ [' ']]

end Instruction

/-! ### Where the pieces end -/

namespace Piece
variable {ps qs : List Piece} {v : U64} {r : Fin 16} {indirect iea : Bool} {rmd : ArgMode} {w : List Char} {n : Nat} {tail : List U8}

/-- The characters that end a register or a number. -/
def stops : List U8 := [chr ' ', chr '\n', chr ']', chr ',']

theorem ends_name (hw : IsName (ascii w)) (h : tail.headD eofChar ∈ stops) : (name w).Ends tail := by
  have hall : ∀ c ∈ stops, LexM.isIdent c = false ∧ c ≠ chr '"' := by decide
  exact ⟨hw, hall _ h⟩

theorem ends_number (hn : n < 2 ^ 64) (h : tail.headD eofChar ∈ stops) : (number n).Ends tail := by
  have hall : ∀ c ∈ stops, isDigit c = false ∧ toUpper c ∉ [chr 'X', chr 'B', chr 'E', chr '.'] := by decide
  exact ⟨hn, hall _ h⟩

/-- The first character of some pieces, of which the first is not empty. -/
theorem headD_source {p : Piece} {c : Char} {cs : List Char} (h : p.text = c :: cs) :
    (ascii (source (p :: ps))).headD eofChar = chr c := by
  change (ascii (p.text ++ source ps)).headD eofChar = _
  rw [h]
  rfl

theorem isName_register (h : r.val < registerNames.length) : IsName (ascii (registerNames[r.val]?.getD [])) := by
  have hall : ∀ w ∈ registerNames, isNameStart ((ascii w).headD eofChar) = true ∧ (ascii w).all LexM.isIdent = true ∧
      (∀ x ∈ keywords, ascii x.1 ≠ ascii w) ∧ (ascii w).length < 2 ^ 31 := by decide
  rw [List.getElem?_eq_getElem h, Option.getD_some]
  obtain ⟨h1, h2, h3, h4⟩ := hall _ (List.getElem_mem h)
  exact ⟨h1, List.all_eq_true.mp h2, h3, h4⟩

theorem natAbs_lt (v : U64) : v.toInt.natAbs < 2 ^ 64 := by
  have hlo := BitVec.le_toInt v
  have hhi := BitVec.toInt_lt (x := v)
  omega

theorem separate_signed (h : Separate ps) (hhead : (ascii (source ps)).headD eofChar ∈ stops) : Separate (signed v ++ ps) := by
  have hnumber : Separate ([number v.toInt.natAbs] ++ ps) := ⟨ends_number (natAbs_lt v) hhead, h⟩
  unfold signed
  split
  · refine ⟨⟨by decide, ?_, by decide⟩, hnumber⟩
    obtain ⟨c, cs, hc⟩ := List.exists_cons_of_ne_nil (decimal_ne_nil v.toInt.natAbs)
    have hdigit : isDigit c = true := isDigit_of_mem_decimal (hc ▸ List.mem_cons_self)
    have hcc : c ≠ chr '-' ∧ c ≠ chr '>' ∧ c ≠ chr '=' := by
      refine ⟨?_, ?_, ?_⟩ <;> rintro rfl <;> exact absurd hdigit (by decide)
    have hsource : ascii (source ([number v.toInt.natAbs] ++ ps)) = decimal v.toInt.natAbs ++ ascii (source ps) := List.map_append
    change LexM.lexemeOf (chr '-' :: ascii (source ([number v.toInt.natAbs] ++ ps))) false = _
    rw [hsource, hc]
    change (if c = chr '-' then _ else if c = chr '>' then _ else LexM.ifElse c '=' _ _) = _
    rw [if_neg hcc.1, if_neg hcc.2.1]
    exact if_neg hcc.2.2
  · exact hnumber

theorem separate_brackets (hps : ∀ qs, Separate qs → (ascii (source qs)).headD eofChar ∈ stops → Separate (ps ++ qs))
    (h : Separate qs) (hhead : (ascii (source qs)).headD eofChar ∈ stops) : Separate (brackets indirect ps ++ qs) := by
  cases indirect with
  | false => exact hps qs h hhead
  | true =>
    have hclose : Separate ([mark ']' .tokRBracket] ++ qs) := ⟨⟨by decide, rfl, by decide⟩, h⟩
    have hinner := hps _ hclose (by rw [List.singleton_append, headD_source rfl]; decide)
    change Separate ([mark '[' .tokLBracket] ++ ps ++ [mark ']' .tokRBracket] ++ qs)
    rw [List.append_assoc, List.append_assoc]
    exact ⟨⟨by decide, rfl, by decide⟩, hinner⟩

theorem separate_operand (hr : rmd = .reg → r.val < registerNames.length) (h : Separate qs)
    (hhead : (ascii (source qs)).headD eofChar ∈ stops) : Separate (operand indirect rmd r v iea ++ qs) := by
  refine separate_brackets (fun qs h hhead => ?_) h hhead
  cases rmd with
  | imm => exact separate_signed h hhead
  | reg =>
    have hname := isName_register (hr rfl)
    cases iea with
    | false => exact ⟨ends_name hname hhead, h⟩
    | true =>
      have hcomma : Separate (mark ',' .tokComma :: space :: (signed v ++ qs)) :=
        ⟨⟨by decide, rfl, by decide⟩, trivial, separate_signed h hhead⟩
      have hhead' : (ascii (source (mark ',' .tokComma :: space :: (signed v ++ qs)))).headD eofChar ∈ stops := by
        rw [@headD_source _ (mark ',' .tokComma) ',' [] rfl]
        decide
      exact ⟨ends_name hname hhead', hcomma⟩

end Piece

namespace Instruction
open Piece

variable {ins : Instruction} {text : List Char} {opc : OpCode} {qs : List Piece} {seq : List Instruction}

/-- The registers that are shown have names. -/
structure Registers (ins : Instruction) : Prop where
  two : ins.osz = 2 → ins.rmd = .reg → ins.ra.val < registerNames.length
  first : ins.osz = 3 → ins.ra.val < registerNames.length
  second : ins.osz = 3 → ins.rmd = .reg → ins.rb.val < registerNames.length

theorem Assemblable.registers (h : ins.Assemblable opc) (hp : ins.print = some text) : ins.Registers := by
  obtain ⟨htwo, hthree⟩ := isSome_print.mp (Option.isSome_of_mem hp) h.lt_table
  exact ⟨htwo, fun hosz => (hthree hosz).1, fun hosz => (hthree hosz).2⟩

set_option maxRecDepth 4096 in
/-- The name of an instruction that can be assembled is no keyword. -/
theorem Assemblable.isName (h : ins.Assemblable opc) : IsName (ascii (instructionNames[ins.opc.val]?.getD [])) := by
  have hall : ∀ entry ∈ OpCode.table, entry.1 ∉ [.and, .or] → isNameStart ((ascii entry.2.1).headD eofChar) = true ∧
      (ascii entry.2.1).all LexM.isIdent = true ∧ (∀ x ∈ keywords, ascii x.1 ≠ ascii entry.2.1) ∧
      (ascii entry.2.1).length < 2 ^ 31 := by decide
  obtain ⟨entry, hentry, rfl⟩ := Option.map_eq_some_iff.mp h.op
  obtain ⟨h1, h2, h3, h4⟩ := hall entry (List.mem_of_getElem? hentry) h.word
  have hname : instructionNames[ins.opc.val]? = some entry.2.1 := by rw [instructionNames, List.getElem?_map, hentry, Option.map_some]
  rw [hname]
  exact ⟨h1, List.all_eq_true.mp h2, h3, h4⟩

theorem isName_letter (m : Mode) : IsName (ascii m.letter) := by
  have hall : isNameStart ((ascii m.letter).headD eofChar) = true ∧ (ascii m.letter).all LexM.isIdent = true ∧
      (∀ x ∈ keywords, ascii x.1 ≠ ascii m.letter) ∧ (ascii m.letter).length < 2 ^ 31 := by cases m <;> decide
  exact ⟨hall.1, List.all_eq_true.mp hall.2.1, hall.2.2.1, hall.2.2.2⟩

/-- No line begins with white space. -/
theorem Assemblable.headD_pieces (h : ins.Assemblable opc) : isSpace ((ascii (source (ins.pieces ++ qs))).headD eofChar) = false := by
  have hstart := h.isName.start
  rcases hname : instructionNames[ins.opc.val]?.getD [] with _ | ⟨c, cs⟩
  · rw [hname] at hstart
    cases hstart
  · rw [hname] at hstart
    rw [pieces, hname]
    change isSpace (chr c) = false
    exact (LexM.isSpace_nameStart _ hstart).1

theorem separate_operands (hr : ins.Registers) (h : Separate qs) (hhead : (ascii (source qs)).headD eofChar ∈ stops) :
    Separate (ins.operands ++ qs) := by
  unfold operands
  by_cases htwo : ins.osz = 2
  · rw [if_pos htwo]
    exact ⟨trivial, separate_operand (hr.two htwo) h hhead⟩
  · rw [if_neg htwo]
    by_cases hthree : ins.osz = 3
    · have hsecond : Separate ([.space] ++ operand ins.ibm ins.rmd ins.rb ins.ii ins.iea ++ qs) :=
        ⟨trivial, separate_operand (hr.second hthree) h hhead⟩
      have hspace : (ascii (source ([.space] ++ operand ins.ibm ins.rmd ins.rb ins.ii ins.iea ++ qs))).headD eofChar ∈ stops := by
        rw [show (ascii (source ([.space] ++ operand ins.ibm ins.rmd ins.rb ins.ii ins.iea ++ qs))).headD eofChar = chr ' ' from rfl]
        decide
      rw [if_pos hthree, List.append_assoc, List.append_assoc]
      exact ⟨trivial, separate_operand (fun _ => hr.first hthree) hsecond hspace⟩
    · rw [if_neg hthree]
      exact h

theorem Assemblable.separate (h : ins.Assemblable opc) (hr : ins.Registers) (hqs : Separate qs)
    (hhead : isSpace ((ascii (source qs)).headD eofChar) = false) : Separate (ins.pieces ++ qs) := by
  have hnl : Separate ([.newline] ++ qs) := ⟨hhead, hqs⟩
  have hoperands : Separate (ins.operands ++ ([.newline] ++ qs)) := separate_operands hr hnl (by
    rw [List.singleton_append, @headD_source _ .newline '\n' [] rfl]
    decide)
  have hstop : (ascii (source (ins.operands ++ ([.newline] ++ qs)))).headD eofChar ∈ stops := by
    unfold operands
    split_ifs
    · exact List.mem_cons_self
    · exact List.mem_cons_self
    · exact List.mem_cons_of_mem _ List.mem_cons_self
  have hletter : Separate (.name ins.imd.letter :: (ins.operands ++ ([.newline] ++ qs))) :=
    ⟨ends_name (isName_letter ins.imd) hstop, hoperands⟩
  have hdot : Separate (.mark '.' .tokDot :: .name ins.imd.letter :: (ins.operands ++ ([.newline] ++ qs))) := by
    refine ⟨⟨by decide, ?_, by decide⟩, hletter⟩
    change LexM.lexemeOf (chr '.' :: (ascii (ins.imd.letter ++ source (ins.operands ++ ([.newline] ++ qs))))) false = _
    cases ins.imd <;> rfl
  rw [pieces, List.append_assoc, List.append_assoc]
  refine ⟨⟨h.isName, ?_⟩, hdot⟩
  change LexM.isIdent (chr '.') = false ∧ chr '.' ≠ chr '"'
  decide

/-- The pieces of a listing. -/
def seqPieces (seq : List Instruction) : List Piece := seq.flatMap pieces

theorem separate_listing (h : ∀ ins ∈ seq, ∃ opc text, ins.Assemblable opc ∧ ins.print = some text) :
    Separate (seqPieces seq) ∧ isSpace ((ascii (source (seqPieces seq))).headD eofChar) = false := by
  induction seq with
  | nil => exact ⟨trivial, by decide⟩
  | cons ins seq ih =>
    obtain ⟨opc, text, hasm, hp⟩ := h ins List.mem_cons_self
    obtain ⟨hseparate, hhead⟩ := ih fun x hx => h x (List.mem_cons_of_mem _ hx)
    exact ⟨hasm.separate (hasm.registers hp) hseparate hhead, hasm.headD_pieces⟩

end Instruction

/-! ### What the assembler reads -/

/-- The register with a number. -/
def Register.ofFin (r : Fin 16) : Register := (Register.ofNat? r.val).getD .r0

/-- The operand of a listing as the assembler reads it. -/
def Arg.ofOperand (indirect : Bool) (rmd : ArgMode) (r : Fin 16) (ii : U64) (iea : Bool) : Arg where
  isMem := indirect
  head := if rmd = .reg then .reg (.ofFin r) else .int (BitVec.ofNat 64 ii.toInt.natAbs) (ii.toInt < 0)
  ea := if rmd = .reg ∧ iea then some (.int (BitVec.ofNat 64 ii.toInt.natAbs) (ii.toInt < 0)) else none

namespace Instruction

/-- The operands of the line of an instruction. -/
def sourceArgs (ins : Instruction) : List Arg :=
  if ins.osz = 2 then [.ofOperand ins.iam ins.rmd ins.ra ins.ii false]
  else if ins.osz = 3 then [.ofOperand ins.iam .reg ins.ra 0 false, .ofOperand ins.ibm ins.rmd ins.rb ins.ii ins.iea]
  else []

/-- The line of an instruction as the assembler reads it. -/
def source (ins : Instruction) : SourceInstr := ⟨ins.op.getD .halt, ins.imd, ins.sourceArgs⟩

/-- The listing of some instructions as a program, with an end of the line after each of them. -/
def program (seq : List Instruction) : List Stmt := seq.flatMap fun ins => [.instr ins.source, .skip]

/-- The width in which a number is read again. -/
def width (v : U64) : Mode := .integerSize (BitVec.ofNat 64 v.toInt.natAbs)

/-- The record of a line that is read again. -/
def reread (ins : Instruction) : Instruction :=
  let base : Instruction := { osz := ins.osz, opc := ins.opc, imd := ins.imd }
  if ins.osz = 2 then
    if ins.rmd = .reg then { base with iam := ins.iam, ra := ins.ra }
    else { base with
      iam := ins.iam, rmd := .imm, ims := width ins.ii, ii := ins.ii
      ra := ⟨(width ins.ii).toNat, Nat.lt_of_lt_of_le (width ins.ii).toNat_lt (by decide)⟩ }
  else if ins.osz = 3 then
    let base := { base with iam := ins.iam, ra := ins.ra, ibm := ins.ibm }
    if ins.rmd = .reg then
      if ins.iea then { base with rb := ins.rb, ims := width ins.ii, ii := ins.ii, iea := true } else { base with rb := ins.rb }
    else { base with rmd := .imm, ims := width ins.ii, ii := ins.ii }
  else base

end Instruction

namespace Piece

/-- The tokens of some pieces, one for each that is not a space. -/
def Tokens (ps : List Piece) (toks : List Token) : Prop := List.Forall₂ Reads (solid ps) toks

end Piece

/-! ### What is listed -/

namespace Instruction
variable {seq : List Instruction} {text : List Char}

/-- The listing of some instructions, a line for each. -/
inductive Prints : List Instruction → List Char → Prop
  | nil : Prints [] []
  | cons {ins : Instruction} {seq : List Instruction} {text rest : List Char} (h : ins.print = some text) (hs : Prints seq rest) :
      Prints (ins :: seq) (text ++ ['\n'] ++ rest)

theorem Prints.exists_print (h : Prints seq text) : ∀ ins ∈ seq, ∃ line, ins.print = some line := by
  induction h with
  | nil => simp
  | cons hp _ ih => exact List.forall_mem_cons.mpr ⟨⟨_, hp⟩, ih⟩

end Instruction

namespace Code
variable {code : Code} {fuel fuel' ip last : Nat} {seq : List Instruction} {text : List Char} {showAddr : Bool}

theorem osz_readImm {x ins : Instruction} {i n : Nat} (h : code.readImm x i = some (n, ins)) : ins.osz = x.osz := by
  unfold readImm at h
  split at h
  · obtain ⟨bs, -, heq⟩ := Option.map_eq_some_iff.mp h
    cases heq
    rfl
  · cases h
    rfl

/-- An instruction of one byte has no mode. -/
theorem Decodes.imd_one {i n : Nat} {ins : Instruction} (h : code.Decodes i n ins) (hone : ins.osz = 1) : ins.imd = .byte := by
  cases h with
  | one h1 hosz => rfl
  | two h1 h2 hosz himm =>
    rw [osz_readImm himm, osz_fixMode] at hone
    exact absurd (hosz.symm.trans hone) (by decide)
  | three h1 h2 h3 hosz himm =>
    rw [osz_readImm himm] at hone
    exact absurd (hosz.symm.trans hone) (by decide)

theorem instructionAt_le {size : Nat} {ins : Instruction} (hi : ip < code.len) (h : code.instructionAt {} ip = some (size, ins)) :
    ip + size ≤ code.len ∧ (ins.osz = 1 → ins.imd = .byte) := by
  rcases instructionAt_cases hi with hskip | ⟨n, ins', hd⟩ | hnone
  · obtain ⟨ins', hosz, hat⟩ := instructionAt_of_skipped hskip
    cases hat.symm.trans h
    exact ⟨Nat.le_of_lt hi, fun hone => absurd (hosz.symm.trans hone) (by decide)⟩
  · cases (instructionAt_of_decodes hd).symm.trans h
    exact ⟨hd.le_len.2, hd.imd_one⟩
  · rw [hnone] at h
    cases h

theorem disassembleStep_at {size : Nat} {ins : Instruction} (hi : ip < code.len) (h : code.instructionAt {} ip = some (size, ins)) :
    code.disassembleStep false ip = ins.print.map fun text => (text ++ ['\n'], if size = 0 then ip + 1 else ip + size) := by
  have hlen : code.len < 2 ^ 31 := code.len_lt
  have hle := (instructionAt_le hi h).1
  have hmod : (ip + size) % 2 ^ 32 = ip + size := Nat.mod_eq_of_lt (by omega)
  rw [disassembleStep, h]
  simp only [Option.bind_eq_bind, Option.bind_some, hmod, Bool.false_eq_true, if_false, List.nil_append]
  cases ins.print with
  | none => rfl
  | some text =>
    by_cases hzero : size = 0
    · have hnext : (ip + 1) % 2 ^ 32 = ip + 1 := Nat.mod_eq_of_lt (by omega)
      simp only [hzero, if_true, Nat.add_zero, hnext]
      rfl
    · simp [hzero]

theorem disassemble_cons (hi : ip < code.len) (h : code.disassemble (fuel + 1) ip = some (seq, last)) : ∃ size ins rest,
    code.instructionAt {} ip = some (size, ins) ∧ code.disassemble fuel (if size = 0 then ip + 1 else ip + size) = some (rest, last) ∧
      seq = ins :: rest := by
  rw [disassemble, if_pos hi] at h
  obtain ⟨⟨size, ins⟩, hat, h⟩ := Option.bind_eq_some_iff.mp h
  obtain ⟨⟨rest, last'⟩, hrest, h⟩ := Option.bind_eq_some_iff.mp h
  cases h
  exact ⟨size, ins, rest, hat, hrest, rfl⟩

theorem disassemble_done (hi : ¬ip < code.len) : code.disassemble fuel ip = some ([], ip) := by
  cases fuel <;> rw [disassemble, if_neg hi]

theorem disassembleLoop_done (hi : ¬ip < code.len) : code.disassembleLoop showAddr fuel ip = some [] := by
  cases fuel <;> rw [disassembleLoop, if_neg hi]

/-- What the loop prints is the listing of what it decodes. -/
theorem disassembleLoop_eq_some (h : code.disassemble fuel ip = some (seq, last)) :
    code.disassembleLoop false fuel ip = some text ↔ Instruction.Prints seq text := by
  induction fuel generalizing ip seq text with
  | zero =>
    by_cases hi : ip < code.len
    · rw [disassemble, if_pos hi] at h
      cases h
    · rw [disassemble_done hi] at h
      cases h
      rw [disassembleLoop_done hi]
      exact ⟨fun he => Option.some.inj he ▸ .nil, fun hp => by cases hp; rfl⟩
  | succ fuel ih =>
    by_cases hi : ip < code.len
    · obtain ⟨size, ins, rest, hat, hrest, rfl⟩ := disassemble_cons hi h
      rw [disassembleLoop, if_pos hi, disassembleStep_at hi hat]
      simp only [Option.bind_eq_bind, Option.bind_map, Option.bind_eq_some_iff, Option.pure_def, Function.comp]
      constructor
      · rintro ⟨line, hline, texts, htexts, heq⟩
        obtain rfl := Option.some.inj heq
        exact .cons hline ((ih hrest).mp htexts)
      · intro hp
        cases hp with
        | cons hline hs => exact ⟨_, hline, _, (ih hrest).mpr hs, rfl⟩
    · rw [disassemble_done hi] at h
      cases h
      rw [disassembleLoop_done hi]
      exact ⟨fun he => Option.some.inj he ▸ .nil, fun hp => by cases hp; rfl⟩

theorem imd_disassemble (h : code.disassemble fuel ip = some (seq, last)) : ∀ ins ∈ seq, ins.osz = 1 → ins.imd = .byte := by
  induction fuel generalizing ip seq with
  | zero =>
    rw [disassemble] at h
    split at h <;> cases h
    simp
  | succ fuel ih =>
    by_cases hi : ip < code.len
    · obtain ⟨size, ins, rest, hat, hrest, rfl⟩ := disassemble_cons hi h
      exact List.forall_mem_cons.mpr ⟨(instructionAt_le hi hat).2, ih hrest⟩
    · rw [disassemble_done hi] at h
      cases h
      simp

theorem disassemble_mono (h : code.disassemble fuel ip = some (seq, last)) (hle : fuel ≤ fuel') :
    code.disassemble fuel' ip = some (seq, last) := by
  induction fuel generalizing fuel' ip seq with
  | zero =>
    rw [disassemble] at h
    split at h
    · cases h
    · rw [disassemble_done ‹_›]
      exact h
  | succ fuel ih =>
    by_cases hi : ip < code.len
    · obtain ⟨fuel', rfl⟩ : ∃ k, fuel' = k + 1 := ⟨fuel' - 1, by omega⟩
      obtain ⟨size, ins, rest, hat, hrest, rfl⟩ := disassemble_cons hi h
      rw [disassemble, if_pos hi, hat]
      simp only [Option.bind_eq_bind, Option.bind_some, ih hrest (Nat.le_of_succ_le_succ hle)]
      rfl
    · rw [disassemble_done hi] at h ⊢
      exact h

/-- `VM_code_disassemble_` decodes some instructions from `db` of the header on, and prints a text for them. -/
def Lists (code : Code) (seq : List Instruction) (text : List Char) : Prop :=
  ∃ db last, code.db? = some db ∧ code.disassemble code.len db.toNat = some (seq, last) ∧
    code.disassembleLoop false code.len db.toNat = some text

end Code

end Cyntatic
