import Mathlib.Data.List.Sort
import Cyntatic.Library.Prog
import Cyntatic.Vm.Code
import Cyntatic.Compiler.Token

/-! The assembler (`asm.c`): a pass over the tokens that collects constants, instructions, symbols and references
    to symbols, and the linker, which puts the image together. The names of the vectors and trees are those of
    `AssemblerCtx`; a tree is the list of its elements in order. -/

namespace Cyntatic
open Library

/-! ### Names -/

/-- `VM_get_opcode_for_instr_`: the op code with a mnemonic, in letters of either case, and its number of
    arguments. -/
def OpCode.lookup? (name : List U8) : Option (OpCode × Nat) :=
  (OpCode.table.find? fun (_, mnemonic, _) => (ascii mnemonic).map toUpper = name.map toUpper).map fun (o, _, n) => (o, n)

/-- `Vm_get_register_from_str_` -/
def Register.ofText? (name : List U8) : Option Register :=
  if name = ascii ['b', 'p'] then some .bp
  else if name = ascii ['i', 'p'] then some .ip
  else if name = ascii ['s', 'p'] then some .sp
  else if name = ascii ['f', 'l', 'g'] then some .flg
  else match name with
    | [r, n] => if r = 114 ∧ 48 ≤ n ∧ n ≤ 53 then Register.ofNat? (n.toNat - 48) else none
    | _ => none

/-- The letters of `Assembler_parse_modes_`. -/
def Mode.ofExt? (ext : List U8) : Option Mode :=
  if ext = ascii ['b'] then some .byte
  else if ext = ascii ['s'] then some .short
  else if ext = ascii ['w'] then some .word
  else if ext = ascii ['q'] then some .quad
  else none

/-! ### The state -/

inductive SymbolTag where
  | label | var | define
  deriving DecidableEq, Repr

structure Symbol where
  id : U64
  size : U32 := 0
  tag : SymbolTag
  name : List U8
  range : Range
  deriving DecidableEq, Repr

/-- A reference to a symbol that the linker resolves, by the index of its instruction. -/
structure Patch where
  pos : Nat
  range : Range
  deriving DecidableEq, Repr

/-- `AssemblerCtx`; `uninit` is what `Vector_expand` leaves in the bytes that it adds. -/
structure AssemblerCtx where
  itp : ITokenParser
  main : U32 := 0
  constants : List U8 := []
  instructions : List Instruction := []
  symbols : List Symbol := []
  patchWork : List Patch := []
  uninit : Nat → U8

/-- Why a pass of the assembler stops. -/
inductive AsmStop where
  /-- `ITPException` -/
  | exception
  /-- `csAssert` or `unreachable` -/
  | assertion
  /-- A vector longer than an `int` can count, or a table index out of bounds. -/
  | overflow
  deriving DecidableEq

/-- Computations of the assembler, which leave no events. -/
abbrev AsmM := Prog Empty AsmStop AssemblerCtx

namespace AssemblerCtx
variable (as : AssemblerCtx)

/-- `ITP_curr` -/
def curr : Token := as.itp.curr

/-- `L->errors` -/
def errors : Nat := as.itp.log.length

/-- `RbTree_find_` of a name in the symbols -/
def findSymbol (name : List U8) : Option Symbol := as.symbols.find? (·.name = name)

/-- The value that `Assembler_add_symbol_reference` finds at once: that of a symbol that is not a label. -/
def reference? (name : List U8) : Option U32 :=
  ((as.findSymbol name).filter (·.tag ≠ .label)).map fun sym => sym.id.setWidth 32

end AssemblerCtx

namespace AsmM
open Prog

/-! ### The token parser -/

def curr : AsmM Token := do return (← get).curr

/-- `ITP_check` -/
def check (kinds : List TokenKind) : AsmM Bool := do return (← get).itp.check kinds

/-- `ITP_advance` -/
def advance : AsmM Token := do
  let as ← get
  modify fun as => { as with itp := as.itp.advance.2 }
  return as.itp.advance.1

/-- `ITP_match` -/
def accept (kind : TokenKind) : AsmM Bool := do
  let as ← get
  if as.itp.check [kind] then do
    let _ ← advance
    return true
  else return false

/-- `c && ITP_match(as, kind)` -/
def acceptIf (c : Bool) (kind : TokenKind) : AsmM Bool := if c then accept kind else return false

/-- `ITP_error0` -/
def error (range : Range) (fmt : String) (args : List DiagnosticArg) : AsmM Unit :=
  modify fun as => { as with itp.log := as.itp.log ++ [⟨range, fmt, args⟩] }

/-- `ITP_fail0` -/
def failAt {α : Type} (range : Range) (fmt : String) (args : List DiagnosticArg) : AsmM α := do
  error range fmt args
  stop .exception

/-- `ITP_fail` -/
def fail {α : Type} (fmt : String) (args : List DiagnosticArg) : AsmM α := do failAt (← curr).range fmt args

/-- A check that fails with `ITP_fail0`. -/
def failIf (c : Prop) [Decidable c] (range : Range) (fmt : String) (args : List DiagnosticArg) : AsmM Unit :=
  if c then failAt range fmt args else pure ()

/-- A check that logs an error and goes on. -/
def errorIf (c : Prop) [Decidable c] (range : Range) (fmt : String) (args : List DiagnosticArg) : AsmM Unit :=
  if c then error range fmt args else pure ()

/-- `ITP_consume` -/
def consume (kind : TokenKind) (fmt : String) : AsmM Token := do
  let as ← get
  if as.itp.check [kind] then advance else fail fmt []

/-- `Token_get` -/
def tokenGet {α : Type} (x : Option α) : AsmM α := ofOption .assertion x

/-! ### Symbols -/

/-- `Assembler_add_symbol` -/
def addSymbol (pos : Nat) (tag : SymbolTag) (range : Range) : AsmM Unit := do
  let as ← get
  failIf (as.findSymbol range.view).isSome range "symbol with name '%s' already defined" [.text range.view]
  modify fun as => { as with
    symbols := as.symbols ++ [{ id := BitVec.ofNat 64 pos, tag := tag, name := range.view, range := range }] }

/-- `RbTree_add` to `patchWork`, after the references of the same instruction. -/
def addPatch (pos : Nat) (range : Range) : AsmM Unit :=
  modify fun as => { as with patchWork := as.patchWork.orderedInsert (·.pos < ·.pos) ⟨pos, range⟩ }

/-- `Assembler_add_symbol_reference` -/
def addSymbolReference (pos : Nat) (range : Range) (addToPatchWork : Bool) : AsmM U32 := do
  match (← get).reference? range.view with
  | some id => return id
  | none =>
    if addToPatchWork then do
      addPatch pos range
      return 0
    else fail "referenced symbol '%.*s' must be defined before use" [.text range.view]

/-- `Assembler_get_variable_size` -/
def getVariableSize (range : Range) : AsmM U32 := do
  match (← get).findSymbol range.view with
  | none => failAt range "reference to undefined variable '%.*s'" [.text range.view]
  | some sym =>
    if sym.tag = .var then return sym.size
    else failAt range "cannot not read size of non variable symbol '%.*s'" [.text range.view]

/-- `isSizeOp ? Assembler_get_variable_size(…) : Assembler_add_symbol_reference(…)` -/
def symbolValue (isSizeOp : Bool) (pos : Nat) (range : Range) (addToPatchWork : Bool) : AsmM U32 :=
  if isSizeOp then getVariableSize range else addSymbolReference pos range addToPatchWork

/-- `Assembler_parse_modes_` -/
def parseModes (modes : List Mode) : AsmM Mode := do
  let tok ← consume .tokIdentifier "expecting either a 'b'/'s'/'w'/'q'"
  match Mode.ofExt? tok.text with
  | none => failAt tok.range "unsupported instruction '%.*s', use b/s/w/q" [.text tok.text]
  | some mode =>
    if modes.contains mode then fail "mode '%s' not supported in current context, use %s" [.mode mode, .modes modes]
    else return mode

/-- `Assembler_parse_label` -/
def parseLabel : AsmM Unit := do
  let tok ← consume .tokIdentifier "expecting a label name"
  let _ ← consume .tokColon "expecting a colon ':' to terminate a label"
  let as ← get
  failIf (as.findSymbol tok.text).isSome tok.range "label '%.*s' already defined" [.text tok.text]
  addSymbol as.instructions.length .label tok.range
  -- `strncmp` stops at the end of the label, so that every start of `main` counts as `main`
  modify fun as => if tok.text <+: ascii ['m', 'a', 'i', 'n'] then
    { as with main := BitVec.ofNat 32 as.instructions.length } else as

/-! ### Arguments of instructions -/

/-- An optional sign: the token that stands there, and whether it is a minus. -/
def parseSign : AsmM (Token × Bool) := do
  let sign ← curr
  let isNeg ← accept .tokMinus
  let _ ← acceptIf (!isNeg) .tokPlus
  return (sign, isNeg)

/-- The sum of an immediate and a signed number. -/
def addSigned (ii n : U64) (isNeg : Bool) : U64 := ii + if isNeg then -n else n

/-- The number added to a variable: `if (!isNeg) ITP_match(as, tokMinus);` leaves a plus where it is. -/
def parseAddend (instr : Instruction) : AsmM Instruction := do
  let as ← get
  if 0 < instr.ii ∧ as.itp.check [.tokPlus, .tokMinus] then do
    let isNeg ← accept .tokMinus
    let _ ← acceptIf (!isNeg) .tokMinus
    let tok ← consume .tokInteger "expecting an integer literal to add to a variable"
    let imm ← tokenGet tok.getInt?
    return { instr with ims := .integerSize imm, ii := addSigned instr.ii imm isNeg }
  else return instr

/-- The immediate of a symbol. -/
def parseSymbol (instr : Instruction) (isSizeOp : Bool) (pos : Nat) (tok : Token) : AsmM Instruction := do
  let iu ← symbolValue isSizeOp pos tok.range true
  parseAddend { instr with
    rmd := .imm, ii := iu.setWidth 64, ims := if iu = 0 then .word else .integerSize (iu.setWidth 64) }

/-- A symbol in an effective address. -/
def parseEaSymbol (instr : Instruction) (isSizeOp : Bool) (pos : Nat) (sign tok tokP : Token) : AsmM Instruction := do
  failIf (sign.kind = .tokPlus ∨ sign.kind = .tokMinus) tok.range "+/- not allowed on variables" []
  let iu ← symbolValue isSizeOp pos tokP.range false
  return { instr with ims := .quad, ii := instr.ii + iu.setWidth 64 }

/-- The second part of an effective address, for its first token. After `#` the range looked up is that of the
    `#` itself. -/
def parseEaPart (instr : Instruction) (isSizeOp : Bool) (pos : Nat) (sign tok : Token) (isNeg : Bool) (tokP : Token) :
    AsmM Instruction := do
  match tokP.kind with
  | .tokInteger =>
    let imm ← tokenGet tokP.getInt?
    return { instr with ims := .integerSize imm, ii := addSigned instr.ii imm isNeg }
  | .tokHash =>
    let as ← get
    failIf (¬as.itp.check [.tokIdentifier]) as.curr.range "'#' operator must be followed by an identifier" []
    parseEaSymbol instr true pos sign tok tokP
  | .tokIdentifier => parseEaSymbol instr isSizeOp pos sign tok tokP
  | _ =>
    error tok.range "unexpected effective address, only integers, variables and '#' operations allowed" []
    return instr

/-- The effective address of a second argument in brackets. -/
def parseEa (instr : Instruction) (isMemRb isSizeOp : Bool) (pos : Nat) (tok : Token) : AsmM Instruction := do
  let isEa ← acceptIf isMemRb .tokComma
  if isEa then do
    let (sign, isNeg) ← parseSign
    let tokP ← advance
    let instr ← parseEaPart instr isSizeOp pos sign tok isNeg tokP
    return { instr with iea := true }
  else return instr

/-- An argument that starts with an identifier: a register or a symbol, without its effective address. -/
def parseName (instr : Instruction) (isSizeOp : Bool) (pos : Nat) (sign tok : Token) : AsmM (Register × Instruction) := do
  failIf (sign.kind = .tokPlus ∨ sign.kind = .tokMinus) tok.range "+/- not allowed on variables/labels" []
  match Register.ofText? tok.text with
  | none => return (.r0, ← parseSymbol instr isSizeOp pos tok)
  | some reg =>
    let as ← get
    failIf isSizeOp { tok.range with stop := as.curr.range.stop } "'#' operator cannot be applied to register arguments" []
    return (reg, { instr with rmd := .reg })

/-- An argument that is a literal. A floating point number fails the assertion of `Token_getFloat`. -/
def parseLiteral (instr : Instruction) (isNeg : Bool) (tok : Token) : AsmM Instruction := do
  match tok.kind with
  | .tokChar =>
    let c ← tokenGet tok.getChar?
    return { instr with rmd := .imm, ii := c.setWidth 64, ims := .word }
  | .tokInteger =>
    let imm ← tokenGet tok.getInt?
    return { instr with rmd := .imm, ii := addSigned 0 imm isNeg, ims := .integerSize imm }
  | _ => stop .assertion

/-- What stands between the brackets, if there are any. -/
def parseOperand (instr : Instruction) (isMemRb isSizeOp isNeg : Bool) (sign tok : Token) :
    AsmM (Register × Instruction) := do
  let pos := (← get).instructions.length
  if tok.kind = .tokIdentifier then do
    let (reg, instr) ← parseName instr isSizeOp pos sign tok
    return (reg, ← parseEa instr isMemRb isSizeOp pos tok)
  else return (.r0, ← parseLiteral instr isNeg tok)

/-- The bracket at the end of an argument in brackets. -/
def closeBracket (isMem : Bool) : AsmM Unit :=
  if isMem then do
    let _ ← consume .tokRBracket "expecting a closing ']' to end a memory instruction argument"
  else return ()

/-- `Assembler_parse_instruction_arg`: whether the argument is in brackets, its register, and the record with the
    immediate. -/
def parseInstructionArg (instr : Instruction) (isRb : Bool) : AsmM (Bool × Register × Instruction) := do
  let isMem ← accept .tokLBracket
  let (sign, isNeg) ← parseSign
  let as ← get
  failIf (¬as.itp.check [.tokInteger, .tokChar, .tokFloat, .tokIdentifier, .tokHash]) as.curr.range
    "expecting either a number, char literal, register, variable or label as instruction argument" []
  let isSizeOp ← accept .tokHash
  let tok ← advance
  let (reg, instr) ← parseOperand instr (isMem && isRb) isSizeOp isNeg sign tok
  closeBracket isMem
  return (isMem, reg, instr)

/-! ### Statements -/

def pushInstruction (instr : Instruction) : AsmM Unit := do
  stopIf (2 ^ 31 ≤ (← get).instructions.length + 1) .overflow
  modify fun as => { as with instructions := as.instructions ++ [instr] }

/-- The mode of an instruction. -/
def parseInstructionMode (instr : Instruction) : AsmM Instruction := do
  let dot ← accept .tokDot
  if dot then return { instr with imd := ← parseModes [] } else return instr

/-- The four-bit field `ra` of a one-operand instruction, where an immediate leaves its mode. -/
def Instruction.argRa (instr : Instruction) (reg : Register) : Fin 16 :=
  if instr.rmd = .imm then ⟨instr.ims.toNat, by have := instr.ims.toNat_lt; omega⟩ else ⟨reg.toNat, reg.toNat_lt⟩

def parseFirstArg (nargs : Nat) (instr : Instruction) : AsmM Instruction :=
  if 1 ≤ nargs then do
    let (isMem, reg, instr) ← parseInstructionArg instr false
    return { instr with iam := isMem, ra := Instruction.argRa instr reg }
  else return instr

def parseSecondArg (nargs : Nat) (instr : Instruction) : AsmM Instruction :=
  if nargs = 2 then do
    let (isMem, reg, instr) ← parseInstructionArg instr true
    return { instr with ibm := isMem, rb := ⟨reg.toNat, reg.toNat_lt⟩ }
  else return instr

/-- `Assembler_parse_instruction` -/
def parseInstruction : AsmM Unit := do
  let tok ← curr
  match OpCode.lookup? tok.text with
  | none => fail "unsupported instruction '%.*s'" [.text tok.text]
  | some (opc, nargs) =>
    let _ ← advance
    let instr ← parseInstructionMode
      { osz := Fin.ofNat 4 (nargs + 1), opc := ⟨opc.toNat, opc.toNat_lt⟩, imd := .quad }
    let instr ← parseFirstArg nargs instr
    let instr ← parseSecondArg nargs instr
    pushInstruction instr

end AsmM

end Cyntatic
