import Cyntatic.Compiler.Asm

/-! The rest of the assembler (`asm.c`): variables, the loop over the statements, and the linker. -/

namespace Cyntatic
open Library

namespace AsmM
open Prog

/-! ### Variables -/

/-- Bytes at the end of the constants. -/
def pushConstants (bs : List U8) : AsmM Unit := do
  stopIf (2 ^ 31 ≤ (← get).constants.length + bs.length) .overflow
  modify fun as => { as with constants := as.constants ++ bs }

/-- `Vector_expand` of the constants -/
def expandConstants (n : Nat) : AsmM Unit := do
  let as ← get
  stopIf (2 ^ 31 ≤ as.constants.length + n) .overflow
  modify fun as => { as with
    constants := as.constants ++ (List.range n).map fun i => as.uninit (as.constants.length + i) }

/-- A number or a character in a byte array. -/
def byteArrayValue (tok : Token) : AsmM U32 := do
  match tok.kind with
  | .tokChar => tokenGet tok.getChar?
  | .tokInteger => return (← tokenGet tok.getInt?).setWidth 32
  | _ => fail "unexpected token in byte array initializer, expecting digits or a character" []

/-- One element of a byte array: whether another one follows. -/
def parseByte : AsmM Bool := do
  let tok ← curr
  let val ← byteArrayValue tok
  errorIf (0xFF < val) tok.range "assembler byte array supports ascii characters or bytes in range 0x00 - 0xFF" []
  let _ ← advance
  pushConstants [val.setWidth 8]
  accept .tokComma

/-- The elements of a byte array, and their number. Every one takes a token, of which `fuel` are left. -/
def parseByteArray : (fuel : Nat) → (size : U32) → AsmM U32
  | 0, size => do
    let _ ← parseByte
    return size + 1
  | fuel + 1, size => do
    let more ← parseByte
    if more then parseByteArray fuel (size + 1) else return size + 1

/-- `Assembler_append_integral_data` -/
def appendIntegralData (value : U64) (mode : Mode) : AsmM U32 := do
  pushConstants (leBytes mode.size value)
  return BitVec.ofNat 32 mode.size

/-- An optional mode after a number. -/
def parseWidth (mode : Mode) : AsmM Mode := do
  let quoted ← accept .tokBackquote
  if quoted then parseModes [] else return mode

/-- The initialiser of a variable that is neither a byte array nor a string. The check of a sign before a character
    or a bracket compares a pointer with itself. A floating point number fails the assertion of `Token_getFloat`. -/
def parseScalar : AsmM U32 := do
  let (_, isNeg) ← parseSign
  let tok ← curr
  match tok.kind with
  | .tokInteger =>
    let _ ← advance
    let value ← tokenGet tok.getInt?
    let mode ← parseWidth .quad
    appendIntegralData (addSigned 0 value isNeg) mode
  | .tokChar =>
    let _ ← advance
    let c ← tokenGet tok.getChar?
    appendIntegralData (c.setWidth 64) .byte
  | .tokFloat => stop .assertion
  | .tokLBracket =>
    let _ ← advance
    let tok ← consume .tokInteger "expecting an integer to indicate number of bytes"
    let mode ← parseWidth .byte
    let _ ← consume .tokRBracket "expecting a closing ']' to end memory reservation block"
    let n ← tokenGet tok.getInt?
    let size : U32 := (BitVec.ofNat 64 mode.size * n).setWidth 32
    expandConstants size.toNat
    return size
  | _ => fail "unsupported data format for a variable initializer" []

/-- The string of a variable, up to the first `NUL`. -/
def parseString : AsmM U32 := do
  let tok ← advance
  let str ← tokenGet tok.getString?
  pushConstants (str.takeWhile (· ≠ 0))
  return BitVec.ofNat 32 (str.takeWhile (· ≠ 0)).length

/-- The bytes between braces. -/
def parseBraces : AsmM U32 := do
  let size ← parseByteArray (← get).itp.toks.length 0
  let _ ← consume .tokRBrace "expecting a closing brace to terminate byte sequence"
  return size

/-- The data of a variable, and its size. -/
def parseInitializer : AsmM U32 := do
  let brace ← accept .tokLBrace
  let isString ← check [.tokString]
  if brace then parseBraces else if isString then parseString else parseScalar

/-- `sizeof(CodeHeader)` -/
def headerSize : Nat := 16

/-- `Assembler_parse_var_decl` -/
def parseVarDecl : AsmM Unit := do
  let _ ← advance
  let tok ← consume .tokIdentifier "expecting the name of a variable"
  let _ ← consume .tokAssign "expecting assignment operator '='"
  addSymbol ((← get).constants.length + headerSize) .var tok.range
  let size ← parseInitializer
  modify fun as => { as with
    symbols := as.symbols.map fun sym => if sym.name = tok.text then { sym with size := size } else sym }

/-! ### Statements -/

/-- `Assembler_synchronize`; `fuel` is the number of tokens that are left. -/
def synchronize (fuel : Nat) : AsmM Unit := do
  let _ ← advance
  let as ← get
  match fuel with
  | fuel + 1 => if as.itp.prev.kind = .tokNl ∨ as.itp.eof then pure () else synchronize fuel
  | 0 => pure ()

/-- One statement. -/
def parseStatement : AsmM Unit := do
  let as ← get
  match as.curr.kind with
  | .tokIdentifier => if as.itp.peek.kind = .tokColon then parseLabel else parseInstruction
  | .tokDollar => parseVarDecl
  | .tokNl | .tokComment => do let _ ← advance
  | _ => fail "unsupported token" []

/-- The loop of `Assembler_assemble`. Every statement takes a token, of which at most `fuel` are left. -/
def parseStatements : (fuel : Nat) → AsmM Unit
  | 0 => pure ()
  | fuel + 1 => do
    let as ← get
    if as.itp.eof then pure ()
    else do
      tryCatch (· = .exception) parseStatement (do synchronize (← get).itp.toks.length)
      parseStatements fuel

/-! ### The linker -/

/-- The references to labels, by the index of the instruction after the label. -/
abbrev Refs := List (Nat × List Nat)

/-- A reference from the instruction at `pos` to a label. -/
def Refs.add (refs : Refs) (id pos : Nat) : Refs :=
  match refs with
  | [] => [(id, [pos])]
  | (k, l) :: refs => if k = id then (k, l ++ [pos]) :: refs else (k, l) :: Refs.add refs id pos

/-- The instructions that refer to the label before an instruction. -/
def Refs.at (refs : Refs) (id : Nat) : List Nat := (refs.lookup id).getD []

/-- The loop of `Assembler_link` over `patchWork`. -/
def collectRefs : (patches : List Patch) → (refs : Refs) → AsmM Refs
  | [], refs => return refs
  | patch :: patches, refs => do
    match (← get).findSymbol patch.range.view with
    | none =>
      error patch.range "undefined symbol '%.*s' referenced" [.text patch.range.view]
      collectRefs patches refs
    | some sym => collectRefs patches (if sym.tag = .label then refs.add sym.id.toNat patch.pos else refs)

end AsmM

namespace Instruction

/-- `ip` is added to the immediate, or subtracted from it. -/
def addIp (instr : Instruction) (ip : U32) : Instruction := { instr with ii := instr.ii + ip.setWidth 64 }
def subIp (instr : Instruction) (ip : U32) : Instruction := { instr with ii := instr.ii - ip.setWidth 64 }

/-- The size of an instruction for the linker. -/
def linkSize (instr : Instruction) : Nat := instr.osz + if instr.rmd = .imm ∨ instr.iea then instr.ims.size else 0

end Instruction

/-- The instructions that refer to the label at `ip` get its offset; one that is past the end is a `NULL`. -/
def addTargets (ip : U32) : (refs : List Nat) → (instrs : List Instruction) → Option (List Instruction)
  | [], instrs => some instrs
  | j :: refs, instrs => if j < instrs.length then addTargets ip refs (instrs.modify j (·.addIp ip)) else none

/-- The loop of `Assembler_link` over the instructions, of which `n` are left from index `i` on. -/
def patchLoop (patches : List Patch) (refs : AsmM.Refs) :
    (n i : Nat) → (ip : U32) → (instrs : List Instruction) → Option (List Instruction)
  | 0, _, _, instrs => some instrs
  | n + 1, i, ip, instrs => do
    let instrs := if patches.any (·.pos = i) then instrs.modify i (·.subIp ip) else instrs
    let instrs ← addTargets ip (refs.at i) instrs
    let instr ← instrs[i]?
    patchLoop patches refs n (i + 1) (ip + BitVec.ofNat 32 instr.linkSize) instrs

/-- The code header: `size`, `db` and `main`. -/
def codeHeader (size : U64) (db main : U32) : List U8 := leBytes 8 size ++ leBytes 4 (db.setWidth 64) ++ leBytes 4 (main.setWidth 64)

namespace AsmM
open Prog

/-- The part of `Assembler_link` that adds code. -/
def emitCode (refs : Refs) (code : Code) : AsmM Code := do
  let as ← get
  let code ← ofOption .overflow (code.push ((List.range headerSize).map as.uninit))
  let code ← ofOption .overflow (code.push as.constants)
  let db := BitVec.ofNat 32 code.len
  let instrs ← ofOption .overflow (patchLoop as.patchWork refs as.instructions.length 0 db as.instructions)
  modify fun as => { as with instructions := instrs }
  let code ← ofOption .overflow (code.append instrs)
  ofOption .overflow
    (Code.empty.push (codeHeader (BitVec.ofNat 64 code.len) db (db + as.main) ++ code.bytes.drop headerSize))

/-- `Assembler_link`, which leaves the code and returns its length. -/
def link (code : Code) : AsmM (Nat × Code) := do
  let refs ← collectRefs (← get).patchWork []
  let as ← get
  if as.errors ≠ 0 then return (code.len, code)
  else do
    let code ← emitCode refs code
    return (code.len, code)

/-- `Assembler_assemble`, which leaves the code and returns its length. -/
def assemble (into : Code) : AsmM (Nat × Code) := do
  parseStatements (← get).itp.toks.length
  let as ← get
  if as.errors ≠ 0 then return (0, into) else link into

end AsmM

namespace AssemblerCtx

/-- The native functions of `VM_NATIVE_OS_FUNCS` with a table entry, in their order. -/
def nativeNames : List (List Char) :=
  [['r', 'e', 'a', 'd'], ['w', 'r', 'i', 't', 'e'], ['o', 'p', 'e', 'n'], ['c', 'l', 'o', 's', 'e'],
   ['s', 't', 'a', 't'], ['f', 's', 't', 'a', 't'], ['l', 's', 't', 'a', 't'], ['p', 'o', 'l', 'l'],
   ['l', 's', 'e', 'e', 'k'], ['p', 'i', 'p', 'e'], ['s', 'e', 'l', 'e', 'c', 't'], ['d', 'u', 'p'],
   ['d', 'u', 'p', '2'], ['g', 'e', 't', 'p', 'i', 'd'], ['s', 'e', 'n', 'd', 'f', 'i', 'l', 'e'],
   ['s', 'o', 'c', 'k', 'e', 't'], ['c', 'o', 'n', 'n', 'e', 'c', 't'], ['a', 'c', 'c', 'e', 'p', 't'],
   ['s', 'e', 'n', 'd', 't', 'o'], ['r', 'e', 'c', 'v', 'f', 'r', 'o', 'm'],
   ['s', 'h', 'u', 't', 'd', 'o', 'w', 'n'], ['b', 'i', 'n', 'd'], ['l', 'i', 's', 't', 'e', 'n'],
   ['g', 'e', 't', 's', 'o', 'c', 'k', 'n', 'a', 'm', 'e'], ['g', 'e', 't', 'p', 'e', 'e', 'r', 'n', 'a', 'm', 'e'],
   ['f', 'c', 'n', 't', 'l']]

/-- `Assembler_define` -/
def define (name : List Char) (value : Nat) : Symbol :=
  { id := BitVec.ofNat 64 value, tag := .define, name := ascii name, range := { start := 0, stop := 0, source := [] } }

/-- The symbols that `Assembler_init` defines. -/
def builtins : List Symbol :=
  [define ['a', 'r', 'g', 'c'] 16, define ['a', 'r', 'g', 'v'] 24] ++
    (nativeNames.zipIdx.map fun (name, i) => define ('_' :: '_' :: name) i) ++
    [define ['_', '_', 's', 't', 'd', 'i', 'n'] 0, define ['_', '_', 's', 't', 'd', 'o', 'u', 't'] 1,
     define ['_', '_', 's', 't', 'd', 'e', 'r', 'r'] 2]

/-- `Assembler_init`, for the tokens of a source. -/
def init (toks : List Token) (stop : Range) (log : List Diagnostic) (uninit : Nat → U8) : AssemblerCtx where
  itp := { prev := { kind := .tokEoF, range := stop }, toks := toks, stop := stop, log := log }
  symbols := builtins
  uninit := uninit

end AssemblerCtx

end Cyntatic
