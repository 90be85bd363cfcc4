import Cyntatic.Compiler.Assemble
import Cyntatic.Vm.Execute

/-! The code generator (`codegen.c`) with the syntax trees it takes (`ast.h`), the instruction macros it uses
    (`instr.h`) and the builder it appends to (`builder.c`). A result of `none` is an `unreachable` or an
    `ITPException`. -/

namespace Cyntatic
open Library

/-! ### Instructions -/

/-- What an argument of an instruction macro sets. -/
abbrev InsArg := Instruction → Instruction

/-- `rRa` -/
def rRa (r : Register) : InsArg := fun ins => { ins with ra := ⟨r.toNat, r.toNat_lt⟩, iam := false }

/-- `mRa` -/
def mRa (r : Register) : InsArg := fun ins => { ins with ra := ⟨r.toNat, r.toNat_lt⟩, iam := true }

/-- `rRb` -/
def rRb (r : Register) : InsArg := fun ins => { ins with ibm := false, rb := ⟨r.toNat, r.toNat_lt⟩, rmd := .reg }

/-- `mRb` -/
def mRb (r : Register) : InsArg := fun ins => { ins with ibm := true, rb := ⟨r.toNat, r.toNat_lt⟩, rmd := .reg }

/-- `xIMb`: the immediate of a second operand. -/
def xIMb (t : Mode) (n : U64) : InsArg := fun ins => { ins with ibm := false, rmd := .imm, ims := t, ii := n }

/-- `rbEA` -/
def rbEA (r : Register) (t : Mode) (n : U64) : InsArg := fun ins => { mRb r ins with ims := t, iea := true, ii := n }

/-- The macros for one operand, such as `cPUSH`. Fields that no argument sets are zero. -/
def unaryIns (opc : OpCode) (a : InsArg) : Instruction := a { osz := 2, opc := ⟨opc.toNat, opc.toNat_lt⟩ }

/-- The macros for two operands, such as `cMOV`. -/
def binaryIns (opc : OpCode) (a b : InsArg) : Instruction := b (a { osz := 3, opc := ⟨opc.toNat, opc.toNat_lt⟩ })

/-! ### The builder -/

/-- `Builder`; `variableCounts` is `sVariableCounts` of `ident.c`. -/
structure Builder where
  main : U32 := 0
  constants : List U8 := []
  instructions : List Instruction := []
  symbols : List Symbol := []
  patchWork : List Patch := []
  variableCounts : U32 := 0

namespace Builder
variable (cb : Builder)

/-- `Builder_appendInstruction` -/
def appendInstruction (ins : Instruction) : Builder := { cb with instructions := cb.instructions ++ [ins] }

/-- Some instructions, one after the other. -/
def appendAll (seq : List Instruction) : Builder := seq.foldl appendInstruction cb

/-- `Builder_appendString` -/
def appendString (str : List U8) : U32 × Builder :=
  (BitVec.ofNat 32 (cb.constants.length + 16), { cb with constants := cb.constants ++ str })

/-- `Builder_pos` -/
def pos : U32 := BitVec.ofNat 32 cb.instructions.length

/-- `Ident_genLabel` -/
def genLabel : List U8 × Builder :=
  (ascii ('L' :: Nat.toDigits 10 cb.variableCounts.toNat), { cb with variableCounts := cb.variableCounts + 1 })

/-- `Builder_addSymbolReference` -/
def addSymbolReference (pos : U32) (name : List U8) (range : Range) (addToPatchWork : Bool) : Option (U32 × Builder) :=
  match (cb.symbols.find? (·.name = name)).filter (·.tag ≠ .label) with
  | some sym => some (sym.id.setWidth 32, cb)
  | none =>
    if addToPatchWork then
      some (0, { cb with patchWork := cb.patchWork.orderedInsert (·.pos < ·.pos) ⟨pos.toNat, range⟩ })
    else none

/-- `Builder_addSymbol` -/
def addSymbol (pos : U32) (tag : SymbolTag) (name : List U8) (range : Range) : Option Builder :=
  if (cb.symbols.find? (·.name = name)).isSome then none
  else some { cb with symbols := cb.symbols ++ [{ id := pos.setWidth 64, tag, name, range }] }

end Builder

/-- The loop of `Builder_link` over the instructions, of which `n` are left from index `i` on: the `ip` of each of
    them, and all the instructions with their targets. -/
def Builder.linkLoop (patchWork : List Patch) (refs : AsmM.Refs) :
    (n i : Nat) → (ip : U32) → (instrs : List Instruction) → Option (List U32 × List Instruction)
  | 0, _, _, instrs => some ([], instrs)
  | n + 1, i, ip, instrs => do
    let instrs := if patchWork.any (·.pos = i) then instrs.modify i (·.subIp ip) else instrs
    let instrs ← addTargets ip (refs.at i) instrs
    let instr ← instrs[i]?
    let (ips, instrs) ← Builder.linkLoop patchWork refs n (i + 1) (ip + BitVec.ofNat 32 instr.linkSize) instrs
    return (ip :: ips, instrs)

/-- The loop of `Builder_link` over `patchWork`: the references to labels, and the errors in the log. -/
def Builder.collectRefs (cb : Builder) : (patches : List Patch) → (refs : AsmM.Refs) → (errors : Nat) → AsmM.Refs × Nat
  | [], refs, errors => (refs, errors)
  | patch :: patches, refs, errors =>
    match cb.symbols.find? (·.name = patch.range.view) with
    | none => cb.collectRefs patches refs (errors + 1)
    | some sym => cb.collectRefs patches (if sym.tag = .label then refs.add sym.id.toNat patch.pos else refs) errors

/-- The part of `Builder_link` that adds code. `uninit` is what `Vector_expand` leaves in the bytes that it adds. -/
def Builder.emitCode (cb : Builder) (refs : AsmM.Refs) (uninit : Nat → U8) (code : Code) : Option Code := do
  let code ← code.push ((List.range AsmM.headerSize).map uninit)
  let code ← code.push cb.constants
  let db := BitVec.ofNat 32 code.len
  let (_, instrs) ← Builder.linkLoop cb.patchWork refs cb.instructions.length 0 db cb.instructions
  let code ← code.append instrs
  Code.empty.push (codeHeader (BitVec.ofNat 64 code.len) db (db + cb.main) ++ code.bytes.drop AsmM.headerSize)

/-- `Builder_link`, with some errors in the log before: the errors after it, and the code. -/
def Builder.link (cb : Builder) (errors : Nat) (uninit : Nat → U8) (code : Code) : Option (Nat × Code) :=
  let (refs, errors) := cb.collectRefs cb.patchWork [] errors
  if errors ≠ 0 then some (errors, code)
  else (cb.emitCode refs uninit code).map fun code => (0, code)

/-! ### Code generation -/

/-- `AstNode`, as far as `Codegen_generateCyn` takes it apart. -/
inductive AstNode where
  | stringLit (value : List U8)
  | boolLit (value : Bool)
  | charLit (value : U32)
  | integerLit (value : U64)
  /-- The macro `xIMb` makes an `i64` of the `f64`. -/
  | floatLit (value : U64)
  | varExpr (offset : U32)
  | unaryExpr (op : TokenKind) (expr : AstNode)
  | prefixExpr (op : TokenKind) (expr : AstNode)
  | postfixExpr (op : TokenKind) (expr : AstNode)
  | binaryExpr (op : TokenKind) (lhs rhs : AstNode)
  | logicExpr (op : TokenKind) (lhs rhs : AstNode) (range : Range)

/-- `cMOV(rRa(r5), …)` -/
def movR5 (b : InsArg) : Instruction := binaryIns .mov (rRa .r5) b

/-- The instruction for a unary operator. -/
def unaryOp? : TokenKind → Option Instruction
  | .tokNot => some (unaryIns .not (rRa .r5))
  | .tokComplement => some (unaryIns .bnot (rRa .r5))
  | _ => none

/-- The instruction for `++` and `--`. -/
def stepOp? : TokenKind → Option Instruction
  | .tokPlusPlus => some (unaryIns .inc (mRa .r4))
  | .tokMinusMinus => some (unaryIns .dec (mRa .r4))
  | _ => none

/-- `cCMP(rRa(r5), rRb(r4))` and the flags that are looked at. -/
def compareIns (flags : U64) : List Instruction :=
  [binaryIns .cmp (rRa .r5) (rRb .r4), binaryIns .band (rRa .flg) (xIMb .quad flags)]

/-- The instructions for a binary operator. The cases of `<` and `<=` have no `break`. -/
def binaryOp? : TokenKind → Option (List Instruction)
  | .tokPlus => some [binaryIns .add (rRa .r5) (rRb .r4)]
  | .tokMinus => some [binaryIns .sub (rRa .r5) (rRb .r4)]
  | .tokMult => some [binaryIns .mul (rRa .r5) (rRb .r4)]
  | .tokDiv => some [binaryIns .div (rRa .r5) (rRb .r4)]
  | .tokMod => some [binaryIns .mod (rRa .r5) (rRb .r4)]
  | .tokBitAnd => some [binaryIns .band (rRa .r5) (rRb .r4)]
  | .tokBitOr => some [binaryIns .bor (rRa .r5) (rRb .r4)]
  | .tokBitXor => some [binaryIns .xor (rRa .r5) (rRb .r4)]
  | .tokSal => some [binaryIns .sal (rRa .r5) (rRb .r4)]
  | .tokSar => some [binaryIns .sar (rRa .r5) (rRb .r4)]
  | .tokLt => some (compareIns flgLess ++ compareIns (flgLess ||| flgZero) ++ compareIns flgGreater)
  | .tokLte => some (compareIns (flgLess ||| flgZero) ++ compareIns flgGreater)
  | .tokGt => some (compareIns flgGreater)
  | .tokGte => some (compareIns (flgGreater ||| flgZero))
  | _ => none

/-- The jump and the operation for a logical operator. -/
def logicOp? : TokenKind → Option (OpCode × OpCode)
  | .tokOr => some (.jmpnz, .or)
  | .tokAnd => some (.jmpz, .and)
  | _ => none

/-- `Codegen_generateCyn` -/
def AstNode.generateCyn : AstNode → Builder → Option Builder
  | .stringLit value, cb =>
    let (pos, cb) := cb.appendString value
    some (cb.appendInstruction (movR5 (xIMb .word (pos.setWidth 64))))
  | .boolLit value, cb => some (cb.appendInstruction (movR5 (xIMb .byte (if value then 1 else 0))))
  | .charLit value, cb => some (cb.appendInstruction (movR5 (xIMb .word (value.setWidth 64))))
  | .integerLit value, cb => some (cb.appendInstruction (movR5 (xIMb .quad value)))
  | .floatLit value, cb => some (cb.appendInstruction (movR5 (xIMb .quad value)))
  | .varExpr offset, cb =>
    some (cb.appendAll [binaryIns .mov (rRa .r4) (rbEA .bp .byte (offset.setWidth 64)), movR5 (mRb .r4)])
  | .unaryExpr op expr, cb => do
    let cb ← expr.generateCyn cb
    return cb.appendInstruction (← unaryOp? op)
  | .prefixExpr op expr, cb => do
    let cb ← expr.generateCyn cb
    return (cb.appendInstruction (← stepOp? op)).appendInstruction (movR5 (mRb .r4))
  | .postfixExpr op expr, cb => do
    let cb ← expr.generateCyn cb
    return cb.appendInstruction (← stepOp? op)
  | .binaryExpr op lhs rhs, cb => do
    let cb ← lhs.generateCyn cb
    let cb := cb.appendInstruction (unaryIns .push (rRa .r5))
    let cb ← rhs.generateCyn cb
    let cb := cb.appendInstruction (unaryIns .pop (rRa .r4))
    return cb.appendAll (← binaryOp? op)
  | .logicExpr op lhs _ range, cb => do
    let cb ← lhs.generateCyn cb
    let (label, cb) := cb.genLabel
    let (jump, opc) ← logicOp? op
    let cb := cb.appendInstruction (binaryIns .cmp (rRa .r5) (xIMb .byte 0))
    let (pos, cb) ← cb.addSymbolReference cb.pos label range true
    let cb := cb.appendInstruction (unaryIns jump (xIMb .quad (pos.setWidth 64)))
    let cb := cb.appendInstruction (unaryIns .push (rRa .r5))
    -- The left operand once more, where the right one is meant.
    let cb ← lhs.generateCyn cb
    let cb := cb.appendInstruction (unaryIns .pop (rRa .r4))
    let cb := cb.appendInstruction (binaryIns opc (rRa .r5) (rRb .r4))
    cb.addSymbol cb.pos .label label range

end Cyntatic
