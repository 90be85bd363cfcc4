import Cyntatic.Vm.Instr

/-! The code vector: how instructions are emitted (`VM_code_append_`) and how the tools decode them
    (`VM_code_instruction_at`). A result of `none` is a read or a table index out of bounds, or a vector
    longer than an `int` can count. -/

namespace Cyntatic
open Library

/-- A code vector. A vector counts its elements in an `int`. -/
structure Code where
  bytes : List U8
  len_lt : bytes.length < 2 ^ 31
  deriving DecidableEq

namespace Instruction

/-- Whether an immediate follows the first bytes of an instruction. -/
def hasImm (ins : Instruction) : Bool := ins.rmd == .imm || ins.iea

/-- `instr->ims = instr->ra; instr->ra = 0;` -/
def moveMode (ins : Instruction) : Instruction := { ins with ims := .ofBits ins.ra, ra := 0 }

/-- The bytes of an instruction before its immediate. -/
def head (ins : Instruction) : List U8 :=
  [ins.b1] ++ (if 1 < ins.osz.val then [ins.b2] else []) ++ if 2 < ins.osz.val then [ins.b3] else []

/-- The mode in which the immediate is emitted: a one-operand instruction keeps it in `ra`. -/
def emitMode (ins : Instruction) : Option Mode :=
  if ins.osz = 2 then Mode.ofNat? ins.ra else some ins.ims

/-- The bytes that `VM_code_append_` adds for one instruction. -/
def emit (ins : Instruction) : Option (List U8) :=
  if 1 < ins.osz.val ∧ ins.hasImm then ins.emitMode.map fun ims => ins.head ++ leBytes ims.size ins.ii
  else some ins.head

/-- The bytes that `VM_code_append_` adds for a sequence of instructions. -/
def emitAll : List Instruction → Option (List U8)
  | [] => some []
  | ins :: seq => do
    let bs ← ins.emit
    let rest ← emitAll seq
    return bs ++ rest

end Instruction

namespace Code

/-- `Vector_len` -/
def len (code : Code) : Nat := code.bytes.length

/-- The byte that `Vector_at` points to; past the end it is `NULL`. -/
def at? (code : Code) (i : Nat) : Option U8 := code.bytes[i]?

/-- `n` bytes from an offset, if the vector holds them all. -/
def slice? (code : Code) (i n : Nat) : Option (List U8) :=
  if i + n ≤ code.len then some ((code.bytes.drop i).take n) else none

/-- A code vector with no bytes yet. -/
def empty : Code := ⟨[], by decide⟩

/-- A vector with more bytes at the end. -/
def push (code : Code) (bs : List U8) : Option Code :=
  if h : (code.bytes ++ bs).length < 2 ^ 31 then some ⟨code.bytes ++ bs, h⟩ else none

/-- `VM_code_append_` -/
def append (code : Code) (seq : List Instruction) : Option Code :=
  (Instruction.emitAll seq).bind code.push

/-- The immediate of `VM_code_instruction_at`, one load for each width. -/
def immediateAt (code : Code) (ims : Mode) (iip : Nat) : Option (U64 × Nat) :=
  match ims with
  | .byte => (code.slice? iip 1).map fun bs => (leSigned 64 1 bs, iip + 1)
  | .short => (code.slice? iip 2).map fun bs => (leSigned 64 2 bs, iip + 2)
  | .word => (code.slice? iip 4).map fun bs => (leSigned 64 4 bs, iip + 4)
  | .quad => (code.slice? iip 8).map fun bs => (leSigned 64 8 bs, iip + 8)

/-- The last part of `VM_code_instruction_at`: the immediate at `iip`, if there is one. -/
def immAt (code : Code) (instr : Instruction) (start iip : Nat) : Option (Nat × Instruction) :=
  if instr.hasImm then
    (code.immediateAt instr.ims iip).map fun (ii, iip) => (iip - start, { instr with ii := ii })
  else some (iip - start, instr)

/-- `VM_code_instruction_at`: the size of the instruction at an offset (a `u32`) and the record after
    decoding into it. -/
def instructionAt (code : Code) (instr : Instruction) (start : Nat) : Option (Nat × Instruction) :=
  if code.len < (start + 1) % 2 ^ 32 then some (0, { instr with osz := 0 })
  else (code.at? start).bind fun b1 =>
    let instr := instr.setB1 b1
    if code.len < (start + instr.osz) % 2 ^ 32 then some (0, { instr with osz := 0 })
    else if instr.osz ≤ 1 then some (instr.osz, instr)
    else (code.at? (start + 1)).bind fun b2 =>
      let instr := instr.setB2 b2
      let instr := if instr.osz = 2 ∧ instr.rmd = .imm then instr.moveMode else instr
      if instr.osz = 3 then (code.at? (start + 2)).bind fun b3 => code.immAt (instr.setB3 b3) start (start + 3)
      else code.immAt instr start (start + 2)

/-- The loop of `VM_code_disassemble_` from an offset on: the records decoded and the offset where the
    loop ends. `fuel` bounds the number of decodes. -/
def disassemble (code : Code) : (fuel ip : Nat) → Option (List Instruction × Nat)
  | 0, ip => if ip < code.len then none else some ([], ip)
  | fuel + 1, ip =>
    if ip < code.len then do
      let (size, instr) ← code.instructionAt {} ip
      let (rest, last) ← code.disassemble fuel (if size = 0 then ip + 1 else ip + size)
      return (instr :: rest, last)
    else some ([], ip)

end Code

/-! ### The listing -/

/-- A number in decimal (`%u`). -/
def unsignedText (n : Nat) : List Char := Nat.toDigits 10 n

/-- A signed number in decimal (`PRIi64`). -/
def signedText (v : U64) : List Char :=
  if v.toInt < 0 then '-' :: unsignedText v.toInt.natAbs else unsignedText v.toInt.natAbs

/-- An offset as `VM_code_disassemble_` shows it (`%08d`). -/
def addressText (ip : Nat) : List Char := (unsignedText ip).leftpad 8 '0' ++ [':', ' ']

/-- `vmRegisterNameTbl` -/
def registerNames : List (List Char) :=
  [['r', '0'], ['r', '1'], ['r', '2'], ['r', '3'], ['r', '4'], ['r', '5'],
   ['s', 'p'], ['i', 'p'], ['b', 'p'], ['f', 'l', 'g']]

/-- `vmModeNamesTbl` -/
def modeNames : List (List Char) := [['.', 'b'], ['.', 's'], ['.', 'w'], ['.', 'q']]

/-- `vmInstructionNamesTbl` -/
def instructionNames : List (List Char) := OpCode.table.map fun entry => entry.2.1

/-- An operand, in brackets when it is indirect. -/
def bracketed (indirect : Bool) (text : List Char) : List Char := if indirect then ['['] ++ text ++ [']'] else text

namespace Instruction

/-- What `VM_code_print_instruction_` prints after the name: the operands. -/
def printOperands (instr : Instruction) : Option (List Char) :=
  match instr.osz with
  | 2 => do
    let text ← if instr.rmd = .reg then registerNames[instr.ra.val]? else some (signedText instr.ii)
    return bracketed instr.iam text
  | 3 => do
    let first ← registerNames[instr.ra.val]?
    let second ←
      if instr.rmd = .reg then
        registerNames[instr.rb.val]?.map fun name => name ++ if instr.iea then [',', ' '] ++ signedText instr.ii else []
      else some (signedText instr.ii)
    return bracketed instr.iam first ++ [' '] ++ bracketed instr.ibm second
  -- `unreachable()`
  | _ => none

/-- `VM_code_print_instruction_` -/
def print (instr : Instruction) : Option (List Char) :=
  if instr.osz = 0 then some ['.', '.', '.', 'n', 'u', 'l', 'l', '.', '.', '.', '\n']
  else if OpCode.table.length ≤ instr.opc.val then
    some (['n', 'o', 't', '-', 's', 'u', 'p', '.'] ++ unsignedText instr.opc ++ ['\n'])
  else do
    let name ← instructionNames[instr.opc.val]?
    let mode ← modeNames[instr.imd.toNat]?
    if instr.osz = 1 then return name ++ mode
    let operands ← instr.printOperands
    return name ++ mode ++ [' '] ++ operands

end Instruction

namespace Code

/-- An iteration of the loop of `VM_code_disassemble_`: what it prints, and `ip` after it. -/
def disassembleStep (code : Code) (showAddr : Bool) (ip : Nat) : Option (List Char × Nat) := do
  let addr := if showAddr then addressText ip else []
  let (size, instr) ← code.instructionAt {} ip
  let text ← instr.print
  let ip := (ip + size) % 2 ^ 32
  return (addr ++ text ++ ['\n'], if size = 0 then (ip + 1) % 2 ^ 32 else ip)

/-- The loop of `VM_code_disassemble_` from an offset on, with what it prints. -/
def disassembleLoop (code : Code) (showAddr : Bool) : (fuel ip : Nat) → Option (List Char)
  | 0, ip => if ip < code.len then none else some []
  | fuel + 1, ip =>
    if ip < code.len then do
      let (text, ip) ← code.disassembleStep showAddr ip
      let rest ← code.disassembleLoop showAddr fuel ip
      return text ++ rest
    else some []

end Code

end Cyntatic
