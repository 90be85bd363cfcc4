import Cyntatic.Vm.State

/-! The interpreter (`vm.c`): `VM_fetch`, `VM_execute` and `VM_returnx`. Sums and products wrap
    around, as the compiled code lets them. -/

namespace Cyntatic
open Library

/-- The code outside the machine: the native functions, each with its number or address, called with the
    place of the arguments and their number. -/
structure Host where
  native : U64 → Option U64 → U32 → Vm → Outcome Stop Vm Unit

/-- `flgZero`, `flgLess` and `flgGreater` -/
def flgZero : U64 := 0b10000000
def flgLess : U64 := 0b01000000
def flgGreater : U64 := 0b00100000

/-- `eflHalt` -/
def eflHalt : U64 := 1

/-- The mode in which `VM_execute` reads the last argument (`TB`): that of the operation when it is a register. -/
def Instruction.modeB (ins : Instruction) : Mode := if ins.osz ≠ 1 ∧ ins.rmd = .reg then ins.imd else ins.ims

/-- The bytes from an offset up to the first `NUL`, or to the end of the memory. -/
def Memory.string (ram : Memory) (off : Nat) : List U8 := (ram.slice off (ram.size.toNat - off)).takeWhile (· ≠ 0)

namespace VmM
open Prog

/-! ### Fetching -/

/-- The byte of the code at `ip`, which moves on. -/
def nextByte : VmM U8 := do
  let vm ← get
  let b ← ofOption .code (vm.code.at? (vm.reg .ip).toNat)
  setReg .ip (vm.reg .ip + 1)
  return b

/-- The third byte of `VM_fetch`. -/
def fetchB3 (instr : Instruction) : VmM Instruction :=
  if instr.osz = 3 then do return instr.setB3 (← nextByte) else pure instr

/-- The immediate of `VM_fetch`. -/
def fetchImm (instr : Instruction) : VmM Instruction :=
  if instr.hasImm then do
    let instr := if instr.osz = 2 then instr.moveMode else instr
    let vm ← get
    let bs ← ofOption .code (vm.code.slice? (vm.reg .ip).toNat instr.ims.size)
    setReg .ip (vm.reg .ip + BitVec.ofNat 64 instr.ims.size)
    return { instr with ii := leSigned 64 instr.ims.size bs }
  else pure instr

/-- The check of `VM_fetch` that `ip` moved by some bytes is not past the end of the code. -/
def checkCode (n : U64) : VmM Unit := do
  let vm ← get
  abortIf (BitVec.ofNat 64 vm.code.len < vm.reg .ip + n) "execution goes beyond code space" []

/-- `VM_fetch`: the offset of the instruction and the record after decoding into it. -/
def fetch (instr : Instruction) : VmM (U64 × Instruction) := do
  let ret ← getReg .ip
  checkCode 1
  let instr := instr.setB1 (← nextByte)
  if instr.osz = 1 then return (ret, instr)
  else
    checkCode (BitVec.ofNat 64 instr.osz - 1)
    let instr := instr.setB2 (← nextByte)
    let instr ← fetchB3 instr
    let instr ← fetchImm instr
    checkCode 0
    return (ret, instr)

/-! ### Operands -/

/-- An operand in a register, or in the memory that a register and an offset address. -/
def placeReg (n : Fin 16) (indirect : Bool) (d : U64) : VmM Place :=
  if indirect then do
    let addr ← regAddr n
    let off ← mem (addr.setWidth 32)
    return .ram (off + d) (addr + d)
  else return .reg n

/-- The immediate, or an operand in the memory that it addresses. -/
def placeImm (instr : Instruction) (indirect : Bool) : VmM Place :=
  if indirect then do
    let off ← mem (instr.ii.setWidth 32)
    return .ram off instr.ii
  else return .imm

/-- `rA` of a one-operand instruction. -/
def placeOnly (instr : Instruction) : VmM Place :=
  if instr.rmd = .reg then placeReg instr.ra instr.iam 0 else placeImm instr instr.iam

/-- `rB` of a two-operand instruction. -/
def placeB (instr : Instruction) : VmM Place :=
  if instr.rmd = .reg then placeReg instr.rb instr.ibm (if instr.iea then instr.ii else 0) else placeImm instr instr.ibm

/-- `rA` and `rB` of `VM_execute`. -/
def operands (instr : Instruction) : VmM (Place × Place) :=
  match instr.osz with
  | 0 => stop .unreachable
  | 1 => return (.null, .null)
  | 2 => do return (← placeOnly instr, .null)
  | 3 => do
    let rA ← placeReg instr.ra instr.iam 0
    let rB ← placeB instr
    return (rA, rB)

/-! ### Operations

The parameters are `rA` and `rB` with the modes `TA` and `TB` of the macros in `VM_execute`. -/

section Operations
variable (instr : Instruction) (rA rB : Place) (ta tb : Mode)

/-- `BINARY_OPS`, save those that may leave out an operand -/
def binary (f : U64 → U64 → Except Stop U64) : VmM Unit := do
  let a ← read instr rA ta
  let b ← read instr rB tb
  match f a b with
  | .ok v => write rA v ta
  | .error e => stop e

/-- The result of `&&` or `||`, for which `short` is the value of the first operand that leaves out the
    second. -/
def shortCircuit (short : Bool) : VmM Unit := do
  let a ← read instr rA ta
  if (a != 0) = short then write rA (if short then 1 else 0) ta
  else
    let b ← read instr rB tb
    write rA (if b != 0 then 1 else 0) ta

/-- `>>` and `<<` by an amount that is a number of bits -/
def shift (f : U64 → Nat → U64) (a b : U64) : Except Stop U64 := if b.toNat < 64 then .ok (f a b.toNat) else .error .shift

/-- `/` of two `i64` -/
def divide (a b : U64) : Except Stop U64 :=
  if b = 0 ∨ a = BitVec.intMin 64 ∧ b = -1 then .error .division else .ok (a.sdiv b)

/-- `ApplyNot`, `ApplyBNot`, `ApplyInc` and `ApplyDec` -/
def unary (f : U64 → U64) : VmM Unit := do write rA (f (← read instr rA tb)) ta

/-- `ApplyRmem` -/
def rmem : VmM Unit := do
  let b ← read instr rB tb
  let off ← mem (b.setWidth 32)
  write rA ((← get).ram.base + off) ta

/-- `ApplyAlloca` -/
def alloca : VmM Unit := do
  let count : U32 := ((← read instr rB tb).sshiftRight (3 - ta.toNat)).setWidth 32
  print (.count ta count)
  write rA ((← getReg .sp) - 8) .quad
  let _ ← pushn none (count.setWidth 8)

/-- `ApplyJmp`, and the other jumps when they are taken -/
def jump (iip : U64) : VmM Unit := do setReg .ip (iip + (← read instr rA tb))

/-- `ApplyJmpz`, `ApplyJmpnz`, `ApplyJmpg` and `ApplyJmps`: a jump that depends on a flag -/
def jumpIf (iip flag : U64) (set : Bool) : VmM Unit := do
  let flg ← getReg .flg
  if (flg &&& flag != 0) = set then jump instr rA tb iip else pure ()

/-- `ApplyCmp` -/
def cmp : VmM Unit := do
  let a ← read instr rA ta
  let b ← read instr rB tb
  setReg .flg (if a = b then flgZero else if a.slt b then flgLess else flgGreater)

/-- `ApplyCall` -/
def call (iip : U64) : VmM Unit := do
  push (getReg .ip)
  push (getReg .bp)
  setReg .bp (← getReg .sp)
  jump instr rA tb iip

/-- `if (nargs) VM_popn(vm, NULL, nargs);` -/
def dropArgs (nargs : U32) : VmM Unit := if nargs ≠ 0 then do let _ ← popn (nargs.setWidth 8) else pure ()

/-- `if (nret) VM_pushn(vm, ret, nret);` -/
def pushResults (data : Option Data) (nret : U32) : VmM Unit :=
  if nret ≠ 0 then do let _ ← pushn data (nret.setWidth 8) else pure ()

/-- What `ApplyRet` and `VM_returnx` do after the results are set aside: the frame and the arguments are
    dropped, and the results and their number are pushed. -/
def leave (data : Option Data) (count : U32) : VmM Unit := do
  setReg .sp (← getReg .bp)
  setReg .bp (← pop)
  setReg .ip (← pop)
  dropArgs ((← pop).setWidth 32)
  pushResults data count
  push (pure (count.setWidth 64))

/-- `Value *ret = NULL; if (nret) ret = VM_popn(vm, NULL, nret);` -/
def popResults (nret : U32) : VmM (Option Data) :=
  if nret ≠ 0 then do return some (.ram (← popn (nret.setWidth 8))) else pure none

/-- `ApplyRet` -/
def ret : VmM Unit := do
  let nret : U32 := (← read instr rA tb).setWidth 32
  let data ← popResults nret
  leave data nret

/-- `argv` of `ApplyNcall`, for a number of arguments. -/
def nativeArgs (n : U64) : VmM (Option U64) :=
  if n = 0 then pure none else do return some (← mem (((← getReg .sp) + n <<< 3).setWidth 32))

/-- `ApplyNcall` -/
def ncall (host : Host) : VmM Unit := do
  let id ← read instr rA tb
  let nargs ← mem ((← getReg .sp).setWidth 32)
  let argv ← nativeArgs (← loadWord nargs)
  push (getReg .ip)
  push (getReg .bp)
  setReg .bp (← getReg .sp)
  let count ← loadWord nargs
  lift (host.native id argv (count.setWidth 32))

/-- `VM_put_utf8_chr_` -/
def putUtf8Chr (chr : U32) : VmM Unit :=
  let n := chr.toNat
  let low (k : Nat) : U8 := BitVec.ofNat 8 (0x80 ||| (n >>> k &&& 0x3F))
  if n < 0x80 then print (.bytes [BitVec.ofNat 8 n])
  else if n < 0x800 then print (.bytes [BitVec.ofNat 8 (0xC0 ||| n >>> 6), low 0])
  else if n < 0x10000 then print (.bytes [BitVec.ofNat 8 (0xE0 ||| n >>> 12), low 6, low 0])
  else if n < 0x200000 then print (.bytes [BitVec.ofNat 8 (0xF0 ||| n >>> 18), low 12, low 6, low 0])
  else abort "invalid UCS character: \\U%08x" [n]

/-- `fputs(rA)` of `ApplyPuts` -/
def putString : VmM Unit := do
  match rA with
  | .ram off _ =>
    let ram := (← get).ram
    let s := ram.string off.toNat
    emit ⟨rA, s.length + 1⟩
    stopIf (ram.size.toNat < off.toNat + (s.length + 1)) .wild
    print (.bytes s)
  | _ =>
    emit ⟨rA, 1⟩
    stop .wild

/-- `ApplyPuts` -/
def puts : VmM Unit := do
  if instr.iam then putString rA
  else print (.pointer (← read instr rA tb))

/-- `VM_alloc` -/
def alloc (size : U32) : VmM U32 := do
  let (a, heap) ← ofOption .heap ((← get).heap.alloc size)
  modify fun vm => { vm with heap := heap }
  return a

/-- `VM_free` -/
def dealloc (addr : U32) : VmM Unit := do
  let (_, heap) ← ofOption .heap ((← get).heap.dealloc addr)
  modify fun vm => { vm with heap := heap }

/-- `ApplyAlloc` -/
def applyAlloc : VmM Unit := do
  let a ← alloc ((← read instr rB tb).setWidth 32)
  write rA (a.setWidth 64) ta

end Operations

/-- The switch over the op codes in `VM_execute`. -/
def apply (host : Host) (instr : Instruction) (iip : U64) (rA rB : Place) : VmM Unit :=
  let ta := instr.imd
  let tb := instr.modeB
  match instr.op with
  | some .halt => modify fun vm => { vm with flags := eflHalt }
  | some .dbg => return ()
  | some .ret => ret instr rA tb
  | some .jmp => jump instr rA tb iip
  | some .jmpz => jumpIf instr rA tb iip flgZero true
  | some .jmpnz => jumpIf instr rA tb iip flgZero false
  | some .jmpg => jumpIf instr rA tb iip flgGreater true
  | some .jmps => jumpIf instr rA tb iip flgLess true
  | some .not => unary instr rA ta tb fun a => if a = 0 then 1 else 0
  | some .bnot => unary instr rA ta tb (~~~·)
  | some .inc => unary instr rA ta tb (· + 1)
  | some .dec => unary instr rA ta tb (· - 1)
  | some .call => call instr rA tb iip
  | some .push => push (read instr rA tb)
  | some .pop => do write rA (← pop) tb
  | some .popn => do let _ ← popn ((← read instr rA tb).setWidth 8)
  | some .puti => do print (.number (← read instr rA tb).toInt)
  | some .puts => puts instr rA tb
  | some .putc => do putUtf8Chr ((← read instr rA tb).setWidth 32)
  | some .dlloc => do dealloc ((← read instr rA tb).setWidth 32)
  | some .ncall => ncall instr rA tb host
  | some .alloca => alloca instr rA rB ta tb
  | some .rmem => rmem instr rA rB ta tb
  | some .mov => do write rA (← read instr rB tb) ta
  | some .add => binary instr rA rB ta tb fun a b => .ok (a + b)
  | some .sub => binary instr rA rB ta tb fun a b => .ok (a - b)
  | some .and => shortCircuit instr rA rB ta tb false
  | some .or => shortCircuit instr rA rB ta tb true
  | some .sar => binary instr rA rB ta tb (shift BitVec.sshiftRight)
  | some .sal => binary instr rA rB ta tb (shift fun a n => a <<< n)
  | some .xor => binary instr rA rB ta tb fun a b => .ok (a ^^^ b)
  | some .bor => binary instr rA rB ta tb fun a b => .ok (a ||| b)
  | some .band => binary instr rA rB ta tb fun a b => .ok (a &&& b)
  | some .mul => binary instr rA rB ta tb fun a b => .ok (a * b)
  | some .div => binary instr rA rB ta tb divide
  | some .cmp => cmp instr rA rB ta tb
  | some .alloc => applyAlloc instr rA rB ta tb
  | some .mcpy | some .mod | none =>
    abort "Unknown instruction \x7b%0x|%0x|%0x -> %04x\x7d"
      [instr.opc, instr.imd.toNat, instr.ims.toNat,
        2 * instr.opc + if instr.osz ≠ 1 ∧ instr.rmd = .reg then 1 else 0]

/-- `VM_execute` -/
def execute (host : Host) (instr : Instruction) (iip : U64) : VmM Unit := do
  let (rA, rB) ← operands instr
  apply host instr iip rA rB

/-- `VM_returnx` -/
def returnx (vals : Data) (count : U32) : VmM Unit := leave (some vals) count

end VmM

end Cyntatic
