import Cyntatic.Library.Bytes

/-! Machine words, registers, op codes and the instruction record of `vm.h`. -/

namespace Cyntatic

abbrev U8 := BitVec 8
abbrev U32 := BitVec 32
/-- A `u64`, and an `i64` in two's complement. -/
abbrev U64 := BitVec 64

/-- Data modes (`VirtualMachineMode`). -/
inductive Mode where
  | byte | short | word | quad
  deriving DecidableEq, Repr

namespace Mode

/-- The entry of `vmSizeTbl` for a mode. -/
def size : Mode → Nat
  | byte => 1
  | short => 2
  | word => 4
  | quad => 8

/-- The value of a mode in the two bits of an instruction. -/
def toNat : Mode → Nat
  | byte => 0
  | short => 1
  | word => 2
  | quad => 3

/-- The mode with a value; other values index `vmSizeTbl` out of bounds. -/
def ofNat? : Nat → Option Mode
  | 0 => some byte
  | 1 => some short
  | 2 => some word
  | 3 => some quad
  | _ => none

/-- A value stored in a two-bit mode field. -/
def ofBits (n : Nat) : Mode :=
  match n % 4 with
  | 0 => byte
  | 1 => short
  | 2 => word
  | _ => quad

/-- `VM_integer_size` -/
def integerSize (imm : BitVec 64) : Mode :=
  if imm ≤ 0x7F then byte
  else if imm ≤ 0x7FFF then short
  else if imm ≤ 0x7FFFFFFF then word
  else quad

theorem size_pos (m : Mode) : 0 < m.size := by cases m <;> decide

theorem size_le (m : Mode) : m.size ≤ 8 := by cases m <;> decide

theorem size_bits (m : Mode) : 8 * m.size ≤ 64 := by cases m <;> decide

theorem toNat_lt (m : Mode) : m.toNat < 4 := by cases m <;> decide

@[simp] theorem ofNat?_toNat (m : Mode) : ofNat? m.toNat = some m := by cases m <;> rfl

@[simp] theorem ofBits_toNat (m : Mode) : ofBits m.toNat = m := by cases m <;> rfl

end Mode

/-- Whether the last argument is a register or an immediate (`VirtualMachineArgMode`). -/
inductive ArgMode where
  | reg | imm
  deriving DecidableEq, Repr

namespace ArgMode

def toNat : ArgMode → Nat
  | reg => 0
  | imm => 1

/-- A value stored in a one-bit field. -/
def ofBits (n : Nat) : ArgMode := if n % 2 = 0 then reg else imm

theorem toNat_lt (a : ArgMode) : a.toNat < 2 := by cases a <;> decide

@[simp] theorem ofBits_toNat (a : ArgMode) : ofBits a.toNat = a := by cases a <;> rfl

end ArgMode

/-- The registers of the virtual machine (`VirtualMachineRegister`). -/
inductive Register where
  | r0 | r1 | r2 | r3 | r4 | r5 | sp | ip | bp | flg
  deriving DecidableEq, Repr

namespace Register

/-- The index of a register in `regs`. -/
def toNat (r : Register) : Nat := r.ctorIdx

/-- The registers in the order of `vmRegisterNameTbl`. -/
def all : List Register := [r0, r1, r2, r3, r4, r5, sp, ip, bp, flg]

/-- The register at an index; from `regCOUNT` on there is none. -/
def ofNat? (n : Nat) : Option Register := all[n]?

/-- `regCOUNT` -/
def count : Nat := 10

theorem toNat_lt (r : Register) : r.toNat < 16 := by cases r <;> decide

theorem toNat_lt_count (r : Register) : r.toNat < count := by cases r <;> decide

@[simp] theorem ofNat?_toNat (r : Register) : ofNat? r.toNat = some r := by cases r <;> rfl

theorem ofNat?_isSome_iff {n : Nat} : (ofNat? n).isSome ↔ n < count := by
  simp [ofNat?, all, count]

end Register

/-- The op codes, in the order of `VM_OP_CODES`. -/
inductive OpCode where
  | halt | dbg
  | ret | jmp | jmpz | jmpnz | jmpg | jmps | not | bnot | inc | dec
  | call | push | pop | popn | puti | puts | putc | mcpy | dlloc | ncall
  | alloca | rmem | mov | add | sub | and | or | sar | sal | xor | bor | band | mul | div | mod | cmp | alloc
  deriving DecidableEq, Repr

namespace OpCode

/-- `VM_OP_CODES`: each op code with its mnemonic and its number of arguments. -/
def table : List (OpCode × List Char × Nat) :=
  [(halt, ['h', 'a', 'l', 't'], 0), (dbg, ['d', 'b', 'g'], 0),
   (ret, ['r', 'e', 't'], 1), (jmp, ['j', 'm', 'p'], 1), (jmpz, ['j', 'm', 'p', 'z'], 1),
   (jmpnz, ['j', 'm', 'p', 'n', 'z'], 1), (jmpg, ['j', 'm', 'p', 'g'], 1), (jmps, ['j', 'm', 'p', 's'], 1),
   (not, ['l', 'n', 'o', 't'], 1), (bnot, ['b', 'n', 'o', 't'], 1), (inc, ['i', 'n', 'c'], 1),
   (dec, ['d', 'e', 'c'], 1),
   (call, ['c', 'a', 'l', 'l'], 1), (push, ['p', 'u', 's', 'h'], 1), (pop, ['p', 'o', 'p'], 1),
   (popn, ['p', 'o', 'p', 'n'], 1), (puti, ['p', 'u', 't', 'i'], 1), (puts, ['p', 'u', 't', 's'], 1),
   (putc, ['p', 'u', 't', 'c'], 1), (mcpy, ['m', 'c', 'p', 'y'], 1), (dlloc, ['d', 'l', 'l', 'o', 'c'], 1),
   (ncall, ['n', 'c', 'a', 'l', 'l'], 1),
   (alloca, ['a', 'l', 'l', 'o', 'c', 'a'], 2), (rmem, ['r', 'm', 'e', 'm'], 2), (mov, ['m', 'o', 'v'], 2),
   (add, ['a', 'd', 'd'], 2), (sub, ['s', 'u', 'b'], 2), (and, ['a', 'n', 'd'], 2), (or, ['o', 'r'], 2),
   (sar, ['s', 'a', 'r'], 2), (sal, ['s', 'a', 'l'], 2), (xor, ['x', 'o', 'r'], 2), (bor, ['b', 'o', 'r'], 2),
   (band, ['b', 'a', 'n', 'd'], 2), (mul, ['m', 'u', 'l'], 2), (div, ['d', 'i', 'v'], 2),
   (mod, ['m', 'o', 'd'], 2), (cmp, ['c', 'm', 'p'], 2), (alloc, ['a', 'l', 'l', 'o', 'c'], 2)]

/-- The value of an op code. -/
def toNat (o : OpCode) : Nat := o.ctorIdx

/-- The op code with a value; from `opcCOUNT` on there is none. -/
def ofNat? (n : Nat) : Option OpCode := table[n]?.map (·.1)

theorem toNat_lt (o : OpCode) : o.toNat < 64 := by cases o <;> decide

@[simp] theorem ofNat?_toNat (o : OpCode) : ofNat? o.toNat = some o := by cases o <;> rfl

end OpCode

/-! ### Instructions -/

-- the widths of the bit fields, for their literals
instance neZero_two_bits : NeZero (4 : Nat) := ⟨nofun⟩
instance neZero_four_bits : NeZero (16 : Nat) := ⟨nofun⟩
instance neZero_six_bits : NeZero (64 : Nat) := ⟨nofun⟩

/-- A virtual machine instruction (`VirtualMachineInstruction`). The defaults are those of a zeroed
    record; `ii` is also read as the unsigned `iu`. -/
structure Instruction where
  osz : Fin 4 := 0
  opc : Fin 64 := 0
  ra : Fin 16 := 0
  iam : Bool := false
  rmd : ArgMode := .reg
  imd : Mode := .byte
  ims : Mode := .byte
  rb : Fin 16 := 0
  ibm : Bool := false
  iea : Bool := false
  ii : U64 := 0
  deriving DecidableEq, Repr

namespace Instruction

/-- The first byte: `osz` in the two low bits, `opc` above. -/
def b1 (ins : Instruction) : U8 := BitVec.ofNat 8 (ins.osz + 4 * ins.opc)

/-- The second byte: `ra`, `iam`, `rmd` and `imd` from the low bits up. -/
def b2 (ins : Instruction) : U8 :=
  BitVec.ofNat 8 (ins.ra + 16 * ins.iam.toNat + 32 * ins.rmd.toNat + 64 * ins.imd.toNat)

/-- The third byte: `ims`, `rb`, `ibm` and `iea` from the low bits up. -/
def b3 (ins : Instruction) : U8 :=
  BitVec.ofNat 8 (ins.ims.toNat + 4 * ins.rb + 64 * ins.ibm.toNat + 128 * ins.iea.toNat)

/-- Storing the first byte sets the fields that share it. -/
def setB1 (ins : Instruction) (b : U8) : Instruction :=
  { ins with
    osz := ⟨b.toNat % 4, Nat.mod_lt _ (by decide)⟩
    opc := ⟨b.toNat / 4 % 64, Nat.mod_lt _ (by decide)⟩ }

/-- Storing the second byte sets the fields that share it. -/
def setB2 (ins : Instruction) (b : U8) : Instruction :=
  { ins with
    ra := ⟨b.toNat % 16, Nat.mod_lt _ (by decide)⟩
    iam := b.toNat / 16 % 2 == 1
    rmd := .ofBits (b.toNat / 32)
    imd := .ofBits (b.toNat / 64) }

/-- Storing the third byte sets the fields that share it. -/
def setB3 (ins : Instruction) (b : U8) : Instruction :=
  { ins with
    ims := .ofBits b.toNat
    rb := ⟨b.toNat / 4 % 16, Nat.mod_lt _ (by decide)⟩
    ibm := b.toNat / 64 % 2 == 1
    iea := b.toNat / 128 % 2 == 1 }

/-- The op code, unless its value is one the machine does not know. -/
def op (ins : Instruction) : Option OpCode := OpCode.ofNat? ins.opc

/-! ### A byte gives back the fields it was made of -/

theorem setB1_b1 (a ins : Instruction) : a.setB1 ins.b1 = { a with osz := ins.osz, opc := ins.opc } := by
  have h1 := ins.osz.isLt
  have h2 := ins.opc.isLt
  have hb : ins.b1.toNat = ins.osz + 4 * ins.opc := by
    rw [b1, BitVec.toNat_ofNat, Nat.mod_eq_of_lt (by omega)]
  have e1 : ins.b1.toNat % 4 = ins.osz := by omega
  have e2 : ins.b1.toNat / 4 % 64 = ins.opc := by omega
  simp only [setB1, e1, e2]

theorem setB2_b2 (a ins : Instruction) :
    a.setB2 ins.b2 = { a with ra := ins.ra, iam := ins.iam, rmd := ins.rmd, imd := ins.imd } := by
  have h1 := ins.ra.isLt
  have h2 := ins.iam.toNat_le
  have h3 := ins.rmd.toNat_lt
  have h4 := ins.imd.toNat_lt
  have hb : ins.b2.toNat = ins.ra + 16 * ins.iam.toNat + 32 * ins.rmd.toNat + 64 * ins.imd.toNat := by
    rw [b2, BitVec.toNat_ofNat, Nat.mod_eq_of_lt (by omega)]
  have e1 : ins.b2.toNat % 16 = ins.ra := by omega
  have e2 : (ins.b2.toNat / 16 % 2 == 1) = ins.iam := by
    rw [show ins.b2.toNat / 16 % 2 = ins.iam.toNat by omega]
    cases ins.iam <;> rfl
  have e3 : ArgMode.ofBits (ins.b2.toNat / 32) = ins.rmd := by
    rw [show ins.b2.toNat / 32 = ins.rmd.toNat + 2 * ins.imd.toNat by omega]
    cases ins.rmd <;> simp [ArgMode.ofBits, ArgMode.toNat]
  have e4 : Mode.ofBits (ins.b2.toNat / 64) = ins.imd := by
    rw [show ins.b2.toNat / 64 = ins.imd.toNat by omega, Mode.ofBits_toNat]
  simp only [setB2, e1, e2, e3, e4]

theorem setB3_b3 (a ins : Instruction) :
    a.setB3 ins.b3 = { a with ims := ins.ims, rb := ins.rb, ibm := ins.ibm, iea := ins.iea } := by
  have h1 := ins.rb.isLt
  have h2 := ins.ibm.toNat_le
  have h3 := ins.iea.toNat_le
  have h4 := ins.ims.toNat_lt
  have hb : ins.b3.toNat = ins.ims.toNat + 4 * ins.rb + 64 * ins.ibm.toNat + 128 * ins.iea.toNat := by
    rw [b3, BitVec.toNat_ofNat, Nat.mod_eq_of_lt (by omega)]
  have e1 : Mode.ofBits ins.b3.toNat = ins.ims := by
    have hm : ins.b3.toNat % 4 = ins.ims.toNat := by omega
    rw [← Mode.ofBits_toNat ins.ims, ← hm]
    simp [Mode.ofBits]
  have e2 : ins.b3.toNat / 4 % 16 = ins.rb := by omega
  have e3 : (ins.b3.toNat / 64 % 2 == 1) = ins.ibm := by
    rw [show ins.b3.toNat / 64 % 2 = ins.ibm.toNat by omega]
    cases ins.ibm <;> rfl
  have e4 : (ins.b3.toNat / 128 % 2 == 1) = ins.iea := by
    rw [show ins.b3.toNat / 128 % 2 = ins.iea.toNat by omega]
    cases ins.iea <;> rfl
  simp only [setB3, e1, e2, e3, e4]

end Instruction

end Cyntatic
