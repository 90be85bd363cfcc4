import Cyntatic.Compiler.Ident
import Cyntatic.Compiler.Token
import Cyntatic.Vm.Instr

/-! # The mnemonics (`utils.c`)

The mnemonics are in a red-black tree that the first lookup builds. The addresses of its nodes, which the allocator
gives, and of the string literals are arguments, as functions of the op code. -/

namespace Cyntatic
open Library

/-- `strcasecmp`, for as many bytes as there are addresses. -/
def strcasecmp (mem : CharMemory) (s1 s2 : Ptr) : Nat → Int
  | 0 => 0
  | n + 1 =>
    if toLower (mem s1) ≠ toLower (mem s2) then (toLower (mem s1)).toNat - (toLower (mem s2)).toNat
    else if mem s1 = 0 then 0
    else strcasecmp mem (s1 + 1) (s2 + 1) n

/-- `toupper` in the C locale. A number that is neither a byte nor `EOF` is not an argument of `toupper`, and is unchanged
    here. -/
def toupper (c : Int) : Int := if 97 ≤ c ∧ c ≤ 122 then c - 32 else c

/-- `RbTree_strncasecmp`, with the function that stands for `toupper`. A `char` is signed. -/
def rbTreeStrncasecmp (upper : Int → Int) (mem : CharMemory) (s1 : Ptr) : Nat → Ptr → Int
  | 0, s2 => if mem s2 = 0 then 0 else -1
  | len + 1, s2 =>
    if mem s2 = 0 then 1
    else
      let c1 := upper (mem s1).toInt
      let c2 := upper (mem s2).toInt
      if c1 ≠ c2 then c1 - c2 else rbTreeStrncasecmp upper mem (s1 + 1) len (s2 + 1)

/-- `RbTree_case_cmp_string` -/
def rbTreeCaseCmpString (upper : Int → Int) (mem : CharMemory) (s1 : Ptr) (len : BitVec 32) (s2 : Ptr) : Int :=
  if len = 0 then strcasecmp mem s1 s2 (2 ^ 64) else rbTreeStrncasecmp upper mem s1 len.toNat s2

/-- `OpCodeInfo`: an op code, or `opcCOUNT`, and the number of its arguments. -/
structure OpCodeInfo where
  f : Option OpCode
  s : Nat
  deriving DecidableEq, Repr

/-- `VmOpCodeNamePair` -/
structure VmOpCodeNamePair where
  f : Ptr
  s : OpCodeInfo

/-- `VmOpCodeNamePairList_cmp` -/
def VmOpCodeNamePair.cmp (mem : CharMemory) (aa : VmOpCodeNamePair) (len : BitVec 32) (bb : VmOpCodeNamePair) : Int :=
  rbTreeCaseCmpString toupper mem aa.f len bb.f

/-- `sVmOpCodeNamePairList` and `sVmOpCodeNamePairListInitialized`. -/
structure OpCodeNames where
  list : RbTreeBase VmOpCodeNamePair
  initialized : Bool

namespace OpCodeNames

/-- The pair of an entry of `VM_OP_CODES`. -/
def pairOf (name : OpCode → Ptr) (entry : OpCode × List Char × Nat) : VmOpCodeNamePair :=
  ⟨name entry.1, ⟨some entry.1, entry.2.2⟩⟩

/-- `RbTree_add` for each of some entries. -/
def addPairs (node name : OpCode → Ptr) (fuel : Nat) :
    List (OpCode × List Char × Nat) → RbTreeBase VmOpCodeNamePair → Option (RbTreeBase VmOpCodeNamePair)
  | [], list => some list
  | entry :: entries, list => do
    let (list, p) ← list.add (node entry.1) (pairOf name entry) 0 fuel
    addPairs node name fuel entries (list.setData p (pairOf name entry))

/-- `VM_initCodeNamePairs` -/
def initCodeNamePairs (s : OpCodeNames) (mem : CharMemory) (node name : OpCode → Ptr) (fuel : Nat) :
    Option OpCodeNames :=
  if s.initialized = false then do
    let list ← addPairs node name fuel OpCode.table { s.list with root := 0, compare := VmOpCodeNamePair.cmp mem }
    return { list, initialized := true }
  else some s

/-- `VM_get_opcode_for_instr_`. The rest of the pair that is looked for is zero, which is `opcHalt`. -/
def getOpcodeForInstr (s : OpCodeNames) (mem : CharMemory) (node name : OpCode → Ptr) (instr : Ptr) (len : BitVec 32)
    (fuel : Nat) : Option (OpCodeNames × OpCodeInfo) := do
  let s ← s.initCodeNamePairs mem node name fuel
  let it ← { s.list with compare := VmOpCodeNamePair.cmp mem }.find ⟨instr, ⟨some .halt, 0⟩⟩ len fuel
  if it = 0 then return (s, ⟨none, 0⟩)
  else return (s, (s.list.data it).s)

end OpCodeNames

end Cyntatic
