import Cyntatic.Util.Tree

/-! # Types (`type.h`, `type.c`)

The objects of types are in a memory of their own. The static objects are at addresses that the linker gives, and the
addresses of the others, which the allocator gives, are arguments. -/

namespace Cyntatic

/-- `CYN_TYPE_LIST` -/
inductive TypeId where
  | void
  | bool
  | char
  | integer
  | float
  | string
  | pointer
  | array
  | struct
  | func
  deriving DecidableEq, Repr

/-- `Type`. The members of the union are fields side by side; an object has those of its `id`. -/
structure CType where
  id : TypeId
  size : BitVec 32
  align : BitVec 32 := 0
  isSigned : Bool := false
  pointee : Ptr := 0
  elem : Ptr := 0
  len : BitVec 32 := 0
  deriving DecidableEq, Repr

/-- The static objects, by the functions that give their addresses. -/
inductive BaseType where
  | voidType
  | boolType
  | charType
  | i8Type
  | u8Type
  | i16Type
  | u16Type
  | i32Type
  | u32Type
  | i64Type
  | u64Type
  | f32Type
  | f64Type
  deriving DecidableEq, Repr

namespace BaseType

def all : List BaseType :=
  [voidType, boolType, charType, i8Type, u8Type, i16Type, u16Type, i32Type, u32Type, i64Type, u64Type, f32Type, f64Type]

def object : BaseType → CType
  | voidType => { id := .void, size := 0 }
  | boolType => { id := .bool, size := 1 }
  | charType => { id := .char, size := 4 }
  | i8Type => { id := .integer, size := 1, isSigned := true }
  | u8Type => { id := .integer, size := 1, isSigned := false }
  | i16Type => { id := .integer, size := 2, isSigned := true }
  | u16Type => { id := .integer, size := 2, isSigned := false }
  | i32Type => { id := .integer, size := 4, isSigned := true }
  | u32Type => { id := .integer, size := 4, isSigned := false }
  | i64Type => { id := .integer, size := 8, isSigned := true }
  | u64Type => { id := .integer, size := 8, isSigned := false }
  | f32Type => { id := .float, size := 4 }
  | f64Type => { id := .float, size := 8 }

end BaseType

/-- The objects of types, at their addresses. -/
abbrev TypeMemory := Ptr → Option CType

/-- The memory before any type was made. -/
def staticTypes (base : BaseType → Ptr) : TypeMemory :=
  fun p => (BaseType.all.find? fun b => base b = p).map BaseType.object

/-- `Type_pointer` -/
def typePointer (types : TypeMemory) (p target : Ptr) : TypeMemory :=
  Function.update types p (some { id := .pointer, size := 8, align := 8, pointee := target })

/-- `Type_array` -/
def typeArray (types : TypeMemory) (p elem : Ptr) (len : BitVec 32) : Option TypeMemory := do
  let e ← types elem
  return Function.update types p (some { id := .array, size := e.size * len, align := e.align, elem, len })

/-- `Type_is_same` -/
def typeIsSame (types : TypeMemory) (lhs rhs : Ptr) : Nat → Option Bool
  | 0 => none
  | fuel + 1 =>
    if lhs = rhs then some true
    else do
      let l ← types lhs
      let r ← types rhs
      if l.id ≠ r.id then return false
      match l.id with
      | .pointer => typeIsSame types l.pointee r.pointee fuel
      | .array => if l.len = r.len then typeIsSame types l.elem r.elem fuel else return false
      | .struct | .func => return false
      | _ => return true

end Cyntatic
