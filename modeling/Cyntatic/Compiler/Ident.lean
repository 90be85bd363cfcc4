import Cyntatic.Util.Tree
import Cyntatic.Compiler.Token

/-! # Identifiers (`ident.c`)

The cache of identifiers is a red-black tree of C strings. The bytes of the strings are in a memory of their own; the
addresses that the arena gives for nodes and for names are arguments, and the cache keeps what it has given. A generated
identifier is a prefix with the number of those before it. -/

namespace Cyntatic
open Library

/-- The bytes of memory. -/
abbrev CharMemory := Ptr → BitVec 8

/-- `strcmp`, for as many bytes as there are addresses. -/
def strcmp (mem : CharMemory) (s1 s2 : Ptr) : Nat → Int
  | 0 => 0
  | n + 1 =>
    if mem s1 ≠ mem s2 then (mem s1).toNat - (mem s2).toNat
    else if mem s1 = 0 then 0
    else strcmp mem (s1 + 1) (s2 + 1) n

/-- `RbTree_strncmp`. A `char` is signed. -/
def rbTreeStrncmp (mem : CharMemory) (s1 : Ptr) : Nat → Ptr → Int
  | 0, s2 => if mem s2 = 0 then 0 else -1
  | len + 1, s2 =>
    if mem s2 = 0 then 1
    else if mem s1 ≠ mem s2 then (mem s1).toInt - (mem s2).toInt
    else rbTreeStrncmp mem (s1 + 1) len (s2 + 1)

/-- `RbTree_cmp_string` -/
def rbTreeCmpString (mem : CharMemory) (s1 : Ptr) (len : BitVec 32) (s2 : Ptr) : Int :=
  if len = 0 then strcmp mem s1 s2 (2 ^ 64) else rbTreeStrncmp mem s1 len.toNat s2

/-- `strncpy`: up to the end of the string, and then zeros. -/
def strncpy (mem : CharMemory) (dst src : Ptr) : Nat → CharMemory
  | 0 => mem
  | n + 1 => strncpy (Function.update mem dst (mem src)) (dst + 1) (if mem src = 0 then src else src + 1) n

/-- `strlen`, for as many bytes as there are addresses. -/
def strlen (mem : CharMemory) (s : Ptr) : Nat → Nat
  | 0 => 0
  | n + 1 => if mem s = 0 then 0 else strlen mem (s + 1) n + 1

/-- Bytes are stored from an address on. -/
def storeBytes (mem : CharMemory) (p : Ptr) : List (BitVec 8) → CharMemory
  | [] => mem
  | b :: bs => storeBytes (Function.update mem p b) (p + 1) bs

/-- Some addresses in a row. -/
def addresses (p : Ptr) : Nat → List Ptr
  | 0 => []
  | n + 1 => p :: addresses (p + 1) n

structure IdentCache where
  rbt : RbTreeBase Ptr
  mem : CharMemory
  nodes : List Ptr
  names : List Ptr

namespace IdentCache

/-- `Allocator_strndup`, with the address that the arena gives. -/
def strndup (s : IdentCache) (name str : Ptr) (size : BitVec 32) : Option IdentCache :=
  if size + 1 = 0 ∨ name = 0 then none
  else
    let mem := strncpy s.mem name str size.toNat
    some { s with
      mem := Function.update mem (name + size.setWidth 64) 0
      names := addresses name (size.toNat + 1) ++ s.names }

/-- `RbTree_add` of a string that the program has: the node gets its address. -/
def add (s : IdentCache) (node str : Ptr) (fuel : Nat) : Option IdentCache := do
  let (rbt, p) ← { s.rbt with compare := rbTreeCmpString s.mem }.add node str 0 fuel
  return { s with rbt := rbt.setData p str, nodes := node :: s.nodes }

/-- `IdentCache_init`, with the addresses of the nodes and of the strings. -/
def init (s : IdentCache) (nodeI nodeJ nodeK i j k : Ptr) (fuel : Nat) : Option IdentCache := do
  let s := { s with rbt := { s.rbt with root := 0 }, nodes := [], names := addresses i 2 ++ addresses j 2 ++ addresses k 2 }
  let s ← s.add nodeI i fuel
  let s ← s.add nodeJ j fuel
  s.add nodeK k fuel

/-- `Ident_foa`; the result is the name of the identifier. -/
def foa (s : IdentCache) (node name str : Ptr) (size : BitVec 32) (fuel : Nat) : Option (IdentCache × Ptr) := do
  let (rbt, added, p) ← { s.rbt with compare := rbTreeCmpString s.mem }.findOrAdd node str size fuel
  if added then
    let s ← { s with rbt, nodes := node :: s.nodes }.strndup name str size
    let s := { s with rbt := s.rbt.setData p name }
    return (s, s.rbt.data p)
  else return ({ s with rbt }, rbt.data p)

end IdentCache

/-- `sIdentCache` and `sVariableCounts`. -/
structure Idents where
  cache : IdentCache
  variableCounts : BitVec 32

namespace Idents

/-- `Ident_genVariable`, with the addresses of `str` and of the prefix. Where the size of `str` wraps, `str` is too
    small. -/
def genVariable (g : Idents) (node name str pfx : Ptr) (fuel : Nat) : Option (Idents × Ptr) := do
  let len := BitVec.ofNat 32 (strlen g.cache.mem pfx (2 ^ 64))
  if 2 ^ 32 ≤ len.toNat + 16 then none
  let digits := ascii (Nat.toDigits 10 g.variableCounts.toNat)
  let mem := strncpy g.cache.mem str pfx len.toNat
  let mem := storeBytes mem (str + len.setWidth 64) (digits ++ [0])
  let (cache, p) ← { g.cache with mem }.foa node name str (len + BitVec.ofNat 32 digits.length) fuel
  return ({ cache, variableCounts := g.variableCounts + 1 }, p)

/-- `Ident_genLabel`, with the address of the string `L`. -/
def genLabel (g : Idents) (node name str l : Ptr) (fuel : Nat) : Option (Idents × Ptr) := g.genVariable node name str l fuel

end Idents

end Cyntatic
