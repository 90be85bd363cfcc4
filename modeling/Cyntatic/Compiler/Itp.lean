import Cyntatic.Compiler.Lexer

/-! The token parser on the lexer itself (`itp.c`), with the token that it looks ahead. -/

namespace Cyntatic
open Library

/-- `ITokenParser`. Its lexer is the state of the computations. -/
structure Itp where
  curr : Token
  peek : Token
  prev : Token
  deriving DecidableEq

/-- `ITP_eof`, of the token that is current. -/
def Token.isEof (tok : Token) : Bool := tok.kind = .tokEoF ∨ tok.kind = .tokCOUNT

namespace ITP
open Prog LexM

variable (strtod : Strtod) (fuel : Nat)

/-- `ITokenParser_init`. A token of zeros has the kind `tokEoF`. -/
def init : LexM Itp := do
  let zero : Token := { kind := .tokEoF, range := { start := 0, stop := 0, source := [] } }
  let r ← next strtod fuel
  return { curr := r.2, peek := { zero with kind := .tokCOUNT }, prev := zero }

/-- `ITokenParser_advance`, with the token that it returns the address of. -/
def advance (itp : Itp) : LexM (Token × Itp) :=
  if itp.curr.kind = .tokEoF then return (itp.curr, itp)
  else if itp.peek.kind ≠ .tokCOUNT then
    return (itp.curr, { curr := itp.peek, peek := { itp.peek with kind := .tokCOUNT }, prev := itp.curr })
  else do
    let r ← next strtod fuel
    return (itp.curr, { itp with curr := r.2, prev := itp.curr })

/-- `ITokenParser_peek`, with the token that it returns the address of. -/
def peek (itp : Itp) : LexM (Token × Itp) :=
  if itp.curr.kind = .tokEoF then return (itp.curr, itp)
  else if itp.peek.kind = .tokCOUNT then do
    let r ← next strtod fuel
    return (r.2, { itp with peek := r.2 })
  else return (itp.peek, itp)

/-! ### Runs -/

inductive Op where
  | peek
  | advance
  deriving DecidableEq

def Op.call : Op → Itp → LexM (Token × Itp)
  | .peek => ITP.peek strtod fuel
  | .advance => ITP.advance strtod fuel

/-- A call, with the token that it returns and the parser before and after it. -/
structure Event where
  op : Op
  result : Token
  before : Itp
  after : Itp
  deriving DecidableEq

/-- Some calls, one after the other. -/
def run : List Op → Itp → LexM (List Event)
  | [], _ => return []
  | op :: ops, itp => do
    let r ← op.call strtod fuel itp
    let trace ← run ops r.2
    return ⟨op, r.1, itp, r.2⟩ :: trace

/-- `ITokenParser_init` and some calls: the parser that they begin with, and what they do. -/
def session (ops : List Op) : LexM (Itp × List Event) := do
  let itp ← init strtod fuel
  let trace ← run strtod fuel ops itp
  return (itp, trace)

end ITP

/-- What `Lexer_next` returns, call after call, up to the end of the input. -/
def LexM.tokens (strtod : LexM.Strtod) (fuel : Nat) : Nat → LexM (List Token)
  | 0 => return []
  | n + 1 => do
    let r ← next strtod fuel
    if r.1 = .tokEoF then return []
    else do
      let toks ← tokens strtod fuel n
      return r.2 :: toks

end Cyntatic
