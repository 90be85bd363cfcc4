import Cyntatic.Compiler.Token
import Cyntatic.Library.Blocks

/-! # Exceptions (`e4c.c`, `e4c.h`)

`setjmp` and `longjmp` are modelled by the number of the `setjmp` call that a `jmp_buf` comes from. C strings are the
lists of their bytes before the `NUL`. -/

namespace Cyntatic
open Library

/-- `E4C_MAX_FRAMES` -/
def maxFrames : Int := 16

/-- `E4C_MESSAGE_SIZE` -/
def messageSize : Nat := 128

/-- The types of exceptions (`struct e4c_exception_type`). A root is its own supertype, and the supertypes of a type
    come to an end. -/
structure ExceptionTypes (T : Type) where
  name : T → List U8
  defaultMessage : T → List U8
  supertype : T → Option T
  rank : T → Nat
  rank_lt : ∀ {child parent : T}, supertype child = some parent → parent ≠ child → rank parent < rank child
  runtimeException : T
  nullPointerException : T

/-- `struct e4c_exception` -/
structure E4cException (T : Type) where
  message : List U8 := []
  file : Option (List U8) := none
  line : Nat := 0
  type : Option T := none
  deriving DecidableEq

/-- The arguments of `e4c_throw`. -/
structure ThrowArgs (T : Type) where
  type : Option T
  file : Option (List U8) := none
  line : Nat := 0
  message : Option (List U8)

/-- `enum e4c_stage` -/
def e4cBeginning : U8 := 0
def e4cTrying : U8 := 1
def e4cCatching : U8 := 2
def e4cFinalizing : U8 := 3
def e4cDone : U8 := 4

/-- An element of `frame`. -/
structure E4cFrame where
  stage : U8 := 0
  uncaught : Bool := false
  deriving DecidableEq

/-- `struct e4c_context`; `setjmps` is the number of calls of `setjmp` so far. -/
structure E4cContext (T : Type) where
  jump : Int → Nat := fun _ => 0
  err : E4cException T := {}
  frame : Int → E4cFrame := fun _ => {}
  frames : Int := 0
  setjmps : Nat := 0

/-- Where control goes after some code. -/
inductive Flow (T σ : Type) where
  | ends (e4c : E4cContext T) (s : σ)
  /-- `longjmp` to a call of `setjmp`. -/
  | jumps (target : Nat) (e4c : E4cContext T) (s : σ)
  /-- `exit(EXIT_FAILURE)`, with what was written to `stderr`. -/
  | exits (text : List U8) (e4c : E4cContext T) (s : σ)
  | aborts (e4c : E4cContext T) (s : σ)
  /-- An access outside an array or to `NULL`, or a `try` that goes on after its last stage. -/
  | wild

namespace E4cContext
variable {T σ : Type} (e4c : E4cContext T)

/-- The frame at `e4c.frames`. -/
def top : E4cFrame := e4c.frame e4c.frames

/-- `e4c.frame[e4c.frames]` gets other contents. -/
def setTop (f : E4cFrame) : E4cContext T := { e4c with frame := Function.update e4c.frame e4c.frames f }

/-- The index is inside of `frame`. -/
def InFrames : Prop := 0 ≤ e4c.frames ∧ e4c.frames ≤ maxFrames

instance : Decidable e4c.InFrames := inferInstanceAs (Decidable (_ ∧ _))

end E4cContext

namespace ExceptionTypes
variable {T : Type} [DecidableEq T] (types : ExceptionTypes T)

/-- The loop of `e4c_extends`, whose rounds `fuel` bounds. -/
def extendsLoop (parent : T) : (fuel : Nat) → Option T → Bool
  | 0, _ => false
  | _, none => false
  | fuel + 1, some child =>
    if types.supertype child = some child then false
    else if types.supertype child = some parent then true
    else extendsLoop parent fuel (types.supertype child)

/-- `e4c_extends` -/
def e4cExtends (child : Option T) (parent : T) : Bool :=
  types.extendsLoop parent ((child.map types.rank).getD 0 + 1) child

/-- `E4C_IS_INSTANCE_OF` -/
def isInstanceOf (err : E4cException T) (type : T) : Bool := err.type = some type || types.e4cExtends err.type type

/-- The text for an exception that nothing catches (`err_msg`). -/
def uncaughtText (err : E4cException T) (type : T) : List U8 :=
  match err.file with
  | some file =>
    ascii "\n\nUncaught ".toList ++ types.name type ++ ascii ": ".toList ++ err.message ++
      ascii "\n\n    thrown at ".toList ++ file ++ ascii ":".toList ++ ascii (Nat.toDigits 10 err.line) ++
      ascii "\n\n".toList
  | none => ascii "\n\nError: ".toList ++ types.name type ++ ascii " (".toList ++ err.message ++ ascii ")\n\n".toList

/-- What `e4c_throw` stores in `e4c.err`. -/
def raise (x : ThrowArgs T) : E4cException T :=
  let type := x.type.getD types.nullPointerException
  { type := some type
    file := x.file
    line := x.line
    message := (x.message.getD (types.defaultMessage type)).take (messageSize - 1) }

end ExceptionTypes

namespace E4cContext
variable {T σ : Type} (types : ExceptionTypes T) (e4c : E4cContext T)

/-- `e4c_propagate` -/
def propagate (s : σ) : Flow T σ :=
  if e4c.InFrames then
    let e4c := e4c.setTop { e4c.top with uncaught := true }
    if 0 < e4c.frames then .jumps (e4c.jump (e4c.frames - 1)) e4c s
    else
      match e4c.err.type with
      | some type => .exits (types.uncaughtText e4c.err type) e4c s
      | none => .wild
  else .wild

/-- `e4c_throw` -/
def throw (x : ThrowArgs T) (s : σ) : Flow T σ := propagate types { e4c with err := types.raise x } s

/-- The text of the exception for blocks that are nested too deep. -/
def tooManyText : List U8 := ascii "Too many \x60try\x60 blocks nested.".toList

/-- What `e4c_try` throws. -/
def tooMany (file : Option (List U8)) (line : Nat) : ThrowArgs T :=
  ⟨some types.runtimeException, file, line, some tooManyText⟩

/-- `e4c_try`, where it returns. -/
def enter : E4cContext T := { e4c with frames := e4c.frames + 1 }.setTop ⟨e4cBeginning, false⟩

/-- `setjmp(e4c.jump[e4c.frames - 1])`, where it returns 0. -/
def setjmp : E4cContext T :=
  { e4c with jump := Function.update e4c.jump (e4c.frames - 1) e4c.setjmps, setjmps := e4c.setjmps + 1 }

/-- `e4c_hook(1)` -/
def hookCatch : E4cContext T := e4c.setTop { e4c.top with uncaught := false }

/-- The stage after the next `e4c_hook(0)`. -/
def nextStage (f : E4cFrame) : U8 :=
  let stage := f.stage + 1
  if stage = e4cCatching ∧ f.uncaught = false then stage + 1 else stage

/-- `e4c.frames--` -/
def leave : E4cContext T := { e4c with frames := e4c.frames - 1 }

/-- `e4c_hook(0)`: what it returns, or where control goes. -/
def hook (s : σ) : Flow T σ ⊕ Bool × E4cContext T :=
  if e4c.InFrames then
    let uncaught := e4c.top.uncaught
    let e4c := e4c.setTop { e4c.top with stage := nextStage e4c.top }
    if e4c.top.stage < e4cDone then .inr (true, e4c)
    else if uncaught then .inl (e4c.leave.propagate types s)
    else .inr (false, e4c.leave)
  else .inl .wild

/-- `while(e4c_hook(0))` after the `setjmp` with number `id`, which a `longjmp` goes back to. -/
def tryLoop (id : Nat) (round : E4cContext T → σ → Flow T σ) : (fuel : Nat) → E4cContext T → σ → Flow T σ
  | 0, _, _ => .wild
  | fuel + 1, e4c, s =>
    match e4c.hook types s with
    | .inl flow => flow
    | .inr (false, e4c) => .ends e4c s
    | .inr (true, e4c) =>
      match round e4c s with
      | .ends e4c s => tryLoop id round fuel e4c s
      | .jumps target e4c s => if target = id then tryLoop id round fuel e4c s else .jumps target e4c s
      | flow => flow

end E4cContext

namespace E4cContext
variable {T σ : Type} [DecidableEq T] (types : ExceptionTypes T)

mutual

/-- Code with the macros. `attempt` is `E4C_TRY`, with what it throws where blocks are nested too deep. Every round of
    its loop has a stage of its own, and there are four. -/
def exec : TryCode T (ThrowArgs T) σ → E4cContext T → σ → Flow T σ
  | .act f, e4c, s =>
    match f s with
    | .done s => .ends e4c s
    | .throws x s => e4c.throw types x s
    | .aborts s => .aborts e4c s
  | .seq a b, e4c, s =>
    match exec a e4c s with
    | .ends e4c s => exec b e4c s
    | flow => flow
  | .ifElse p a b, e4c, s => if p s then exec a e4c s else exec b e4c s
  | .attempt deep body clauses, e4c, s =>
    if maxFrames ≤ e4c.frames then e4c.throw types deep s
    else
      tryLoop types e4c.setjmps
        (fun e4c s => if e4c.top.stage = e4cTrying then exec body e4c s else execClauses clauses e4c s) 4
        e4c.enter.setjmp s

/-- `E4C_CATCH` and `E4C_FINALLY` -/
def execClauses : TryClauses T (ThrowArgs T) σ → E4cContext T → σ → Flow T σ
  | .done, e4c, s => .ends e4c s
  | .catchAs type handler rest, e4c, s =>
    if e4c.top.stage = e4cCatching ∧ types.isInstanceOf e4c.err type then exec handler e4c.hookCatch s
    else execClauses rest e4c s
  | .finally block, e4c, s => if e4c.top.stage = e4cFinalizing then exec block e4c s else .ends e4c s

end

end E4cContext

/-! ### The exceptions of the compiler -/

/-- The exceptions that `E4C_DEFINE_EXCEPTION` defines, with that of `itp.c`. -/
inductive ExceptionType where
  | runtimeException
  | nullPointerException
  | itpException
  deriving DecidableEq, Repr

def exceptionTypes : ExceptionTypes ExceptionType where
  name
    | .runtimeException => ascii "RuntimeException".toList
    | .nullPointerException => ascii "NullPointerException".toList
    | .itpException => ascii "ITPException".toList
  defaultMessage
    | .runtimeException => ascii "Runtime exception.".toList
    | .nullPointerException => ascii "Null pointer.".toList
    | .itpException => ascii "Parsing error".toList
  supertype _ := some .runtimeException
  rank
    | .runtimeException => 0
    | _ => 1
  rank_lt {child parent} h hne := by
    obtain rfl := Option.some.inj h
    cases child
    · exact absurd rfl hne
    · decide
    · decide
  runtimeException := .runtimeException
  nullPointerException := .nullPointerException

end Cyntatic
