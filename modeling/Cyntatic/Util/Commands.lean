import Cyntatic.Util.Args

/-! # Commands (`args.c`)

A command is given by its index, and `argv` begins after the name of the program. A message goes to `error`, which has
128 characters, by `sprintf`. -/

namespace Cyntatic

/-! ### Messages -/

/-- What is written for a string, which glibc also has for `NULL`. -/
def textOf (s : Option Text) : Text := s.getD (ascii "(null)".toList)

/-- `%.*s`, where a negative precision is none. -/
def precise (size : Nat) (s : Text) : Text := if size % 2 ^ 32 < 2 ^ 31 then s.take (size % 2 ^ 32) else s

/-- The digits of an `int` or a `u32`. -/
def digitsOf (n : Nat) : Text := ascii (Nat.toDigits 10 (n % 2 ^ 32))

/-- `sprintf` -/
def sprintf : List Char → List CmdErrorArg → Text
  | '%' :: 's' :: fmt, .text s :: args => textOf s ++ sprintf fmt args
  | '%' :: 'u' :: fmt, .number n :: args => digitsOf n ++ sprintf fmt args
  | '%' :: 'd' :: fmt, .number n :: args => digitsOf n ++ sprintf fmt args
  | '%' :: '.' :: '*' :: 's' :: fmt, .number n :: .text s :: args => precise n (textOf s) ++ sprintf fmt args
  | c :: fmt, args => chr c :: sprintf fmt args
  | [], _ => []

def CmdError.message (e : CmdError) : Text := sprintf e.fmt.toList e.args

/-! ### Validators -/

/-- The conversions to `double`, which is given by its bits, and its product with an `int`. The first range error ends
    the run, and up to it `errno` stays as it was: `erange` if it was `ERANGE`. -/
structure CmdNumbers where
  strtod : Text → Strto
  ofSigned : U64 → U64
  ofUnsigned : U64 → U64
  mul : U64 → Nat → U64
  erange : Bool

/-- The base of a number where the base is given as 0. -/
def numberBase (s : Text) : Nat :=
  let t : Text := s.dropWhile isSpace
  let t : Text := if t.at 0 = chr '-' ∨ t.at 0 = chr '+' then t.drop 1 else t
  if t.at 0 ≠ chr '0' then 10 else if toUpper (t.at 1) = chr 'X' ∧ isXDigit (t.at 2) then 16 else 8

/-- `strtoll` -/
def strtoll (s : Text) (base : Nat) : Strto :=
  let r := strtoull s base
  if Text.at (s.dropWhile isSpace) 0 = chr '-' then
    if r.erange ∨ 2 ^ 63 < (-r.value).toNat then { r with value := 2 ^ 63, erange := true } else r
  else if r.erange ∨ 2 ^ 63 ≤ r.value.toNat then { r with value := 2 ^ 63 - 1, erange := true }
  else r

/-- `strcasecmp(s1, s2) == 0` -/
def strcasecmpEq (s1 s2 : Text) : Bool := s1.map toLower = s2.map toLower

/-- `cmdParseBoolean` -/
def cmdParseBoolean : CmdValidator := fun str name =>
  let len := BitVec.ofNat 32 str.length
  let error : CmdError :=
    ⟨"error: value '%s' passed to flag '%s' cannot be parsed as a boolean\n", [.text str, .text name]⟩
  if len = 1 then
    if str.at 0 = chr '0' ∨ str.at 0 = chr '1' then .ok (.cmdNumber (if str.at 0 = chr '1' then 1 else 0)) else .error error
  else if len = 4 ∧ strcasecmpEq str (ascii ['t', 'r', 'u', 'e']) then .ok (.cmdNumber 1)
  else if len = 5 ∧ strcasecmpEq str (ascii ['f', 'a', 'l', 's', 'e']) then .ok (.cmdNumber 0)
  else .error error

namespace CmdNumbers
variable (n : CmdNumbers)

/-- `errno == ERANGE || *end != '\0'` -/
def invalid (str : Text) (r : Strto) : Bool := (n.erange ∨ r.erange) ∨ str.at r.stop ≠ 0

/-- `cmdParseDouble` -/
def cmdParseDouble : CmdValidator := fun str name =>
  let r := n.strtod str
  if n.invalid str r then
    .error ⟨"error: value '%s' passed to flag '%s' cannot be parsed as a double\n", [.text str, .text name]⟩
  else .ok (.cmdDouble r.value)

/-- `cmdParseInteger` -/
def cmdParseInteger : CmdValidator := fun str name =>
  let r := strtoll str (numberBase str)
  if n.invalid str r then
    .error ⟨"error: value '%s' passed to flag '%s' cannot be parsed as a number\n", [.text str, .text name]⟩
  else .ok (.cmdDouble (n.ofSigned r.value))

/-- A number with a unit, if there is one with this character. -/
def withUnit (num : U64) (c : U8) : Option U64 :=
  if c = chr 'g' ∨ c = chr 'G' then some (n.mul num (1024 * 1024 * 1024))
  else if c = chr 'm' ∨ c = chr 'M' then some (n.mul num (1024 * 1024))
  else if c = chr 'k' ∨ c = chr 'K' then some (n.mul num 1024)
  else if c = chr 'b' ∨ c = chr 'B' ∨ c = 0 then some num
  else none

def unitError (unit : Text) : CmdError :=
  ⟨"'%s' is not a supported data size unit (use g,G for gigabytes, m,M for megabytes, k,K for kilobytes or b, B for bytes)",
    [.text unit]⟩

/-- `cmdParseByteSize` -/
def cmdParseByteSize : CmdValidator := fun str name =>
  let r := strtoull str (numberBase str)
  let unit : Text := str.drop r.stop
  if n.erange ∨ r.erange then
    .error ⟨"error: value '%s' passed to flag '%s' cannot be parsed as a number\n", [.text str, .text name]⟩
  else if unit.at 0 ≠ 0 ∧ unit.at 1 ≠ 0 then .error (unitError unit)
  else
    match n.withUnit (n.ofUnsigned r.value) (unit.at 0) with
    | none => .error (unitError unit)
    | some num => .ok (.cmdDouble num)

end CmdNumbers

/-! ### Commands -/

structure CmdCommand where
  name : Option Text
  id : Int
  args : List CmdFlag
  pos : List CmdPositional

/-- `CmdParser` -/
structure CmdParser where
  name : Option Text
  version : Option Text
  default : Option Nat
  cmds : List CmdCommand
  args : List CmdFlag

/-- What `parseCommandLineArguments_` ends with. -/
inductive CmdResult where
  /-- Of the table, which has a name twice or none where one is read. -/
  | abort
  /-- -1, and a message in `error`. -/
  | error (e : CmdError)
  /-- The version is printed, and the program exits. -/
  | version (name version : Option Text)
  /-- The usage of a command or of the program is printed, and the program exits. -/
  | usage (cmd : Option Text)
  | command (id : Int) (s : CmdState) (argv : List Text)

/-- Two flags have the same name or the same short format. -/
def CmdFlag.clashes (a b : CmdFlag) : Bool := a.name = b.name ∨ a.sf ≠ 0 ∧ a.sf = b.sf

/-- The checks of the names of some flags. -/
def cmdDistinct (args : List CmdFlag) : Bool :=
  args.all (·.name.isSome) && decide (args.Pairwise fun a b => a.clashes b = false)

def cmdResetFlags (args : List CmdFlag) : List CmdFlag := args.map ({ · with val := .cmdNoValue })

/-- `vmInitializeCommand` -/
def vmInitializeCommand (gArgs : List CmdFlag) (cmd : CmdCommand) : Option CmdCommand :=
  if cmdDistinct cmd.args ∧ (cmd.args.all fun arg => gArgs.all fun g => !arg.clashes g) ∧ cmd.pos.all (·.name.isSome) then
    some { cmd with args := cmdResetFlags cmd.args, pos := cmd.pos.map ({ · with val := .cmdNoValue }) }
  else none

/-- A value after the arguments: it may have to come from a default, unless there is no check of it. -/
def requireValue (val : CmdFlagValue) (validator : Option CmdValidator) (default name : Option Text)
    (optional : CmdFlagValue) (missing : CmdError) : Except CmdError CmdFlagValue :=
  if val ≠ .cmdNoValue then .ok val
  else
    match validator, default with
    | none, _ => .ok optional
    | some validator, some str => if str = [] then .ok val else validator str name
    | some _, none => .error missing

/-- `flag->val` after the arguments. -/
def CmdFlag.require (cmd : Option Text) (flag : CmdFlag) : Except CmdError CmdFlag :=
  (requireValue flag.val flag.validator flag.default flag.name (.cmdNumber 0)
    ⟨"Missing flag '%s' required by command '%s'\n", [.text flag.name, .text cmd]⟩).map fun val => { flag with val }

/-- `pos->val` after the arguments, for the positional with an index. -/
def CmdPositional.require (cmd : Option Text) (pos : CmdPositional) (i : Nat) : Except CmdError CmdPositional :=
  (requireValue pos.val pos.validator pos.default pos.name .cmdNoValue
    ⟨"Missing positional argument %d ('%s') required by command '%s'\n", [.number i, .text pos.name, .text cmd]⟩).map
    fun val => { pos with val }

/-- The loops over the flags and the positionals of a command after its arguments. -/
def CmdState.require (s : CmdState) (cmd : Option Text) : Except CmdError CmdState := do
  let args ← s.args.mapM (·.require cmd)
  let pos ← s.pos.zipIdx.mapM fun p => p.1.require cmd p.2
  return { s with args, pos }

/-- `val && val->num`, where the pointer to a string is no zero. -/
def CmdFlagValue.isSet : CmdFlagValue → Bool
  | .cmdNoValue => false
  | .cmdNumber num => num ≠ 0
  | .cmdDouble bits => bits <<< 1 ≠ 0
  | .cmdString _ => true

namespace CmdParser
variable (P : CmdParser)

/-- The first loops of `parseCommandLineArguments_`. -/
def prepare : Option CmdParser := do
  if cmdDistinct P.args ∧ P.cmds.all (·.name.isSome) ∧ P.cmds.Pairwise (·.name ≠ ·.name) then
    let cmds ← P.cmds.mapM (vmInitializeCommand P.args)
    return { P with cmds, args := cmdResetFlags P.args }
  else none

def cmdFindCommandByName (name : Text) : Option Nat :=
  if name = [] then P.default else P.cmds.findIdx? fun cmd => cmd.name = some name

/-- The command, if it is the one by default, and what is left of `argv`. -/
def chooseCommand : List Text → Option Nat × Bool × List Text
  | [] => (P.default, true, [])
  | arg :: argv =>
    if arg.at 0 = chr '-' then (P.default, true, arg :: argv)
    else
      match P.cmdFindCommandByName arg with
      | some i => (some i, false, argv)
      | none => (P.default, true, arg :: argv)

/-- `cmdHandleBuiltins` -/
def cmdHandleBuiltins (s : CmdState) (cmd : Option Text) (choseDef : Bool) : Option CmdResult :=
  if s.globals[0]?.any (·.val.isSet) then some (.version P.name P.version)
  else if s.globals[1]?.any (·.val.isSet) then some (.usage (if choseDef then none else cmd))
  else none

/-- `parseCommandLineArguments_` after the choice of a command. -/
def runCommand (cmd : CmdCommand) (choseDef : Bool) (argv : List Text) : CmdResult :=
  match cmdParseCommandArguments ⟨P.args, cmd.args, cmd.pos⟩ 0 argv with
  | .error e => .error e
  | .ok (s, argv) =>
    match P.cmdHandleBuiltins s cmd.name choseDef with
    | some res => res
    | none =>
      match s.require cmd.name with
      | .error e => .error e
      | .ok s => .command cmd.id s argv

/-- `parseCommandLineArguments_` -/
def parseCommandLineArguments_ (argv : List Text) : CmdResult :=
  match P.prepare with
  | none => .abort
  | some P =>
    let (i, choseDef, argv) := P.chooseCommand argv
    match i.bind (P.cmds[·]?) with
    | none => .error ⟨"error: missing required command to execute\n", []⟩
    | some cmd => P.runCommand cmd choseDef argv

end CmdParser

end Cyntatic
