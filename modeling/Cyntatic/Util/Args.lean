import Mathlib.Data.List.DropRight
import Cyntatic.Compiler.Lexer

/-! # Command line arguments (`args.c`)

A C string is the list of its bytes before the `NUL`, and `argv` is the list of its strings before the `NULL`. A
result is an error where `error` gets a text. -/

namespace Cyntatic

abbrev Text := List U8

/-- `s[i]`, which is `NUL` at the end of the string. -/
def Text.at (s : Text) (i : Nat) : U8 := s.getD i 0

/-- What an error message is filled in with. -/
inductive CmdErrorArg where
  | text (s : Option Text)
  | number (n : Nat)
  deriving DecidableEq, Repr

structure CmdError where
  fmt : String
  args : List CmdErrorArg
  deriving DecidableEq, Repr

/-- `CmdFlagValue`. A number is one that `double` has; where it comes from a conversion, it is given by its bits. -/
inductive CmdFlagValue where
  | cmdNoValue
  | cmdNumber (num : Nat)
  | cmdDouble (bits : U64)
  | cmdString (str : Text)
  deriving DecidableEq, Repr

/-- What a `validator` makes of a string for the flag with a name. -/
abbrev CmdValidator := Text → Option Text → Except CmdError CmdFlagValue

structure CmdFlag where
  name : Option Text
  sf : U8 := 0
  default : Option Text := none
  val : CmdFlagValue := .cmdNoValue
  validator : Option CmdValidator := none

structure CmdPositional where
  name : Option Text
  default : Option Text := none
  val : CmdFlagValue := .cmdNoValue
  validator : Option CmdValidator := none

/-- The flags of the parser (`P->args`), and the flags and positionals of the command. -/
structure CmdState where
  globals : List CmdFlag
  args : List CmdFlag
  pos : List CmdPositional

def cmdIsLongFlag (s : Text) : Bool := s.at 0 = chr '-' ∧ s.at 1 = chr '-' ∧ s.at 2 ≠ 0

def cmdIsShortFlag (s : Text) : Bool := s.at 0 = chr '-' ∧ s.at 1 ≠ chr '-' ∧ s.at 1 ≠ 0

def cmdIsIgnoreArguments (s : Text) : Bool := s.at 0 = chr '-' ∧ s.at 1 = chr '-' ∧ s.at 2 = 0

/-- `strncmp(s1, s2, len) == 0` -/
def strncmpEq (s1 s2 : Text) (len : U32) : Bool := s1.take len.toNat = s2.take len.toNat

def cmdFindByName (args : List CmdFlag) (name : Text) (len : U32) : Option Nat :=
  args.findIdx? fun arg => arg.name.any fun s => strncmpEq s name len

def cmdFindByShortFormat (args : List CmdFlag) (sf : U8) : Option Nat :=
  args.findIdx? fun arg => arg.sf ≠ 0 ∧ arg.sf = sf

/-- `cmdParseString` -/
def cmdParseString : CmdValidator := fun str _ => .ok (.cmdString str)

namespace CmdState
variable (s : CmdState)

/-- The flags of the parser and then those of the command. A flag is given by its index. -/
def flags : List CmdFlag := s.globals ++ s.args

/-- A flag of the parser or else of the command. -/
def findFlag (find : List CmdFlag → Option Nat) : Option Nat :=
  (find s.globals).or ((find s.args).map (s.globals.length + ·))

/-- `flag->val = val` -/
def setFlag (i : Nat) (val : CmdFlagValue) : CmdState :=
  if i < s.globals.length then { s with globals := s.globals.modify i ({ · with val }) }
  else { s with args := s.args.modify (i - s.globals.length) ({ · with val }) }

/-- `pos->val = val` -/
def setPos (i : Nat) (val : CmdFlagValue) : CmdState := { s with pos := s.pos.modify i ({ · with val }) }

/-- The flag that a short argument names, and the value in it. -/
def shortFlag (arg : Text) : Option Nat × Option Text :=
  (s.findFlag (cmdFindByShortFormat · (arg.at 1)), if arg.at 2 ≠ 0 then some (arg.drop 2) else none)

/-- The length of the name before a `=`: from there the loop goes back to a character that is no space, at the latest to
    the dash before the name, and the difference of the two pointers is the length. -/
def nameLength (before : Text) : U32 := BitVec.ofNat 32 (before.rdropWhile isSpace).length - 1

/-- The flag that a long argument names, and the value in it. -/
def longFlag (arg : Text) : Option Nat × Option Text :=
  let arg := arg.drop 2
  match arg.dropWhile (· ≠ chr '=') with
  | [] => (s.findFlag (cmdFindByName · arg (BitVec.ofNat 32 arg.length)), none)
  | _ :: val =>
    (s.findFlag (cmdFindByName · arg (nameLength (arg.takeWhile (· ≠ chr '=')))), some (val.dropWhile isSpace))

/-- The flag that an argument names, and the value in it. -/
def flagOf (arg : Text) : Option (Nat × CmdFlag) × Option Text :=
  let (i, val) := if cmdIsShortFlag arg then s.shortFlag arg else s.longFlag arg
  (i.bind fun i => s.flags[i]?.map fun flag => (i, flag), val)

end CmdState

/-- `pos->val` for an argument. -/
def CmdPositional.parse (pos : CmdPositional) (arg : Text) : Except CmdError CmdFlagValue :=
  match pos.validator with
  | none => .ok (.cmdString arg)
  | some validator => validator arg pos.name

/-- The loop of `cmdParseCommandArguments`, which leaves the rest of `argv`. -/
def cmdParseCommandArguments (s : CmdState) (npos : Nat) : List Text → Except CmdError (CmdState × List Text)
  | [] => .ok (s, [])
  | arg :: argv =>
    if cmdIsIgnoreArguments arg then .ok (s, argv)
    else if cmdIsShortFlag arg ∨ cmdIsLongFlag arg then
      match s.flagOf arg with
      | (none, _) => .error ⟨"error: unrecognized command argument '%s'\n", [.text arg]⟩
      | (some (i, flag), val) =>
        match flag.validator, val, argv with
        | some validator, some val, argv => do
          let v ← validator val flag.name
          cmdParseCommandArguments (s.setFlag i v) npos argv
        | some validator, none, val :: argv => do
          let v ← validator val flag.name
          cmdParseCommandArguments (s.setFlag i v) npos argv
        | some _, none, [] => .error ⟨"error: command flag '%s' expects a value\n", [.text flag.name]⟩
        | none, some _, _ => .error ⟨"error: unexpected value passed to flag '%s'\n", [.text flag.name]⟩
        | none, none, argv => cmdParseCommandArguments (s.setFlag i (.cmdNumber 1)) npos argv
    else
      match s.pos[npos]? with
      | none =>
        .error ⟨"error: unexpected number of positional arguments passed, expecting %u\n", [.number s.pos.length]⟩
      | some pos => do
        let v ← pos.parse arg
        cmdParseCommandArguments (s.setPos npos v) (npos + 1) argv

/-! ### Bit flags -/

structure CmdBitFlagDesc where
  name : Text
  value : U32
  deriving DecidableEq, Repr

/-- `strncasecmp(s1, s2, len) == 0` -/
def strncasecmpEq (s1 s2 : Text) (len : U32) : Bool := (s1.take len.toNat).map toLower = (s2.take len.toNat).map toLower

/-- The search for a word of `size` characters. -/
def cmdFindBitFlag (bitFlags : List CmdBitFlagDesc) (str : Text) (size : U32) : Option CmdBitFlagDesc :=
  bitFlags.find? fun desc => size = BitVec.ofNat 32 desc.name.length ∧ strncasecmpEq str desc.name size

def bitFlagError (size : U32) (str : Text) (name : Option Text) : CmdError :=
  ⟨"'%.*s' is not a supported bit flags for argument '%s'\n", [.number size.toNat, .text str, .text name]⟩

/-- The loop of `cmdParseBitFlags`. -/
def cmdParseBitFlagsFrom (bitFlags : List CmdBitFlagDesc) (name : Option Text) (value : U32) (str : Text) :
    Nat → Option (Except CmdError U32)
  | 0 => none
  | fuel + 1 =>
    let str := str.dropWhile fun c => c = chr '|' ∨ isSpace c
    match str.dropWhile (· ≠ chr '|') with
    | [] =>
      let size := BitVec.ofNat 32 str.length
      match cmdFindBitFlag bitFlags str size with
      | none => some (.error (bitFlagError size str name))
      | some desc => some (.ok (value ||| desc.value))
    | c :: next =>
      let e := ((str.takeWhile (· ≠ chr '|')).rdropWhile isSpace).length - 1
      if e = 0 then cmdParseBitFlagsFrom bitFlags name value str fuel
      else
        let size := BitVec.ofNat 32 (e + 1)
        match cmdFindBitFlag bitFlags str size with
        | none => some (.error (bitFlagError size str name))
        | some desc => cmdParseBitFlagsFrom bitFlags name (value ||| desc.value) (c :: next) fuel

/-- `cmdParseBitFlags` -/
def cmdParseBitFlags (bitFlags : List CmdBitFlagDesc) (str : Text) (name : Option Text) (fuel : Nat) :
    Option (Except CmdError CmdFlagValue) :=
  (cmdParseBitFlagsFrom bitFlags name 0 str fuel).map fun r => r.map fun value => .cmdNumber value.toNat

/-- The table of `vmCmdParseDebugTraceFlags`, with the values of `trcEXEC` and `trcHEAP`. -/
def bitFlagDesc : List CmdBitFlagDesc :=
  [⟨ascii ['D', 'I', 'S', 'A', 'B', 'L', 'E', 'D'], 0⟩, ⟨ascii ['E', 'X', 'E', 'C'], 1⟩,
   ⟨ascii ['H', 'E', 'A', 'P'], 2⟩, ⟨ascii ['A', 'L', 'L'], 1 ||| 2⟩]

/-! ### Help -/

/-- What is written for a help text. -/
inductive HelpOutput where
  /-- `fprintf(fp, "%*c", ident, ' ')` -/
  | indent (ident : U32)
  | newline
  | word (text : Text)
  deriving DecidableEq, Repr

/-- `strchr(text, ' ')`: the size of the first word, with the space after it, and the text behind the space. -/
def nextWord (text : Text) : Nat × Text :=
  match text.dropWhile (· ≠ chr ' ') with
  | [] => (text.length, [])
  | _ :: sp => ((text.takeWhile (· ≠ chr ' ')).length + 1, sp)

mutual

/-- `cmdAddIndented`: what it writes, and its result. -/
def cmdAddIndented (ident col : U32) (text : Text) (added : U32) : Nat → Option (List HelpOutput × Bool)
  | 0 => none
  | fuel + 1 =>
    if col < 20 then some ([], false)
    else if text = [] then some ([], true)
    else
      let out := if added = 0 then [.indent ident] else []
      (cmdAddWords ident col text (if added = -1 then 0 else added) ident fuel).map fun r => (out ++ r.1, r.2)

/-- The loop of `cmdAddIndented`. -/
def cmdAddWords (ident col : U32) (text : Text) (added i : U32) : Nat → Option (List HelpOutput × Bool)
  | 0 => none
  | fuel + 1 =>
    if text = [] then some ([], true)
    else
      let (size, sp) := nextWord text
      let len := BitVec.ofNat 32 size
      if col - added < i + len then
        (cmdAddIndented ident col text 0 fuel).map fun r => (.newline :: r.1, r.2)
      else
        (cmdAddWords ident col sp added (i + len) fuel).map fun r => (.word (text.take len.toNat) :: r.1, r.2)

end

end Cyntatic
