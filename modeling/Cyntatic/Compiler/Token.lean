import Cyntatic.Vm.Instr

/-! The tokens of the assembler's source, and the token parser that walks over them (`token.h`, `source.h`,
    `log.h` and `itp.c`). The lexer is its list of tokens. -/

namespace Cyntatic

/-- The bytes of a text. -/
def ascii (text : List Char) : List U8 := text.map fun c => BitVec.ofNat 8 c.toNat

/-- `toupper` -/
def toUpper (c : U8) : U8 := if 97 ≤ c ∧ c ≤ 122 then c - 32 else c

/-- `tolower` -/
def toLower (c : U8) : U8 := if 65 ≤ c ∧ c ≤ 90 then c + 32 else c

/-- `TokenKind` -/
inductive TokenKind where
  | tokEoF | tokNl | tokChar | tokString | tokInteger | tokFloat | tokIdentifier | tokComment | tokAssign
  | tokBitAnd | tokBitAndAssign | tokBitOr | tokBitOrAssign | tokBitXor | tokBitXorAssign | tokColon | tokDColon
  | tokComma | tokComplement | tokCompAssign | tokDiv | tokDot | tokDotDot | tokElipsis | tokDivAssign
  | tokEqual | tokGt | tokGte | tokLt | tokLte | tokLBrace | tokRBrace | tokLBracket | tokRBracket | tokLParen
  | tokRParen | tokLAnd | tokLOr | tokMinus | tokMinusMinus | tokMinisAssign | tokMult | tokExponent
  | tokMultAssign | tokNot | tokNeq | tokPlus | tokPlusPlus | tokPlusAssign | tokMod | tokModAssign
  | tokQuestion | tokSemicolon | tokSal | tokSalAssign | tokSar | tokSarAssign | tokLArrow | tokRArrow | tokAt
  | tokHash | tokBackquote | tokDollar | tokBackSlash | tokAlingof | tokAs | tokAuto | tokBreak | tokCase
  | tokContinue | tokConst | tokElse | tokEnum | tokExtern | tokFalse | tokFor | tokFunc | tokIf | tokImm
  | tokIn | tokInline | tokImport | tokMacro | tokMove | tokMut | tokNew | tokNull | tokReturn | tokSizeof
  | tokStatic | tokStruct | tokSwitch | tokThis | tokTrait | tokTrue | tokUnsafe | tokUnion | tokUsing
  | tokWhile | tokVoid | tokline | tokColumn | tokFileExpr | tokArgExpr | tokOpaque | tokAnd | tokOr
  | tokLStrExpr | tokRStrExpr | tokCOUNT
  deriving DecidableEq, Repr

structure LineColumn where
  line : Nat := 0
  column : Nat := 0
  deriving DecidableEq, Repr

/-- `Range`, with the text that it is a range of. -/
structure Range where
  start : Nat
  stop : Nat
  coord : LineColumn := {}
  source : List U8
  deriving DecidableEq, Repr

/-- `Range_view` -/
def Range.view (range : Range) : List U8 := (range.source.drop range.start).take (range.stop - range.start)

/-- `TokenValue`. A floating point number is stored with the kind of an integer, as its bits. -/
inductive TokenValue where
  | none
  | bool (b : Bool)
  | char (c : U32)
  | int (i : U64)
  | string (s : List U8)
  deriving DecidableEq, Repr

structure Token where
  kind : TokenKind
  value : TokenValue := .none
  range : Range
  deriving DecidableEq, Repr

namespace Token

/-- `Token_getInt`, unless its assertion fails. -/
def getInt? (tok : Token) : Option U64 :=
  match tok.value with
  | .int i => some i
  | _ => none

/-- `Token_getChar`, unless its assertion fails. -/
def getChar? (tok : Token) : Option U32 :=
  match tok.value with
  | .char c => some c
  | _ => none

/-- `Token_getString`, unless its assertion fails. -/
def getString? (tok : Token) : Option (List U8) :=
  match tok.value with
  | .string s => some s
  | _ => none

/-- The text of a token. -/
def text (tok : Token) : List U8 := tok.range.view

end Token

/-- What the text of a diagnostic is filled in with. -/
inductive DiagnosticArg where
  | text (s : List U8)
  | mode (m : Mode)
  | modes (ms : List Mode)
  deriving DecidableEq, Repr

/-- An error in the log. -/
structure Diagnostic where
  range : Range
  fmt : String
  args : List DiagnosticArg := []
  deriving DecidableEq, Repr

/-- `ITokenParser`: `toks` are the tokens from `curr` on, and `stop` is the end of the source, where `Lexer_next`
    leaves the kind of a token at `tokCOUNT`. -/
structure ITokenParser where
  prev : Token
  toks : List Token
  stop : Range
  log : List Diagnostic := []

namespace ITokenParser
variable (itp : ITokenParser)

/-- The token at the end of the source. -/
def last : Token := { kind := .tokCOUNT, range := itp.stop }

/-- `ITP_curr` -/
def curr : Token := itp.toks.headD itp.last

/-- `ITP_peek` -/
def peek : Token := if itp.curr.kind = .tokEoF then itp.curr else itp.toks.tail.headD itp.last

/-- `ITP_eof` -/
def eof : Bool := itp.curr.kind = .tokEoF ∨ itp.curr.kind = .tokCOUNT

/-- `ITP_check` -/
def check (kinds : List TokenKind) : Bool := !itp.eof && kinds.contains itp.curr.kind

/-- `ITokenParser_advance`: the token that it moves past, or the end of the source, and the parser after it. -/
def advance : Token × ITokenParser :=
  if itp.curr.kind = .tokEoF then (itp.curr, itp) else (itp.curr, { itp with prev := itp.curr, toks := itp.toks.tail })

end ITokenParser

end Cyntatic
