import Cyntatic.Compiler.Token
import Cyntatic.Util.Map
import Cyntatic.Library.Loop

/-! The lexer (`lexer.c`), with the positions and ranges of `source.c`, the keywords of `token.h`, and what it uses of
    `ctype.h` and `stdlib.h`. A source is the list of its bytes; it is shorter than `2 ^ 31`, so that no index wraps. -/

namespace Cyntatic
open Library

/-! ### Characters -/

/-- A character constant. -/
def chr (c : Char) : U8 := BitVec.ofNat 8 c.toNat

/-- `EOF` as a `char`, which is also the byte `0xFF`. -/
def eofChar : U8 := 0xFF

def isSpace (c : U8) : Bool := c = chr ' ' ∨ 0x09 ≤ c ∧ c ≤ 0x0D

def isDigit (c : U8) : Bool := chr '0' ≤ c ∧ c ≤ chr '9'

/-- `isoct` -/
def isOct (c : U8) : Bool := chr '0' ≤ c ∧ c ≤ chr '7'

def isLower (c : U8) : Bool := chr 'a' ≤ c ∧ c ≤ chr 'z'

def isUpper (c : U8) : Bool := chr 'A' ≤ c ∧ c ≤ chr 'Z'

def isAlnum (c : U8) : Bool := isDigit c || isLower c || isUpper c

/-- The value of a hexadecimal digit, by the cases of a `switch`. -/
def hexDigit? (c : U8) : Option U8 :=
  if isDigit c then some (c - chr '0')
  else if chr 'a' ≤ c ∧ c ≤ chr 'f' then some (c - chr 'a' + 10)
  else if chr 'A' ≤ c ∧ c ≤ chr 'F' then some (c - chr 'A' + 10)
  else none

/-- `isxdigit` -/
def isXDigit (c : U8) : Bool := (hexDigit? c).isSome

/-- `isucn` -/
def isUcn (c : U32) : Bool :=
  if 0xD800 ≤ c ∧ c ≤ 0xDFFF then false else 0xA0 ≤ c ∨ c = 0x24 ∨ c = 0x40 ∨ c = 0x60

/-- `Lexer_clz`: the ones that a character starts with. -/
def clz (c : U8) : Nat := ((List.range 8).find? fun i => !c.getLsbD (7 - i)).getD 8

/-- `Lexer_unescapeChar` -/
def unescapeChar (c : U8) : U8 :=
  if c = 0x0A then chr 'n'
  else if c = 0x07 then chr 'a'
  else if c = 0x08 then chr 'b'
  else if c = 0x0C then chr 'f'
  else if c = 0x0D then chr 'r'
  else if c = 0x09 then chr 't'
  else if c = 0x0B then chr 'v'
  else if c = 0x1B then chr 'e'
  else c

/-- What `Stream_putUtf8` writes, unless it is unreachable. -/
def putUtf8 (chr : U32) : Option (List U8) :=
  if chr < 0x80 then some [chr.setWidth 8]
  else if chr < 0x800 then some [(0xC0 ||| chr >>> 6).setWidth 8, (0x80 ||| chr &&& 0x3F).setWidth 8]
  else if chr < 0x10000 then
    some [(0xE0 ||| chr >>> 12).setWidth 8, (0x80 ||| chr >>> 6 &&& 0x3F).setWidth 8, (0x80 ||| chr &&& 0x3F).setWidth 8]
  else if chr < 0x200000 then
    some [(0xF0 ||| chr >>> 18).setWidth 8, (0x80 ||| chr >>> 12 &&& 0x3F).setWidth 8,
      (0x80 ||| chr >>> 6 &&& 0x3F).setWidth 8, (0x80 ||| chr &&& 0x3F).setWidth 8]
  else none

/-! ### Numbers -/

/-- The result of `strtoull` or of `strtod`: the value or its bits, whether `errno` is set to `ERANGE`, and the length
    of what is read. -/
structure Strto where
  value : U64
  erange : Bool
  stop : Nat
  deriving DecidableEq, Repr

/-- The value of a digit, if the base has it. -/
def digit? (base : Nat) (c : U8) : Option Nat :=
  let d := if isDigit c then c.toNat - 48 else if isLower c then c.toNat - 87 else if isUpper c then c.toNat - 55 else base
  if d < base then some d else none

/-- `strtoull` -/
def strtoull (s : List U8) (base : Nat) : Strto :=
  let spaces := (s.takeWhile isSpace).length
  let sign := if s.getD spaces 0 = chr '-' ∨ s.getD spaces 0 = chr '+' then 1 else 0
  let isNeg := s.getD spaces 0 = chr '-'
  let t := s.drop (spaces + sign)
  let skip := if base = 16 ∧ t.getD 0 0 = chr '0' ∧ toUpper (t.getD 1 0) = chr 'X' ∧ isXDigit (t.getD 2 0) then 2 else 0
  let digits := (t.drop skip).takeWhile fun c => (digit? base c).isSome
  let value := digits.foldl (fun n c => n * base + (digit? base c).getD 0) 0
  if digits = [] then ⟨0, false, 0⟩
  else if value < 2 ^ 64 then
    ⟨if isNeg then -BitVec.ofNat 64 value else BitVec.ofNat 64 value, false, spaces + sign + skip + digits.length⟩
  else ⟨BitVec.allOnes 64, true, spaces + sign + skip + digits.length⟩

/-! ### Keywords -/

/-- The keywords of `TOKEN_LIST`. -/
def keywords : List (List Char × TokenKind) :=
  [(['a', 'l', 'i', 'g', 'n', 'o', 'f'], .tokAlingof), (['a', 's'], .tokAs), (['a', 'u', 't', 'o'], .tokAuto),
    (['b', 'r', 'e', 'a', 'k'], .tokBreak), (['c', 'a', 's', 'e'], .tokCase),
    (['c', 'o', 'n', 't', 'i', 'n', 'u', 'e'], .tokContinue), (['c', 'o', 'n', 's', 't'], .tokConst),
    (['e', 'l', 's', 'e'], .tokElse), (['e', 'n', 'u', 'm'], .tokEnum), (['e', 'x', 't', 'e', 'r', 'n'], .tokExtern),
    (['f', 'a', 'l', 's', 'e'], .tokFalse), (['f', 'o', 'r'], .tokFor), (['f', 'u', 'n', 'c'], .tokFunc),
    (['i', 'f'], .tokIf), (['i', 'u'], .tokImm), (['i', 'n'], .tokIn), (['i', 'n', 'l', 'i', 'n', 'e'], .tokInline),
    (['i', 'm', 'p', 'o', 'r', 't'], .tokImport), (['m', 'a', 'c', 'r', 'o'], .tokMacro), (['m', 'o', 'v', 'e'], .tokMove),
    (['m', 'u', 't'], .tokMut), (['n', 'e', 'w'], .tokNew), (['n', 'u', 'l', 'l'], .tokNull),
    (['r', 'e', 't', 'u', 'r', 'n'], .tokReturn), (['s', 'i', 'z', 'e', 'o', 'f'], .tokSizeof),
    (['s', 't', 'a', 't', 'i', 'c'], .tokStatic), (['s', 't', 'r', 'u', 'c', 't'], .tokStruct),
    (['s', 'w', 'i', 't', 'c', 'h'], .tokSwitch), (['t', 'h', 'i', 's'], .tokThis), (['t', 'r', 'a', 'i', 't'], .tokTrait),
    (['t', 'r', 'u', 'e'], .tokTrue), (['u', 'n', 's', 'a', 'f', 'e'], .tokUnsafe), (['u', 'n', 'i', 'o', 'n'], .tokUnion),
    (['u', 's', 'i', 'n', 'g'], .tokUsing), (['w', 'h', 'i', 'l', 'e'], .tokWhile), (['v', 'o', 'i', 'd'], .tokVoid),
    (['l', 'i', 'n', 'e'], .tokline), (['c', 'o', 'l', 'u', 'm', 'n'], .tokColumn), (['f', 'i', 'l', 'e'], .tokFileExpr),
    (['a', 'r', 'g'], .tokArgExpr), (['o', 'p', 'a', 'q', 'u', 'e'], .tokOpaque), (['a', 'n', 'd'], .tokLAnd),
    (['o', 'r'], .tokLOr)]

/-- `Lexer_initKeywordsMap` -/
def initKeywordsMap : Option (MapBase TokenKind 4) :=
  keywords.foldlM (fun m x => m.set (ascii x.1) x.2) {}

/-- `sKeyWordList` -/
def sKeyWordList : MapBase TokenKind 4 := initKeywordsMap.getD {}

/-! ### The state of the lexer -/

/-- The position after a character: `Lexer_updatePos`. -/
def LineColumn.update (pos : LineColumn) (c : U8) : LineColumn :=
  if c = chr '\n' then { line := pos.line + 1, column := 0 } else { pos with column := pos.column + 1 }

/-- `Log` -/
structure Log where
  errors : List Diagnostic := []
  warnings : List Diagnostic := []
  deriving DecidableEq, Repr

/-- `Lexer`: `inStrExpr` is the flag `lxfInStrExpr`, and `erange` is whether `errno` is `ERANGE`. -/
structure Lexer where
  src : List U8
  idx : Nat := 0
  pos : LineColumn := {}
  inStrExpr : Bool := false
  next : Token := { kind := .tokCOUNT, range := { start := 0, stop := 0, source := [] } }
  log : Log
  erange : Bool
  deriving DecidableEq, Repr

namespace Lexer
variable (lX : Lexer)

/-- `Lexer_init`, with the log and what `errno` is. -/
def init (log : Log) (erange : Bool) (src : List U8) : Lexer := { src, log, erange }

/-- `Lexer_peek` -/
def peek (n : Nat) : U8 := lX.src.getD (lX.idx + n) eofChar

/-- `Lexer_advance` -/
def advance (n : Nat) : Lexer :=
  { lX with
    idx := min lX.src.length (lX.idx + n)
    pos := ((lX.src.drop lX.idx).take n).foldl LineColumn.update lX.pos }

/-- A pass of a loop over characters: `Lexer_updatePos` and `++idx`. -/
def step : Lexer := { lX with idx := lX.idx + 1, pos := lX.pos.update (lX.peek 0) }

/-- The range that starts at a place and ends here. -/
def rangeFrom (start : Nat) (coord : LineColumn) : Range := { start, stop := lX.idx, coord, source := lX.src }

end Lexer

/-- Why `Lexer_next` does not return. -/
inductive LexStop where
  /-- `Lexer_abort`, after an error in the log. -/
  | abort
  /-- `csAssert` or `unreachable` -/
  | assertion
  /-- A copy past the end of `conv`, or a string too long for its hash. -/
  | overflow
  /-- More passes than a loop may make. -/
  | fuel
  deriving DecidableEq

/-- Computations of the lexer, which leave no events. -/
abbrev LexM := Prog Empty LexStop Lexer

namespace LexM
open Prog

/-! ### Steps -/

def peek (n : Nat) : LexM U8 := do return (← get).peek n

/-- `Lexer_advance`, with the index before it. -/
def advance (n : Nat) : LexM Nat := do
  let lX ← get
  modify (·.advance n)
  return lX.idx

/-- `Log_error` -/
def error (range : Range) (fmt : String) (args : List DiagnosticArg) : LexM Unit :=
  modify fun lX => { lX with log.errors := lX.log.errors ++ [⟨range, fmt, args⟩] }

/-- `Log_warn` -/
def warn (range : Range) (fmt : String) (args : List DiagnosticArg) : LexM Unit :=
  modify fun lX => { lX with log.warnings := lX.log.warnings ++ [⟨range, fmt, args⟩] }

/-- `Log_error` and `Lexer_abort` -/
def fail {α : Type} (range : Range) (fmt : String) (args : List DiagnosticArg) : LexM α := do
  error range fmt args
  Prog.stop .abort

/-- A check that fails with `Lexer_abort`. -/
def failIf (c : Prop) [Decidable c] (range : Range) (fmt : String) (args : List DiagnosticArg) : LexM Unit :=
  if c then fail range fmt args else pure ()

/-- `Lexer_updateToken` -/
def updateToken (tok : Token) (kind : TokenKind) (start stop : Nat) (pos : LineColumn) : LexM (TokenKind × Token) := do
  stopIf (stop < start) .assertion
  let lX ← get
  return (kind, { tok with kind, range := { start, stop, coord := pos, source := lX.src } })

/-- `for (; p(c); c = Lexer_peek(lX, 0)) Lexer_advance(lX, 1);` -/
def advanceWhile (p : U8 → Bool) (fuel : Nat) : LexM Unit :=
  iterate .fuel (fun _ => do
    if p (← peek 0) then do
      let _ ← advance 1
      return .again ()
    else return .done ()) fuel ()

/-- `if (c) Lexer_advance(lX, 1);` -/
def advanceIf (c : Prop) [Decidable c] : LexM Unit := if c then do let _ ← advance 1 else pure ()

/-- `Lexer_eatWhile` -/
def eatWhile (p : U8 → Bool) (fuel : Nat) : LexM Unit :=
  iterate .fuel (fun _ => do
    let lX ← get
    if lX.idx < lX.src.length ∧ p (lX.peek 0) then do
      modify Lexer.step
      return .again ()
    else return .done ()) fuel ()

/-- `Lexer_eatUntilAnyOf` -/
def eatUntilAnyOf (chrs : List U8) (fuel : Nat) : LexM Unit := eatWhile (fun c => !chrs.contains c) fuel

/-! ### Characters and strings -/

/-- `Lexer_tokUniversalChar`, from a digit on. -/
def universalChar (start : Nat) : (len : Nat) → (r : U32) → LexM U32
  | 0, r => do
    let lX ← get
    if isUcn r then return r else fail (lX.rangeFrom start lX.pos) "invalid character character" []
  | len + 1, r => do
    let c ← peek 1
    match hexDigit? c with
    | some d => do
      let _ ← advance 1
      universalChar start len (r <<< 4 ||| d.setWidth 32)
    | none => do
      let stop ← advance 1
      let lX ← get
      fail { start, stop, coord := lX.pos, source := lX.src } "invalid character character: %c" [.text [c]]

/-- `Lexer_tokUniversalChar` -/
def tokUniversalChar (len : Nat) : LexM U32 := do
  let lX ← get
  universalChar (lX.idx - 1) len 0

/-- `Lexer_tokOctalChar` -/
def tokOctalChar (c : U8) : LexM U32 := do
  let r := (c - chr '0').setWidth 32
  let c ← peek 0
  if !isOct c then return r
  else do
    let _ ← advance 1
    let r := r <<< 3 ||| (c - chr '0').setWidth 32
    let c ← peek 0
    if !isOct c then return r
    else do
      let _ ← advance 1
      return r <<< 3 ||| (c - chr '0').setWidth 32

/-- `Lexer_tokHexChar` -/
def tokHexChar (fuel : Nat) : LexM U32 := do
  let lX ← get
  let c := lX.peek 0
  if !isXDigit c then fail (lX.rangeFrom (lX.idx - 1) lX.pos) "\\%c is not followed by a hexadecimal literal" [.text [c]]
  else
    iterate .fuel (fun r => do
      let c ← peek 0
      if c = eofChar then return .done r
      else
        match hexDigit? c with
        | none => return .done r
        | some d => do
          let _ ← advance 1
          return .again (r <<< 4 ||| d.setWidth 32)) fuel (0 : U32)

/-- The escapes of one letter, and the characters that stand for themselves. -/
def simpleEscape? (c : U8) : Option U8 :=
  if c = chr '\'' ∨ c = chr '"' ∨ c = chr '?' ∨ c = chr '\\' ∨ c = chr '$' then some c
  else if c = chr 'n' then some 0x0A
  else if c = chr 'a' then some 0x07
  else if c = chr 'b' then some 0x08
  else if c = chr 'f' then some 0x0C
  else if c = chr 'r' then some 0x0D
  else if c = chr 't' then some 0x09
  else if c = chr 'v' then some 0x0B
  else if c = chr 'e' then some 0x1B
  else none

/-- `Lexer_tokEscapedChar` -/
def tokEscapedChar (inStr : Bool) (fuel : Nat) : LexM U32 := do
  let lX ← get
  let c := lX.peek 0
  let _ ← advance 1
  if c = chr '\n' ∧ inStr then return 0x0A
  else
    match simpleEscape? c with
    | some r => return r.setWidth 32
    | none =>
      if c = chr 'x' then tokHexChar fuel
      else if c = chr 'u' then tokUniversalChar 4
      else if c = chr 'U' then tokUniversalChar 8
      else if isOct c then tokOctalChar c
      else do
        warn { start := lX.idx, stop := lX.idx, coord := lX.pos, source := lX.src } "unknown escape character: \\%c"
          [.text [unescapeChar c]]
        return c.signExtend 32

/-- The loop of `Lexer_readRune` over the continuation bytes from `i` on; `Range_sub` asserts that the byte is in the
    range. -/
def readContinuation (range : Range) : (n i : Nat) → LexM Unit
  | 0, _ => return ()
  | n + 1, i => do
    let c := range.source.getD (range.start + i) eofChar
    if c &&& 0xC0 ≠ 0x80 then do
      stopIf (range.stop < range.start + i + 1) .assertion
      fail { start := range.start + i, stop := range.start + i + 1, source := range.source,
             coord := (range.source.take (range.start + i)).foldl LineColumn.update {} }
        "invalid UTF-8 continuation byte" []
    else readContinuation range n (i + 1)

/-- `Lexer_readRune`: the length of the character, and its code point. -/
def readRune (range : Range) : LexM (Nat × U32) := do
  let s := fun i => range.source.getD (range.start + i) eofChar
  let low := fun (i : Nat) => (s i &&& 0x3F).setWidth 32
  let len := clz (s 0)
  if len = 0 then return (1, (s 0).setWidth 32)
  else do
    failIf (len < range.stop - range.start) range "invalid UTF-8 character sequence" []
    readContinuation range (len - 1) 1
    match len with
    | 2 => return (2, (s 0 &&& 0x1F).setWidth 32 <<< 6 ||| low 1)
    | 3 => return (3, (s 0 &&& 0xF).setWidth 32 <<< 12 ||| low 1 <<< 6 ||| low 2)
    | 4 => return (4, (s 0 &&& 0x7).setWidth 32 <<< 18 ||| low 1 <<< 12 ||| low 2 <<< 6 ||| low 3)
    | _ => fail range "invalid UTF-8 sequence" []

/-- The code point of a character literal that starts with a byte from `0x80` on: the end of the literal is looked for
    from the character after the next one. -/
def wideChar (start : Nat) (pos : LineColumn) (c : U8) (fuel : Nat) : LexM U32 := do
  iterate .fuel (fun c => do
    if c ≠ chr '\'' then do
      let _ ← advance 1
      return .again (← peek 0)
    else return .done ()) fuel c
  let rune ← readRune ((← get).rangeFrom start pos)
  return rune.2

/-- The first character of a literal, which may be escaped. -/
def firstChar (c : U8) (fuel : Nat) : LexM U32 :=
  if c = chr '\\' then tokEscapedChar false fuel else return c.setWidth 32

/-- The code point of a literal whose first character is `value`. -/
def charValue (start : Nat) (pos : LineColumn) (c : U8) (value : U32) (fuel : Nat) : LexM U32 :=
  if 0x80 ≤ value then wideChar start pos c fuel else return value

/-- A character literal with no end where it should be. -/
def unterminatedChar (tok : Token) (start : Nat) (pos : LineColumn) (fuel : Nat) : LexM (TokenKind × Token) := do
  eatUntilAnyOf [chr '\n', chr '\''] fuel
  if (← peek 0) = chr '\'' then do
    let _ ← advance 1
    error ((← get).rangeFrom start pos) "character literal has more than 1 character" []
    return (.tokCOUNT, tok)
  else do
    error ((← get).rangeFrom start pos) "unterminated character sequence" []
    return (.tokCOUNT, tok)

/-- `Lexer_tokChar` -/
def tokChar (tok : Token) (fuel : Nat) : LexM (TokenKind × Token) := do
  let lX ← get
  let c := lX.peek 1
  let _ ← advance 2
  let value ← firstChar c fuel
  let value ← charValue (lX.idx + 1) lX.pos c value fuel
  if (← peek 0) ≠ chr '\'' then unterminatedChar tok lX.idx lX.pos fuel
  else do
    let stop ← advance 1
    updateToken { tok with value := .char value } .tokChar lX.idx stop lX.pos

/-- The loop of `Lexer_tokString`: the character that it stops at, and the contents of the buffer. A loop that stops
    at `${` has read the dollar. -/
def stringLoop (fuel : Nat) : LexM (U8 × List U8) :=
  iterate .fuel (fun os => do
    let lX ← get
    let c := lX.peek 0
    if c = eofChar then return .done (c, os)
    else if c = chr '"' then do
      modify fun lX => { lX with inStrExpr := false }
      return .done (c, os)
    else if c = chr '\n' then return .done (c, os)
    else do
      let _ ← advance 1
      let cc ← peek 0
      if lX.inStrExpr ∧ c = chr '$' ∧ cc = chr '{' then return .done (c, os)
      else if c ≠ chr '\\' then return .again (os ++ [c])
      else do
        let value ← tokEscapedChar true fuel
        if cc = chr 'u' ∨ cc = chr 'U' then do
          -- `Stream_putUtf8` has no return statement: what it leaves is the number of bytes, which is not zero
          let bytes ← ofOption .assertion (putUtf8 value)
          return .again (os ++ bytes)
        else return .again (os ++ [value.setWidth 8])) fuel []

/-- A string with no end. -/
def unterminatedString (tok : Token) (start : Nat) (pos : LineColumn) (fuel : Nat) : LexM (TokenKind × Token) := do
  eatUntilAnyOf [chr '"', chr '\n'] fuel
  error ((← get).rangeFrom start pos) "unterminated string literal" []
  advanceIf ((← peek 0) = chr '"')
  return (.tokCOUNT, tok)

/-- The token of a string, or of a piece of a string expression that is not empty. -/
def setString (tok : Token) (inStrExpr : Bool) (start : Nat) (pos : LineColumn) (os : List U8) :
    LexM (TokenKind × Token) := do
  let lX ← get
  if !inStrExpr ∨ 1 < lX.idx - start then updateToken { tok with value := .string os } .tokString start lX.idx pos
  else return (.tokCOUNT, tok)

/-- The end of a string expression, which is the next token where there is a string before it. -/
def closeStrExpr (r : TokenKind × Token) (start : Nat) (pos : LineColumn) : LexM (TokenKind × Token) := do
  let lX ← get
  if r.1 = .tokCOUNT then updateToken r.2 .tokRStrExpr start lX.idx pos
  else do
    let next ← updateToken lX.next .tokRStrExpr start lX.idx pos
    modify fun lX => { lX with next := next.2 }
    return r

/-- `Lexer_tokString` -/
def tokString (tok : Token) (start : Nat) (pos : LineColumn) (fuel : Nat) : LexM (TokenKind × Token) := do
  let inStrExpr := (← get).inStrExpr
  let str ← stringLoop fuel
  if (← get).inStrExpr = false ∧ str.1 ≠ chr '"' then unterminatedString tok start pos fuel
  else do
    let _ ← advance 1
    let r ← setString tok inStrExpr start pos str.2
    if inStrExpr ∧ str.1 = chr '"' then closeStrExpr r start pos else return r

/-! ### Numbers -/

/-- `strtod`, which gives the bits of the number. -/
abbrev Strtod := List U8 → Strto

/-- What follows `strtoull` and `strtod`. -/
def setNumber (tok : Token) (kind : TokenKind) (start : Nat) (pos : LineColumn) (text : List U8) (r : Strto) (fmt : String) :
    LexM (TokenKind × Token) := do
  modify fun lX => { lX with erange := lX.erange || r.erange }
  let lX ← get
  if lX.erange ∨ text.getD r.stop 0 ≠ 0 then do
    error (lX.rangeFrom start pos) fmt [.text (if lX.erange then ascii "Numerical result out of range".toList
      else ascii " invalid number".toList)]
    return (.tokCOUNT, tok)
  else updateToken { tok with value := .int r.value } kind start lX.idx pos

/-- `Lexer_parseInteger` -/
def parseInteger (tok : Token) (start : Nat) (pos : LineColumn) (base : Nat) : LexM (TokenKind × Token) := do
  let lX ← get
  let idx := if base = 16 ∨ base = 2 then start + 2 else start
  let len := lX.idx - idx
  stopIf (39 < len) .assertion
  let text := (lX.src.drop idx).take len
  setNumber tok .tokInteger start pos text (strtoull text base) "parsing integer failed: %s"

/-- `Lexer_tokFloatingPoint` -/
def tokFloatingPoint (strtod : Strtod) (tok : Token) (start : Nat) (pos : LineColumn) (fuel : Nat) :
    LexM (TokenKind × Token) := do
  let c := toUpper (← peek 0)
  stopIf (c ≠ chr '.' ∧ c ≠ chr 'E' ∧ c ≠ chr 'P') .assertion
  let _ ← advance 1
  let sign ← peek 0
  advanceIf ((c = chr 'E' ∨ c = chr 'P') ∧ (sign = chr '-' ∨ sign = chr '+'))
  if (c = chr 'E' ∨ c = chr 'P') ∧ !isDigit (← peek 0) then do
    error ((← get).rangeFrom start pos) "'%c' exponent has no digits" [.text [sign]]
    return (.tokCOUNT, tok)
  else do
    eatWhile isDigit fuel
    let lX ← get
    let text := (lX.src.drop start).take (lX.idx - start)
    stopIf (1084 ≤ text.length) .overflow
    setNumber tok .tokFloat start pos text (strtod text) "parsing floating number failed: %s"

/-- `Lexer_tokBinaryNumber` -/
def tokBinaryNumber (tok : Token) (fuel : Nat) : LexM (TokenKind × Token) := do
  let lX ← get
  let _ ← advance 2
  advanceWhile (fun c => c = chr '0' ∨ c = chr '1') fuel
  let p ← get
  if isDigit (p.peek 0) then do
    eatWhile isDigit fuel
    error ((← get).rangeFrom p.idx p.pos) "invalid digit in a binary number '%c'" [.text [p.peek 0]]
    return (.tokCOUNT, tok)
  else parseInteger tok lX.idx lX.pos 2

/-- `Lexer_tokHexNumber` -/
def tokHexNumber (strtod : Strtod) (tok : Token) (fuel : Nat) : LexM (TokenKind × Token) := do
  let lX ← get
  let _ ← advance 2
  advanceWhile isXDigit fuel
  if toUpper (← peek 0) = chr 'P' then tokFloatingPoint strtod tok lX.idx lX.pos fuel
  else parseInteger tok lX.idx lX.pos 16

/-- `Lexer_tokOctalNumber` -/
def tokOctalNumber (strtod : Strtod) (tok : Token) (fuel : Nat) : LexM (TokenKind × Token) := do
  let lX ← get
  advanceWhile isOct fuel
  let x ← peek 0
  if isDigit x then do
    advanceWhile isDigit fuel
    let c ← peek 0
    if c = chr '.' ∨ c = chr 'e' ∨ c = chr 'E' then tokFloatingPoint strtod tok lX.idx lX.pos fuel
    else do
      error ((← get).rangeFrom lX.idx lX.pos) "'%c' is not a valid octal digit" [.text [x]]
      return (.tokCOUNT, tok)
  else parseInteger tok lX.idx lX.pos 8

/-- `Lexer_tokDecimalNumber` -/
def tokDecimalNumber (strtod : Strtod) (tok : Token) (fuel : Nat) : LexM (TokenKind × Token) := do
  let lX ← get
  advanceWhile isDigit fuel
  let c ← peek 0
  if toUpper c = chr 'E' ∨ c = chr '.' then tokFloatingPoint strtod tok lX.idx lX.pos fuel
  else parseInteger tok lX.idx lX.pos 10

/-- `Lexer_tokNumber` -/
def tokNumber (strtod : Strtod) (tok : Token) (fuel : Nat) : LexM (TokenKind × Token) := do
  let lX ← get
  let c := lX.peek 0
  let cc := toUpper (lX.peek 1)
  let ccc := lX.peek 2
  if c = chr '0' then
    if cc = chr 'X' ∧ isXDigit ccc then tokHexNumber strtod tok fuel
    else if cc = chr 'B' ∧ (ccc = chr '0' ∨ ccc = chr '1') then tokBinaryNumber tok fuel
    else if cc = chr '.' ∨ cc = chr 'E' then do
      let _ ← advance 1
      tokFloatingPoint strtod tok lX.idx lX.pos fuel
    else tokOctalNumber strtod tok fuel
  else tokDecimalNumber strtod tok fuel

/-! ### Identifiers and comments -/

/-- The characters of an identifier. -/
def isIdent (c : U8) : Bool := c = chr '_' || c = chr '$' || isDigit c || isAlnum c

/-- The token of a word, which is a keyword or an identifier. -/
def setWord (tok : Token) (start stop : Nat) (pos : LineColumn) : Option TokenKind → LexM (TokenKind × Token)
  | some kw =>
    let tok := if kw = .tokTrue ∨ kw = .tokFalse then { tok with value := .bool (kw = .tokTrue) } else tok
    updateToken tok kw start stop pos
  | none => updateToken { tok with value := .none } .tokIdentifier start stop pos

/-- `Lexer_tokIdent` -/
def tokIdent (tok : Token) (fuel : Nat) : LexM (TokenKind × Token) := do
  let lX ← get
  advanceWhile isIdent fuel
  let range := (← get).rangeFrom lX.idx lX.pos
  let kw ← ofOption .overflow (sKeyWordList.get range.view)
  setWord tok lX.idx range.stop lX.pos kw

/-- The loop of `Lexer_tokComment`, with the last character and the level; the result is the level. -/
def commentLoop (isMultiLine : Bool) (fuel : Nat) (c : U8) : LexM Int :=
  iterate .fuel (fun last => do
    if last.1 = eofChar then return .done last.2
    else do
      let c ← peek 0
      let _ ← advance 1
      if c = chr '\n' ∧ !isMultiLine then return .done last.2
      else do
        let cc ← peek 0
        if c = chr '*' ∧ cc = chr '/' then do
          let _ ← advance 1
          if last.2 - 1 = 0 then return .done (last.2 - 1) else return .again (c, last.2 - 1)
        else return .again (c, if c = chr '/' ∧ cc = chr '*' then last.2 + 1 else last.2)) fuel (c, 1)

/-- `Lexer_tokComment` -/
def tokComment (tok : Token) (fuel : Nat) : LexM (TokenKind × Token) := do
  let lX ← get
  let _ ← advance 1
  let c ← peek 0
  let isMultiLine := c = chr '*'
  let _ ← advance 1
  let level ← commentLoop isMultiLine fuel c
  let stop := (← get).idx
  if isMultiLine ∧ level ≠ 0 then do
    error ((← get).rangeFrom lX.idx lX.pos) "unterminated multiline comment" []
    return (.tokCOUNT, tok)
  else updateToken tok .tokComment lX.idx stop lX.pos

/-! ### Tokens -/

/-- What `Lexer_tokenize` does about a character. -/
inductive Lexeme where
  /-- `ADD` and the macros with two kinds: a token, for some characters. -/
  | add (kind : TokenKind) (n : Nat)
  /-- The three characters of `IF_ELSE2` -/
  | addThree (kind : TokenKind)
  | comment
  | strEnd
  | char
  | string
  | strExpr
  | ident
  | number
  | eof
  | error
  deriving DecidableEq

/-- `IF_ELSE` -/
def ifElse (cc : U8) (c : Char) (t e : TokenKind) : Lexeme := if cc = chr c then .add t 2 else .add e 1

/-- `IF_ELSE2` -/
def ifElse2 (cc ccc : U8) (c2 c3 : Char) (t e ee : TokenKind) : Lexeme :=
  if cc = chr c2 then if ccc = chr c3 then .addThree t else .add e 2 else .add ee 1

/-- The `switch` of `Lexer_tokenize`. -/
def lexeme (c cc ccc : U8) (inStrExpr : Bool) : Lexeme :=
  match Char.ofNat c.toNat with
  | '%' => ifElse cc '=' .tokModAssign .tokMod
  | '/' =>
    if cc = chr '=' then .add .tokDivAssign 2
    else if cc = chr '*' ∨ cc = chr '/' then .comment
    else .add .tokDiv 1
  | '*' => if cc = chr '*' then .add .tokExponent 2 else ifElse cc '=' .tokMultAssign .tokMult
  | '+' => if cc = chr '+' then .add .tokPlusPlus 2 else ifElse cc '=' .tokPlusAssign .tokPlus
  | '-' =>
    if cc = chr '-' then .add .tokMinusMinus 2
    else if cc = chr '>' then .add .tokLArrow 2
    else ifElse cc '=' .tokMinisAssign .tokMinus
  | '|' => if cc = chr '|' then .add .tokLOr 2 else ifElse cc '=' .tokBitOrAssign .tokBitOr
  | '&' => if cc = chr '&' then .add .tokLAnd 2 else ifElse cc '=' .tokBitAndAssign .tokBitAnd
  | '^' => ifElse cc '=' .tokBitXorAssign .tokBitOr
  | '~' => ifElse cc '=' .tokCompAssign .tokComplement
  | '>' => ifElse2 cc ccc '>' '=' .tokSarAssign .tokSar .tokGt
  | '<' => if cc = chr '-' then .add .tokLArrow 2 else ifElse2 cc ccc '<' '=' .tokSalAssign .tokSal .tokLt
  | '=' => ifElse cc '=' .tokEqual .tokAssign
  | '.' => if isDigit cc then .number else ifElse2 cc ccc '.' '.' .tokElipsis .tokDotDot .tokDot
  | ':' => ifElse cc ':' .tokDColon .tokColon
  | '!' => .add .tokNot 1
  | '{' => .add .tokLBrace 1
  | '}' => if inStrExpr then .strEnd else .add .tokRBrace 1
  | '[' => .add .tokLBracket 1
  | ']' => .add .tokRBracket 1
  | '(' => .add .tokLParen 1
  | ')' => .add .tokRParen 1
  | '@' => .add .tokAt 1
  | '#' => .add .tokHash 1
  | '?' => .add .tokQuestion 1
  | '`' => .add .tokBackquote 1
  | ';' => .add .tokSemicolon 1
  | ',' => .add .tokComma 1
  | '$' => .add .tokDollar 1
  | '\\' => .add .tokBackSlash 1
  | '\'' => .char
  | '"' => .string
  | 'f' => if cc = chr '"' then .strExpr else .ident
  | _ =>
    if isDigit c then .number
    else if c = chr '_' ∨ isLower c ∨ isUpper c then .ident
    else if c = eofChar then .eof
    else .error

/-- A case of the `switch` of `Lexer_tokenize`. -/
def tokLexeme (strtod : Strtod) (fuel : Nat) (out : Token) (lX : Lexer) : Lexeme → LexM (TokenKind × Token)
  | .add kind n => do
    let stop ← advance n
    updateToken out kind lX.idx stop lX.pos
  | .addThree kind => do
    let _ ← advance 3
    let stop ← advance 1
    updateToken out kind lX.idx stop lX.pos
  | .comment => tokComment out fuel
  | .strEnd | .string => do
    let _ ← advance 1
    tokString out lX.idx lX.pos fuel
  | .char => tokChar out fuel
  | .strExpr => do
    modify fun lX => { lX with inStrExpr := true }
    let stop ← advance 1
    updateToken out .tokLStrExpr lX.idx stop lX.pos
  | .ident => tokIdent out fuel
  | .number => tokNumber strtod out fuel
  | .eof => return (.tokEoF, out)
  | .error => do
    let stop ← advance 1
    error { start := lX.idx, stop, coord := lX.pos, source := lX.src } "unexpected character in source '%c'"
      [.text [lX.peek 0]]
    return (.tokCOUNT, out)

/-- `Lexer_tokenize` -/
def tokenize (strtod : Strtod) (fuel : Nat) (out : Token) : LexM (TokenKind × Token) := do
  let lX ← get
  tokLexeme strtod fuel out lX (lexeme (lX.peek 0) (lX.peek 1) (lX.peek 2) lX.inStrExpr)

/-- The token of the first newline, at the index before it and the position after it. -/
def newline (lX : Lexer) (out : Token) : LexM (TokenKind × Token) :=
  if out.kind = .tokCOUNT ∧ lX.peek 0 = chr '\n' then
    updateToken out .tokNl lX.idx lX.idx (lX.pos.update (lX.peek 0))
  else return (out.kind, out)

/-- The whitespace before a token; a newline makes it a token of its own. -/
def skipSpace (out : Token) (fuel : Nat) : LexM Token :=
  iterate .fuel (fun out => do
    let lX ← get
    if lX.idx < lX.src.length ∧ isSpace (lX.peek 0) then do
      let r ← newline lX out
      modify Lexer.step
      return .again r.2
    else return .done out) fuel out

/-- `Lexer_next`, which calls itself again after an error. -/
def next (strtod : Strtod) (fuel : Nat) : LexM (TokenKind × Token) :=
  iterate .fuel (fun _ => do
    let lX ← get
    let zero : Token := { kind := .tokEoF, range := { start := 0, stop := 0, source := [] } }
    let out ← updateToken zero .tokCOUNT lX.idx lX.idx lX.pos
    if lX.next.kind ≠ .tokCOUNT then do
      modify fun lX => { lX with next := { lX.next with kind := .tokCOUNT } }
      return .done (lX.next.kind, lX.next)
    else do
      let out ← skipSpace out.2 fuel
      if out.kind ≠ .tokCOUNT then return .done (out.kind, out)
      else do
        let r ← tokenize strtod fuel out
        if r.1 = .tokCOUNT then return .again () else return .done r) fuel ()

end LexM

end Cyntatic
