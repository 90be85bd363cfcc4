import Cyntatic.Compiler.Lexer

/-! # Printing a log (`source.c`, `log.c`)

What goes to the stream is a list of bytes, and where a loop reads outside the text of the source there is no result. -/

namespace Cyntatic

/-- The loop of `Range_enclosingLine` that goes back; the number is `s + 1`. -/
def lineBack (src : List U8) : Nat → Option Nat
  | 0 => some 0
  | s + 1 => do
    let c ← src[s]?
    if c ≠ chr '\n' then lineBack src s else return s + 1

/-- The loop of `Range_enclosingLine` that goes on from `e`, with what is left up to `len`. -/
def lineOn (src : List U8) (e : Nat) : Nat → Nat
  | 0 => e
  | left + 1 => if src.getD e 0 ≠ chr '\n' then lineOn src (e + 1) left else e

/-- `Range_enclosingLine` -/
def Range.enclosingLine (range : Range) : Option Range := do
  let s := (range.start + 2 ^ 32 - 1) % 2 ^ 32
  let s ← lineBack range.source (s + 1)
  let e := lineOn range.source range.stop (range.source.length - range.stop)
  if e < s then none
  return { range with start := s, stop := e }

/-- `LogKind` -/
inductive LogKind where
  | logError
  | logWarning
  deriving DecidableEq, Repr

/-- `Diagnostic`, with its text and the name of its source. A diagnostic without a source has no range. -/
structure LogEntry where
  kind : LogKind
  name : List U8 := []
  range : Option Range
  message : List U8
  deriving DecidableEq, Repr

def cDEF : List U8 := ascii ['\x1b', '[', '0', 'm']

def cRED : List U8 := ascii ['\x1b', '[', '3', '2', 'm']

def cYLW : List U8 := ascii ['\x1b', '[', '3', '3', 'm']

def cBOLD : List U8 := ascii ['\x1b', '[', '1', ';', '0', 'm']

def cBRED : List U8 := ascii ['\x1b', '[', '1', ';', '3', '2', 'm']

/-- The loop of `Log_print0` below the line, whose view begins at `data`, with what is left up to `range->end`. -/
def underline (src : List U8) (data i : Nat) : Nat → Option (List U8)
  | 0 => some []
  | left + 1 => do
    let c ← src[data + i]?
    if c ≠ chr '\n' then
      let marks ← underline src data (i + 1) left
      return chr '~' :: marks
    else return []

/-- What `Log_print0` writes of the source. -/
def printRange (range : Range) : Option (List U8) := do
  let line ← range.enclosingLine
  let indent := List.replicate range.coord.column (chr ' ')
  let marks ← underline range.source line.start (range.start + 1) (range.stop - (range.start + 1))
  return line.view ++ [chr '\n'] ++ indent ++ [chr '^'] ++ marks ++ [chr '\n']

/-- What `Log_print0` writes before the message. -/
def printPlace (entry : LogEntry) (range : Range) : List U8 :=
  cBOLD ++ entry.name ++ [chr ':'] ++ ascii (Nat.toDigits 10 ((range.coord.line + 1) % 2 ^ 32)) ++ [chr ':'] ++
    ascii (Nat.toDigits 10 ((range.coord.column + 1) % 2 ^ 32)) ++ [chr ' '] ++ cDEF

/-- What `Log_print0` writes up to the end of the message. -/
def printMessage (entry : LogEntry) : List U8 :=
  let place := (entry.range.map (printPlace entry)).getD []
  let kind := match entry.kind with
    | .logError => cRED ++ ascii "error: ".toList ++ cBOLD
    | .logWarning => cYLW ++ ascii "warning: ".toList ++ cBOLD
  place ++ kind ++ entry.message ++ cDEF ++ [chr '\n']

/-- The body of the loop of `Log_print0`. -/
def printDiagnostic (entry : LogEntry) : Option (List U8) := do
  let lines ← (entry.range.map printRange).getD (some [])
  return printMessage entry ++ lines

/-- What `Log_print0` writes before the diagnostics; `text` is what the format gives, where there is one. -/
def printErrors (errors : Nat) (text : Option (List U8)) : List U8 :=
  if errors ≠ 0 then
    cBRED ++ ascii "error:".toList ++ cDEF ++ [chr ' '] ++ text.getD (ascii "compilation failed!".toList) ++ [chr '\n']
  else []

/-- `Log_print0` -/
def logPrint0 (errors : Nat) (text : Option (List U8)) (diagnostics : List LogEntry) : Option (List U8) := do
  let lines ← diagnostics.mapM printDiagnostic
  return printErrors errors text ++ lines.flatten

end Cyntatic
