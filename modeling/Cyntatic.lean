import Cyntatic.Vm.Code
import Cyntatic.Vm.Heap
import Cyntatic.Theorems.HeapLists
import Cyntatic.Library.Cover
import Cyntatic.Theorems.HeapTiling
import Cyntatic.Theorems.HeapRuns
import Cyntatic.Library.Prog
import Cyntatic.Vm.State
import Cyntatic.Vm.Execute
import Cyntatic.Vm.Run
import Cyntatic.Theorems.Decode
import Cyntatic.Theorems.Steps
import Cyntatic.Theorems.Sandbox
import Cyntatic.Theorems.Frames
import Cyntatic.Compiler.Token
import Cyntatic.Compiler.Asm
import Cyntatic.Compiler.Assemble
import Cyntatic.Theorems.AsmArgs
import Cyntatic.Theorems.AsmProgram
import Cyntatic.Theorems.AsmErrors
import Cyntatic.Theorems.AsmStatements
import Cyntatic.Theorems.AsmRuns
import Cyntatic.Library.Layout
import Cyntatic.Theorems.AsmLink
import Cyntatic.Theorems.Labels
import Cyntatic.Theorems.RoundTrip
import Cyntatic.Theorems.Boundaries
import Cyntatic.Theorems.Immediates
import Cyntatic.Theorems.Resolution
import Cyntatic.Theorems.Operands
import Cyntatic.Theorems.Addressing
import Cyntatic.Compiler.Codegen
import Cyntatic.Theorems.Codegen
import Cyntatic.Library.ColorTree
import Cyntatic.Library.Fuel
import Cyntatic.Util.Tree
import Cyntatic.Theorems.HeapFrees
import Cyntatic.Theorems.Generated
import Cyntatic.Theorems.Vectors
import Cyntatic.Compiler.Pools
import Cyntatic.Library.Bits
import Cyntatic.Theorems.Pools
import Cyntatic.Theorems.TreeShape
import Cyntatic.Theorems.TreeInsert
import Cyntatic.Theorems.TreeWalk
import Cyntatic.Theorems.TreeOrder
import Cyntatic.Theorems.TreeBalance
import Cyntatic.Compiler.Ident
import Cyntatic.Theorems.Strings
import Cyntatic.Theorems.Idents
import Cyntatic.Compiler.Lexer
import Cyntatic.Theorems.LexerMoves
import Cyntatic.Theorems.LexerPositions
import Cyntatic.Theorems.Maps
import Cyntatic.Theorems.Keywords
import Cyntatic.Theorems.LexerSpelling
import Cyntatic.Theorems.Arithmetic
import Cyntatic.Theorems.Operators
import Cyntatic.Theorems.Counts
import Cyntatic.Compiler.Itp
import Cyntatic.Theorems.Lookahead
import Cyntatic.Theorems.Arena
import Cyntatic.Theorems.Allocators
import Cyntatic.Theorems.StartUp
import Cyntatic.Theorems.Entry
import Cyntatic.Theorems.DataSection
import Cyntatic.Theorems.LexerEscapes
import Cyntatic.Theorems.LexerEnds
import Cyntatic.Theorems.MapStates
import Cyntatic.Theorems.Buffers
import Cyntatic.Theorems.Release
import Cyntatic.Theorems.Returns
import Cyntatic.Theorems.Alloca
import Cyntatic.Theorems.Disassembly
import Cyntatic.Theorems.Relations
import Cyntatic.Theorems.Logic
import Cyntatic.Theorems.ShortCircuit
import Cyntatic.Theorems.Literals
import Cyntatic.Theorems.MemoryMap
import Cyntatic.Theorems.LexerFaults
import Cyntatic.Theorems.Words
import Cyntatic.Theorems.Escapes
import Cyntatic.Theorems.StringLiterals
import Cyntatic.Theorems.Comments
import Cyntatic.Theorems.Mnemonics
import Cyntatic.Theorems.Progress
import Cyntatic.Theorems.Arguments
import Cyntatic.Theorems.BitFlags
import Cyntatic.Theorems.HelpText
import Cyntatic.Theorems.Rounding
import Cyntatic.Theorems.Utf8
import Cyntatic.Theorems.Matches
import Cyntatic.Theorems.FreshNames
import Cyntatic.Theorems.Comparators
import Cyntatic.Theorems.TypeIdentity
import Cyntatic.Theorems.Diagnostics
import Cyntatic.Theorems.ErrorTexts
import Cyntatic.Theorems.LexerRuns
import Cyntatic.Theorems.Lossless
import Cyntatic.Theorems.Exceptions
import Cyntatic.Theorems.TreeTraversals
import Cyntatic.Theorems.Builtins
import Cyntatic.Theorems.Listing
import Cyntatic.Theorems.Grammar
import Cyntatic.Theorems.Pieces
import Cyntatic.Theorems.Lines
import Cyntatic.Theorems.Relisting
