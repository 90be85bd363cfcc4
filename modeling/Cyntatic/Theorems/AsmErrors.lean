import Cyntatic.Compiler.Assemble

/-! # Errors of the assembler

Tokens are only read and errors only added, and an exception is thrown after an error was logged. -/

namespace Cyntatic
open Library

/-- Tokens were read and errors added. -/
structure Proceeds (as as' : AssemblerCtx) : Prop where
  toks : as'.itp.toks <:+ as.itp.toks
  errors : as.errors ≤ as'.errors

/-- At an exception there is one error more at least. -/
def Throws (e : AsmStop) (as as' : AssemblerCtx) : Prop := Proceeds as as' ∧ (e = .exception → as.errors < as'.errors)

theorem Proceeds.refl (as : AssemblerCtx) : Proceeds as as := ⟨List.suffix_refl _, le_refl _⟩

theorem composes_proceeds : Prog.Composes Proceeds Throws where
  refl := .refl
  trans h h' := ⟨h'.toks.trans h.toks, h.errors.trans h'.errors⟩
  stop h h' := ⟨⟨h'.1.toks.trans h.toks, h.errors.trans h'.1.errors⟩, fun he => lt_of_le_of_lt h.errors (h'.2 he)⟩

namespace AsmM
open Prog

variable {α β : Type} {m n : AsmM α} {f : α → AsmM β} {a : α}

/-- What the parts of the assembler do to the tokens and to the log. -/
abbrev Logs (m : AsmM α) : Prop := Relates Proceeds Throws m

theorem logs_pure : Logs (pure a : AsmM α) := relates_pure composes_proceeds

theorem logs_get : Logs get := relates_get composes_proceeds

theorem logs_bind (hm : Logs m) (hf : ∀ a, Logs (f a)) : Logs (m >>= f) := relates_bind composes_proceeds hm hf

/-- A change that keeps the token parser. -/
theorem logs_modify {g : AssemblerCtx → AssemblerCtx} (h : ∀ as, (g as).itp = as.itp) : Logs (modify g) := by
  refine relates_modify fun as => ⟨?_, ?_⟩
  · simp only [h, List.suffix_refl]
  · rw [AssemblerCtx.errors, AssemblerCtx.errors, h]

theorem logs_stop {e : AsmStop} (he : e ≠ .exception) : Logs (stop e : AsmM α) :=
  relates_stop fun as => ⟨.refl as, fun h => absurd h he⟩

theorem logs_stopIf {c : Prop} [Decidable c] {e : AsmStop} (he : e ≠ .exception) : Logs (stopIf c e) :=
  relates_stopIf composes_proceeds fun as => ⟨.refl as, fun h => absurd h he⟩

theorem logs_tokenGet {x : Option α} : Logs (tokenGet x) :=
  relates_ofOption composes_proceeds fun as => ⟨.refl as, nofun⟩

/-! ### The token parser -/

variable {kind : TokenKind} {kinds : List TokenKind} {c : Bool} {p : Prop} [Decidable p] {range : Range} {fmt : String}
  {args : List DiagnosticArg} {instr : Instruction} {isSizeOp isNeg isMemRb isMem isRb : Bool} {pos nargs : Nat}
  {sign tok tokP : Token} {mode : Mode}

theorem logs_curr : Logs curr := logs_bind logs_get fun _ => logs_pure

theorem logs_check : Logs (check kinds) := logs_bind logs_get fun _ => logs_pure

theorem logs_advance : Logs advance := by
  refine logs_bind logs_get fun _ => logs_bind (relates_modify fun as => ?_) fun _ => logs_pure
  unfold ITokenParser.advance
  split
  · exact .refl as
  · exact ⟨List.tail_suffix _, le_refl _⟩

theorem logs_accept : Logs (accept kind) :=
  logs_bind logs_get fun _ => relates_ite (logs_bind logs_advance fun _ => logs_pure) logs_pure

theorem logs_acceptIf : Logs (acceptIf c kind) := relates_ite logs_accept logs_pure

theorem logs_error : Logs (error range fmt args) :=
  relates_modify fun as => ⟨List.suffix_refl _, by simp [AssemblerCtx.errors]⟩

theorem logs_failAt : Logs (failAt range fmt args : AsmM α) :=
  fun as => ⟨⟨List.suffix_refl _, by simp [AssemblerCtx.errors]⟩, fun _ => by simp [AssemblerCtx.errors]⟩

theorem logs_fail : Logs (fail fmt args : AsmM α) := logs_bind logs_curr fun _ => logs_failAt

theorem logs_failIf : Logs (failIf p range fmt args) := relates_ite logs_failAt logs_pure

theorem logs_errorIf : Logs (errorIf p range fmt args) := relates_ite logs_error logs_pure

theorem logs_consume : Logs (consume kind fmt) := logs_bind logs_get fun _ => relates_ite logs_advance logs_fail

/-! ### Symbols -/

theorem logs_addSymbol {tag : SymbolTag} : Logs (addSymbol pos tag range) :=
  logs_bind logs_get fun _ => logs_bind logs_failIf fun _ => logs_modify fun _ => rfl

theorem logs_addSymbolReference : Logs (addSymbolReference pos range c) := by
  refine logs_bind logs_get fun as => ?_
  cases as.reference? range.view with
  | some => exact logs_pure
  | none => exact relates_ite (logs_bind (logs_modify fun _ => rfl) fun _ => logs_pure) logs_fail

theorem logs_getVariableSize : Logs (getVariableSize range) := by
  refine logs_bind logs_get fun as => ?_
  cases as.findSymbol range.view with
  | none => exact logs_failAt
  | some => exact relates_ite logs_pure logs_failAt

theorem logs_symbolValue : Logs (symbolValue isSizeOp pos range c) :=
  relates_ite logs_getVariableSize logs_addSymbolReference

theorem logs_parseModes {modes : List Mode} : Logs (parseModes modes) := by
  refine logs_bind logs_consume fun tok => ?_
  cases Mode.ofExt? tok.text with
  | none => exact logs_failAt
  | some => exact relates_ite logs_fail logs_pure

theorem logs_parseLabel : Logs parseLabel := by
  refine logs_bind logs_consume fun tok => logs_bind logs_consume fun _ => logs_bind logs_get fun as =>
    logs_bind logs_failIf fun _ => logs_bind logs_addSymbol fun _ => logs_modify fun as' => ?_
  split <;> rfl

/-! ### Instructions -/

theorem logs_parseSign : Logs parseSign :=
  logs_bind logs_curr fun _ => logs_bind logs_accept fun _ => logs_bind logs_acceptIf fun _ => logs_pure

theorem logs_parseAddend : Logs (parseAddend instr) :=
  logs_bind logs_get fun _ => relates_ite
    (logs_bind logs_accept fun _ => logs_bind logs_acceptIf fun _ => logs_bind logs_consume fun _ =>
      logs_bind logs_tokenGet fun _ => logs_pure)
    logs_pure

theorem logs_parseSymbol : Logs (parseSymbol instr isSizeOp pos tok) := logs_bind logs_symbolValue fun _ => logs_parseAddend

theorem logs_parseEaSymbol : Logs (parseEaSymbol instr isSizeOp pos sign tok tokP) :=
  logs_bind logs_failIf fun _ => logs_bind logs_symbolValue fun _ => logs_pure

theorem logs_parseEaPart : Logs (parseEaPart instr isSizeOp pos sign tok isNeg tokP) := by
  unfold parseEaPart
  split
  · exact logs_bind logs_tokenGet fun _ => logs_pure
  · exact logs_bind logs_get fun _ => logs_bind logs_failIf fun _ => logs_parseEaSymbol
  · exact logs_parseEaSymbol
  · exact logs_bind logs_error fun _ => logs_pure

theorem logs_parseEa : Logs (parseEa instr isMemRb isSizeOp pos tok) :=
  logs_bind logs_acceptIf fun _ => relates_ite
    (logs_bind logs_parseSign fun _ => logs_bind logs_advance fun _ => logs_bind logs_parseEaPart fun _ => logs_pure)
    logs_pure

theorem logs_parseName : Logs (parseName instr isSizeOp pos sign tok) := by
  refine logs_bind logs_failIf fun _ => ?_
  cases Register.ofText? tok.text with
  | none => exact logs_bind logs_parseSymbol fun _ => logs_pure
  | some => exact logs_bind logs_get fun _ => logs_bind logs_failIf fun _ => logs_pure

theorem logs_parseLiteral : Logs (parseLiteral instr isNeg tok) := by
  unfold parseLiteral
  split
  · exact logs_bind logs_tokenGet fun _ => logs_pure
  · exact logs_bind logs_tokenGet fun _ => logs_pure
  · exact logs_stop nofun

theorem logs_parseOperand : Logs (parseOperand instr isMemRb isSizeOp isNeg sign tok) :=
  logs_bind logs_get fun _ => relates_ite
    (logs_bind logs_parseName fun _ => logs_bind logs_parseEa fun _ => logs_pure)
    (logs_bind logs_parseLiteral fun _ => logs_pure)

theorem logs_closeBracket : Logs (closeBracket isMem) := relates_ite (logs_bind logs_consume fun _ => logs_pure) logs_pure

theorem logs_parseInstructionArg : Logs (parseInstructionArg instr isRb) :=
  logs_bind logs_accept fun _ => logs_bind logs_parseSign fun _ => logs_bind logs_get fun _ => logs_bind logs_failIf fun _ =>
    logs_bind logs_accept fun _ => logs_bind logs_advance fun _ => logs_bind logs_parseOperand fun _ =>
    logs_bind logs_closeBracket fun _ => logs_pure

theorem logs_pushInstruction : Logs (pushInstruction instr) :=
  logs_bind logs_get fun _ => logs_bind (logs_stopIf nofun) fun _ => logs_modify fun _ => rfl

theorem logs_parseInstructionMode : Logs (parseInstructionMode instr) :=
  logs_bind logs_accept fun _ => relates_ite (logs_bind logs_parseModes fun _ => logs_pure) logs_pure

theorem logs_parseFirstArg : Logs (parseFirstArg nargs instr) :=
  relates_ite (logs_bind logs_parseInstructionArg fun _ => logs_pure) logs_pure

theorem logs_parseSecondArg : Logs (parseSecondArg nargs instr) :=
  relates_ite (logs_bind logs_parseInstructionArg fun _ => logs_pure) logs_pure

theorem logs_parseInstruction : Logs parseInstruction := by
  refine logs_bind logs_curr fun tok => ?_
  cases OpCode.lookup? tok.text with
  | none => exact logs_fail
  | some =>
    exact logs_bind logs_advance fun _ => logs_bind logs_parseInstructionMode fun _ => logs_bind logs_parseFirstArg fun _ =>
      logs_bind logs_parseSecondArg fun _ => logs_pushInstruction

/-! ### Variables -/

theorem logs_pushConstants {bs : List U8} : Logs (pushConstants bs) :=
  logs_bind logs_get fun _ => logs_bind (logs_stopIf nofun) fun _ => logs_modify fun _ => rfl

theorem logs_expandConstants {n : Nat} : Logs (expandConstants n) :=
  logs_bind logs_get fun _ => logs_bind (logs_stopIf nofun) fun _ => logs_modify fun _ => rfl

theorem logs_byteArrayValue : Logs (byteArrayValue tok) := by
  unfold byteArrayValue
  split
  · exact logs_tokenGet
  · exact logs_bind logs_tokenGet fun _ => logs_pure
  · exact logs_fail

theorem logs_parseByte : Logs parseByte :=
  logs_bind logs_curr fun _ => logs_bind logs_byteArrayValue fun _ => logs_bind logs_errorIf fun _ =>
    logs_bind logs_advance fun _ => logs_bind logs_pushConstants fun _ => logs_accept

theorem logs_parseByteArray {fuel : Nat} {size : U32} : Logs (parseByteArray fuel size) := by
  induction fuel generalizing size with
  | zero => exact logs_bind logs_parseByte fun _ => logs_pure
  | succ fuel ih => exact logs_bind logs_parseByte fun _ => relates_ite ih logs_pure

theorem logs_appendIntegralData {value : U64} : Logs (appendIntegralData value mode) :=
  logs_bind logs_pushConstants fun _ => logs_pure

theorem logs_parseWidth : Logs (parseWidth mode) := logs_bind logs_accept fun _ => relates_ite logs_parseModes logs_pure

theorem logs_parseScalar : Logs parseScalar := by
  refine logs_bind logs_parseSign fun _ => logs_bind logs_curr fun tok => ?_
  split
  · exact logs_bind logs_advance fun _ => logs_bind logs_tokenGet fun _ => logs_bind logs_parseWidth fun _ =>
      logs_appendIntegralData
  · exact logs_bind logs_advance fun _ => logs_bind logs_tokenGet fun _ => logs_appendIntegralData
  · exact logs_stop nofun
  · exact logs_bind logs_advance fun _ => logs_bind logs_consume fun _ => logs_bind logs_parseWidth fun _ =>
      logs_bind logs_consume fun _ => logs_bind logs_tokenGet fun _ => logs_bind logs_expandConstants fun _ => logs_pure
  · exact logs_fail

theorem logs_parseString : Logs parseString :=
  logs_bind logs_advance fun _ => logs_bind logs_tokenGet fun _ => logs_bind logs_pushConstants fun _ => logs_pure

theorem logs_parseBraces : Logs parseBraces :=
  logs_bind logs_get fun _ => logs_bind logs_parseByteArray fun _ => logs_bind logs_consume fun _ => logs_pure

theorem logs_parseInitializer : Logs parseInitializer :=
  logs_bind logs_accept fun _ => logs_bind logs_check fun _ =>
    relates_ite logs_parseBraces (relates_ite logs_parseString logs_parseScalar)

theorem logs_parseVarDecl : Logs parseVarDecl :=
  logs_bind logs_advance fun _ => logs_bind logs_consume fun _ => logs_bind logs_consume fun _ => logs_bind logs_get fun _ =>
    logs_bind logs_addSymbol fun _ => logs_bind logs_parseInitializer fun _ => logs_modify fun _ => rfl

/-! ### Statements -/

theorem logs_parseStatement : Logs parseStatement := by
  refine logs_bind logs_get fun as => ?_
  split
  · exact relates_ite logs_parseLabel logs_parseInstruction
  · exact logs_parseVarDecl
  · exact logs_bind logs_advance fun _ => logs_pure
  · exact logs_bind logs_advance fun _ => logs_pure
  · exact logs_fail

theorem logs_synchronize {fuel : Nat} : Logs (synchronize fuel) := by
  induction fuel with
  | zero => exact logs_bind logs_advance fun _ => logs_bind logs_get fun _ => logs_pure
  | succ fuel ih => exact logs_bind logs_advance fun _ => logs_bind logs_get fun _ => relates_ite logs_pure ih

theorem logs_parseStatements {fuel : Nat} : Logs (parseStatements fuel) := by
  induction fuel with
  | zero => exact logs_pure
  | succ fuel ih =>
    refine logs_bind logs_get fun as => relates_ite logs_pure (logs_bind ?_ fun _ => ih)
    exact relates_tryCatch composes_proceeds logs_parseStatement (logs_bind logs_get fun _ => logs_synchronize) fun _ h => h.1

end AsmM

end Cyntatic
