import Cyntatic.Theorems.AsmErrors

/-! # The loop of the assembler makes progress

Every pass takes a token, also one that raises an exception, and after an exception the parser goes on after a
newline. -/

namespace Cyntatic
open Library

namespace AsmM
open Prog

variable {α β : Type} {m n : AsmM α} {f : α → AsmM β} {as as' : AssemblerCtx} {fuel : Nat}

/-- One pass of the loop of `Assembler_assemble`. -/
def parsePass : AsmM Unit := tryCatch (· = .exception) parseStatement (do synchronize (← get).itp.toks.length)

theorem parseStatements_succ :
    parseStatements (fuel + 1) =
      get >>= fun as => if as.itp.eof then pure () else parsePass >>= fun _ => parseStatements fuel := rfl

/-! ### Statements -/

/-- Where it does not begin at the end of the input and returns, a token is taken. -/
def Takes (m : AsmM α) : Prop :=
  ∀ as a as', as.itp.eof = false → Returns m as a as' → as'.itp.toks.length < as.itp.toks.length

theorem toks_of_not_eof (h : as.itp.eof = false) :
    ∃ tok toks, as.itp.toks = tok :: toks ∧ tok.kind ≠ .tokEoF ∧ tok.kind ≠ .tokCOUNT := by
  rw [ITokenParser.eof, decide_eq_false_iff_not, not_or, ITokenParser.curr] at h
  cases htoks : as.itp.toks with
  | nil =>
    rw [htoks] at h
    exact absurd rfl h.2
  | cons tok toks =>
    rw [htoks] at h
    exact ⟨tok, toks, rfl, h⟩

/-- A step past a token. -/
theorem advance_cons {tok : Token} {toks : List Token} (htoks : as.itp.toks = tok :: toks) (hkind : tok.kind ≠ .tokEoF) :
    as.itp.advance.2 = { as.itp with prev := tok, toks := toks } := by
  rw [ITokenParser.advance, ITokenParser.curr, htoks, List.headD_cons, if_neg hkind, List.tail_cons]

theorem returns_advance : Returns advance as as.itp.advance.1 { as with itp := as.itp.advance.2 } := rfl

theorem takes_advance : Takes advance := by
  intro as a as' heof h
  obtain ⟨-, rfl⟩ := returns_advance.unique h
  obtain ⟨tok, toks, htoks, hkind, -⟩ := toks_of_not_eof heof
  rw [advance_cons htoks hkind, htoks]
  exact Nat.lt_succ_self _

theorem takes_bind (hm : Takes m) (hf : ∀ a, Logs (f a)) : Takes (m >>= f) := by
  intro as b as' heof h
  obtain ⟨a, as₁, hr, hb⟩ := returns_bind.mp h
  exact lt_of_le_of_lt ((hf a).of_returns hb).toks.length_le (hm as a as₁ heof hr)

theorem takes_get {f : AssemblerCtx → AsmM α} (hf : ∀ as, Takes (f as)) : Takes (get >>= f) := by
  intro as b as' heof h
  obtain ⟨as₁, as₂, hr, hb⟩ := returns_bind.mp h
  obtain ⟨rfl, rfl⟩ := returns_get.mp hr
  exact hf as₂ as₂ b as' heof hb

theorem takes_ite {c : Prop} [Decidable c] (hm : Takes m) (hn : Takes n) : Takes (if c then m else n) := by
  split
  · exact hm
  · exact hn

theorem takes_failAt {range : Range} {fmt : String} {args : List DiagnosticArg} :
    Takes (failAt range fmt args : AsmM α) := by
  intro as a as' _ h
  obtain ⟨_, _, _, hstop⟩ := returns_bind.mp h
  exact absurd hstop returns_stop

theorem takes_fail {fmt : String} {args : List DiagnosticArg} : Takes (fail fmt args : AsmM α) :=
  takes_get fun _ => takes_failAt

theorem takes_consume {kind : TokenKind} {fmt : String} : Takes (consume kind fmt) :=
  takes_get fun _ => takes_ite takes_advance takes_fail

theorem takes_parseLabel : Takes parseLabel := by
  refine takes_bind takes_consume fun tok => logs_bind logs_consume fun _ => logs_bind logs_get fun as =>
    logs_bind logs_failIf fun _ => logs_bind logs_addSymbol fun _ => logs_modify fun as' => ?_
  split <;> rfl

theorem takes_parseInstruction : Takes parseInstruction := by
  refine takes_get fun as => ?_
  cases OpCode.lookup? as.curr.text with
  | none => exact takes_fail
  | some =>
    exact takes_bind takes_advance fun _ => logs_bind logs_parseInstructionMode fun _ => logs_bind logs_parseFirstArg fun _ =>
      logs_bind logs_parseSecondArg fun _ => logs_pushInstruction

theorem takes_parseVarDecl : Takes parseVarDecl :=
  takes_bind takes_advance fun _ => logs_bind logs_consume fun _ => logs_bind logs_consume fun _ => logs_bind logs_get fun _ =>
    logs_bind logs_addSymbol fun _ => logs_bind logs_parseInitializer fun _ => logs_modify fun _ => rfl

theorem takes_parseStatement : Takes parseStatement := by
  refine takes_get fun as => ?_
  split
  · exact takes_ite takes_parseLabel takes_parseInstruction
  · exact takes_parseVarDecl
  · exact takes_bind takes_advance fun _ => logs_pure
  · exact takes_bind takes_advance fun _ => logs_pure
  · exact takes_fail

/-! ### Recovery -/

/-- The tokens go on after the first newline, or at the end of the input when there is none before it. -/
def Resumes (as as' : AssemblerCtx) : Prop :=
  ∃ skipped, (∀ tok ∈ skipped, tok.kind ≠ .tokNl) ∧
    ((∃ nl, nl.kind = .tokNl ∧ as.itp.toks = skipped ++ nl :: as'.itp.toks) ∨
      (as'.itp.eof = true ∧ as.itp.toks = skipped ++ as'.itp.toks))

theorem Resumes.cons {tok : Token} {toks : List Token} {as₁ : AssemblerCtx} (h : Resumes as₁ as')
    (htoks : as.itp.toks = tok :: toks) (htoks₁ : as₁.itp.toks = toks) (hkind : tok.kind ≠ .tokNl) : Resumes as as' := by
  obtain ⟨skipped, hskipped, hrest⟩ := h
  refine ⟨tok :: skipped, fun t ht => ?_, ?_⟩
  · rcases List.mem_cons.mp ht with rfl | ht
    · exact hkind
    · exact hskipped t ht
  · rw [htoks, ← htoks₁]
    rcases hrest with ⟨nl, hnl, hrest⟩ | ⟨heof, hrest⟩
    · exact .inl ⟨nl, hnl, by rw [hrest, List.cons_append]⟩
    · exact .inr ⟨heof, by rw [hrest, List.cons_append]⟩

theorem Resumes.toks (h : Resumes as as') : as'.itp.toks <:+ as.itp.toks := by
  obtain ⟨skipped, -, ⟨nl, -, hrest⟩ | ⟨-, hrest⟩⟩ := h
  · exact ⟨skipped ++ [nl], by rw [hrest, List.append_assoc, List.singleton_append]⟩
  · exact ⟨skipped, hrest.symm⟩

/-- The end of `Assembler_synchronize`. -/
theorem synchronize_last (h : (as.itp.advance.2.prev.kind = .tokNl ∨ as.itp.advance.2.eof = true)) :
    Returns (synchronize fuel) as () { as with itp := as.itp.advance.2 } := by
  cases fuel with
  | zero => rfl
  | succ fuel =>
    refine (returns_bind_of_returns returns_advance).mpr (returns_bind.mpr ⟨_, _, returns_get.mpr ⟨rfl, rfl⟩, ?_⟩)
    rw [if_pos (by simpa using h)]
    exact returns_pure.mpr ⟨rfl, rfl⟩

theorem synchronize_returns (hfuel : as.itp.toks.length ≤ fuel) :
    ∃ as', Returns (synchronize fuel) as () as' ∧ Resumes as as' ∧
      (as.itp.eof = false → as'.itp.toks.length < as.itp.toks.length) := by
  -- The tokens from the current one on get fewer with each call of `ITP_advance` that the loop goes on after.
  obtain ⟨toks, htoks⟩ : ∃ toks, as.itp.toks = toks := ⟨_, rfl⟩
  induction toks generalizing as fuel with
  | nil =>
    have hadv : as.itp.advance.2 = { as.itp with prev := as.itp.last } := by
      simp [ITokenParser.advance, ITokenParser.curr, htoks, ITokenParser.last]
    have heof : as.itp.eof = true := by simp [ITokenParser.eof, ITokenParser.curr, htoks, ITokenParser.last]
    have hend : as.itp.advance.2.eof = true := by
      rw [hadv]
      exact heof
    refine ⟨_, synchronize_last (.inr hend), ⟨[], by simp, .inr ⟨hend, ?_⟩⟩, fun h => ?_⟩
    · rw [hadv]
      rfl
    · exact absurd (heof.symm.trans h) (by simp)
  | cons tok toks ih =>
    by_cases hkind : tok.kind = .tokEoF
    · have hcurr : as.itp.curr.kind = .tokEoF := by rw [ITokenParser.curr, htoks, List.headD_cons, hkind]
      have hadv : as.itp.advance.2 = as.itp := by rw [ITokenParser.advance, if_pos hcurr]
      have heof : as.itp.eof = true := by simp [ITokenParser.eof, hcurr]
      have hend : as.itp.advance.2.eof = true := by
        rw [hadv]
        exact heof
      refine ⟨_, synchronize_last (.inr hend), ⟨[], by simp, .inr ⟨hend, ?_⟩⟩, fun h => ?_⟩
      · rw [hadv]
        rfl
      · exact absurd (heof.symm.trans h) (by simp)
    · have hadv := advance_cons htoks hkind
      have hless : as.itp.advance.2.toks.length < as.itp.toks.length := by
        rw [hadv, htoks]
        exact Nat.lt_succ_self _
      by_cases hnl : tok.kind = .tokNl
      · refine ⟨_, synchronize_last (.inl ?_), ⟨[], by simp, .inl ⟨tok, hnl, ?_⟩⟩, fun _ => hless⟩
        · rw [hadv]
          exact hnl
        · rw [hadv]
          exact htoks
      · cases hend : as.itp.advance.2.eof with
        | true =>
          refine ⟨_, synchronize_last (.inr hend), ⟨[tok], by simpa using hnl, .inr ⟨hend, ?_⟩⟩, fun _ => hless⟩
          rw [hadv]
          exact htoks
        | false =>
          obtain ⟨fuel, rfl⟩ : ∃ k, fuel = k + 1 := ⟨fuel - 1, by rw [htoks, List.length_cons] at hfuel; omega⟩
          let as₁ : AssemblerCtx := { as with itp := as.itp.advance.2 }
          have htoks₁ : as₁.itp.toks = toks := by rw [show as₁.itp = _ from hadv]
          have hfuel₁ : as₁.itp.toks.length ≤ fuel := by
            rw [htoks, List.length_cons] at hfuel
            rw [htoks₁]
            omega
          obtain ⟨as', hrun, hresumes, -⟩ := ih hfuel₁ htoks₁
          refine ⟨as', ?_, hresumes.cons htoks htoks₁ hnl, fun _ => lt_of_le_of_lt hresumes.toks.length_le hless⟩
          refine (returns_bind_of_returns returns_advance).mpr (returns_bind.mpr ⟨_, _, returns_get.mpr ⟨rfl, rfl⟩, ?_⟩)
          rw [if_neg]
          · exact hrun
          · rw [not_or, hend, hadv]
            exact ⟨hnl, by simp⟩

/-! ### The loop -/

/-- A pass takes a token, unless an assertion stops the assembler. -/
theorem parsePass_takes (heof : as.itp.eof = false) :
    Ends (· ≠ .exception) (fun _ as' => as'.itp.toks <:+ as.itp.toks ∧ as'.itp.toks.length < as.itp.toks.length)
      parsePass as := by
  refine ends_tryCatch (fun _ as₁ h => ?_) (fun e as₁ h he => ?_) fun e as₁ _ he => of_decide_eq_false he
  · exact ⟨(logs_parseStatement.of_returns h).toks, takes_parseStatement as _ as₁ heof h⟩
  · have hsuffix := (logs_parseStatement.of_stop h).1.toks
    obtain ⟨as', hrun, hresumes, hless⟩ := synchronize_returns (le_refl as₁.itp.toks.length)
    refine ends_of_returns (returns_bind.mpr ⟨_, _, returns_get.mpr ⟨rfl, rfl⟩, hrun⟩)
      ⟨hresumes.toks.trans hsuffix, ?_⟩
    -- An exception before the first token was taken leaves it to the recovery.
    rcases hsuffix.length_le.lt_or_eq with hlt | heq
    · exact lt_of_le_of_lt hresumes.toks.length_le hlt
    · have htoks := hsuffix.eq_of_length heq
      have hcurr : as₁.itp.eof = false := by
        obtain ⟨tok, toks, htoks', hkind⟩ := toks_of_not_eof heof
        simpa [ITokenParser.eof, ITokenParser.curr, htoks, htoks'] using hkind
      exact heq ▸ hless hcurr

/-- After an exception the pass comes to its end, and the tokens go on after a newline. -/
theorem parsePass_resumes (h : (parseStatement as).2 = .stop .exception as') :
    ∃ as'', Returns parsePass as () as'' ∧ Resumes as' as'' := by
  obtain ⟨as'', hrun, hresumes, -⟩ := synchronize_returns (le_refl as'.itp.toks.length)
  refine ⟨as'', returns_tryCatch.mpr (.inr ⟨_, _, h, rfl, ?_⟩), hresumes⟩
  exact returns_bind.mpr ⟨_, _, returns_get.mpr ⟨rfl, rfl⟩, hrun⟩

/-- Some passes of the loop, one after the other. -/
inductive Passes : Nat → AssemblerCtx → AssemblerCtx → Prop
  | start {as : AssemblerCtx} : Passes 0 as as
  | pass {n : Nat} {as as' as'' : AssemblerCtx} (h : Passes n as as') (heof : as'.itp.eof = false)
      (hpass : Returns parsePass as' () as'') : Passes (n + 1) as as''

theorem Passes.toks {n : Nat} (h : Passes n as as') :
    as'.itp.toks <:+ as.itp.toks ∧ n + as'.itp.toks.length ≤ as.itp.toks.length := by
  induction h with
  | start => exact ⟨List.suffix_refl _, by rw [Nat.zero_add]⟩
  | pass _ heof hpass ih =>
    obtain ⟨hsuffix, hless⟩ := (parsePass_takes heof).of_returns hpass
    exact ⟨hsuffix.trans ih.1, by omega⟩

theorem parseStatements_ends (hfuel : as.itp.toks.length ≤ fuel) :
    Ends (· ≠ .exception) (fun _ as' => as'.itp.eof = true ∧ ∃ n, Passes n as as') (parseStatements fuel) as := by
  suffices h : ∀ as₀ n, Passes n as₀ as →
      Ends (· ≠ .exception) (fun _ as' => as'.itp.eof = true ∧ ∃ n, Passes n as₀ as') (parseStatements fuel) as from
    h as 0 .start
  intro as₀ n hpasses
  induction fuel generalizing as n with
  | zero =>
    have htoks : as.itp.toks = [] := List.length_eq_zero_iff.mp (Nat.le_zero.mp hfuel)
    exact ⟨by simp [ITokenParser.eof, ITokenParser.curr, htoks, ITokenParser.last], n, hpasses⟩
  | succ fuel ih =>
    rw [parseStatements_succ, ends_bind, ends_get]
    cases heof : as.itp.eof with
    | true => exact ⟨heof, n, hpasses⟩
    | false =>
      rw [if_neg (by simp), ends_bind]
      refine (Ends.iff_returns ((parsePass_takes heof).mono fun _ _ _ => trivial)).mpr fun _ as₁ hrun => ?_
      have hless := ((parsePass_takes heof).of_returns hrun).2
      exact ih (by omega) (n + 1) (hpasses.pass heof hrun)

/-- Every pass takes a token or is stopped by an assertion, so that there are no more passes than tokens, and the loop
    ends at the end of the input. After an exception the parser goes on after the next newline or at the end of the
    input. -/
theorem parseStatements_progress (as : AssemblerCtx) :
    (∀ n as', Passes n as as' → n + as'.itp.toks.length ≤ as.itp.toks.length ∧ (as'.itp.eof = false →
      Ends (· ≠ .exception) (fun _ as'' => as''.itp.toks <:+ as'.itp.toks ∧
        as''.itp.toks.length < as'.itp.toks.length) parsePass as' ∧
      ∀ as₁, (parseStatement as').2 = .stop .exception as₁ → ∃ as'', Returns parsePass as' () as'' ∧ Resumes as₁ as'')) ∧
    ∀ fuel, as.itp.toks.length ≤ fuel →
      Ends (· ≠ .exception) (fun _ as' => as'.itp.eof = true ∧ ∃ n, Passes n as as') (parseStatements fuel) as :=
  ⟨fun _ _ h => ⟨h.toks.2, fun heof => ⟨parsePass_takes heof, fun _ hstop => parsePass_resumes hstop⟩⟩,
    fun _ hfuel => parseStatements_ends hfuel⟩

end AsmM

end Cyntatic
