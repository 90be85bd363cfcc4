import Cyntatic.Compiler.Itp
import Cyntatic.Theorems.LexerPositions

/-! # The token that is looked ahead

A peek reads the token that the next advance would read, and an advance takes it from there: the tokens that become
current are those that the lexer returns. -/

namespace Cyntatic
open Library Prog

namespace LexM
open Lexer
variable {strtod : Strtod} {fuel : Nat} {src : List U8} {lX lX' : Lexer} {r : TokenKind × Token}

/-! ### The end of the input -/

/-- There is nothing left but the end of the input. -/
structure AtEnd (lX : Lexer) : Prop where
  next : lX.next.kind = .tokCOUNT
  space : ¬(lX.idx < lX.src.length ∧ isSpace (lX.peek 0))
  lexeme : lexeme (lX.peek 0) (lX.peek 1) (lX.peek 2) lX.inStrExpr = .eof

theorem returns_skipSpace {tok out : Token} (hr : Returns (skipSpace tok fuel) lX out lX') :
    ¬(lX'.idx < lX'.src.length ∧ isSpace (lX'.peek 0)) ∧ lX'.next = lX.next := by
  refine returns_iterate (I := fun _ s => s.next = lX.next)
    (Q := fun _ s => ¬(s.idx < s.src.length ∧ isSpace (s.peek 0)) ∧ s.next = lX.next) ?_ rfl hr
  rintro out s x s' hI hpass
  obtain ⟨t, u, hget, hrest⟩ := returns_bind.mp hpass
  obtain ⟨rfl, rfl⟩ := returns_get.mp hget
  split at hrest
  · obtain ⟨nl, u, hnl, hmod⟩ := returns_bind.mp hrest
    obtain ⟨v, w, hstep, hend⟩ := returns_bind.mp hmod
    obtain ⟨rfl, rfl⟩ := returns_pure.mp hend
    obtain rfl := returns_modify.mp hstep
    obtain ⟨rfl, -⟩ := returns_newline hnl
    exact hI
  · rename_i hspace
    obtain ⟨rfl, rfl⟩ := returns_pure.mp hrest
    exact ⟨hspace, hI⟩

/-- A call of the lexer returns the kind of its token, except at the end of the input. -/
theorem kind_next (h : InStep src lX) (hr : Returns (next strtod fuel) lX r lX') :
    (r.2.kind = r.1 ∧ r.1 ≠ .tokEoF ∧ r.1 ≠ .tokCOUNT) ∨ r.1 = .tokEoF ∧ r.2.kind = .tokCOUNT ∧ AtEnd lX' := by
  refine returns_iterate (I := fun _ => InStep src) (Q := fun (r : TokenKind × Token) lX' =>
    (r.2.kind = r.1 ∧ r.1 ≠ .tokEoF ∧ r.1 ≠ .tokCOUNT) ∨ r.1 = .tokEoF ∧ r.2.kind = .tokCOUNT ∧ AtEnd lX') ?_ h hr
  rintro u s x s' hs hpass
  obtain ⟨t, v, hget, hrest⟩ := returns_bind.mp hpass
  obtain ⟨rfl, rfl⟩ := returns_get.mp hget
  obtain ⟨out, v, hout, hnext⟩ := returns_bind.mp hrest
  obtain ⟨-, rfl, rfl⟩ := returns_updateToken.mp hout
  split at hnext
  · -- the token that the call before has kept
    rename_i hk
    obtain ⟨v, w, -, hend⟩ := returns_bind.mp hnext
    obtain ⟨rfl, -⟩ := returns_pure.mp hend
    refine .inl ⟨rfl, ?_, hk⟩
    exact fun heof => absurd (heof.symm.trans (hs.next.resolve_left hk)) (by decide)
  · rename_i hk
    obtain ⟨nl, w, hskip, htok⟩ := returns_bind.mp hnext
    have hw := (stepwise_skipSpace.forward.of_returns hskip src hs).1
    have hkind := kind_skipSpace rfl hskip
    split at htok
    · rename_i hcount
      obtain ⟨rfl, -⟩ := returns_pure.mp htok
      have hnl := hkind.resolve_left hcount
      exact .inl ⟨rfl, fun heof => absurd (heof.symm.trans hnl) (by decide), hcount⟩
    · rename_i hcount
      obtain ⟨r, v, hlex, hend⟩ := returns_bind.mp htok
      have hv := (stepwise_tokenize.forward.of_returns hlex src hw).1
      split at hend
      · obtain ⟨rfl, rfl⟩ := returns_pure.mp hend
        exact hv
      · rename_i hsome
        obtain ⟨rfl, rfl⟩ := returns_pure.mp hend
        rcases marked_tokenize hlex with ⟨heof, rfl, heofLexeme⟩ | hcnt | ⟨⟨hkind, hne⟩, -⟩
        · obtain ⟨hspace, hkept⟩ := returns_skipSpace hskip
          subst heof
          exact .inr ⟨rfl, not_not.mp hcount, hkept ▸ not_not.mp hk, hspace, heofLexeme⟩
        · exact absurd hcnt hsome
        · exact .inl ⟨hkind, hne, hsome⟩

theorem skipSpace_atEnd {tok : Token} (h : AtEnd lX) : Returns (skipSpace tok (fuel + 1)) lX tok lX := by
  refine returns_bind.mpr ⟨.done tok, lX, returns_bind.mpr ⟨lX, lX, returns_get.mpr ⟨rfl, rfl⟩, ?_⟩, returns_pure.mpr ⟨rfl, rfl⟩⟩
  rw [if_neg h.space]
  exact returns_pure.mpr ⟨rfl, rfl⟩

/-- The token that a call begins with. -/
def blank (lX : Lexer) : Token :=
  { kind := .tokCOUNT, range := { start := lX.idx, stop := lX.idx, coord := lX.pos, source := lX.src } }

/-- At the end of the input every call returns, and stays there. -/
theorem next_atEnd (h : AtEnd lX) : Returns (next strtod (fuel + 1)) lX (.tokEoF, blank lX) lX := by
  refine returns_bind.mpr ⟨.done (.tokEoF, blank lX), lX, returns_bind.mpr ⟨lX, lX, returns_get.mpr ⟨rfl, rfl⟩,
    returns_bind.mpr ⟨(.tokCOUNT, blank lX), lX, returns_updateToken.mpr ⟨Nat.le_refl _, rfl, rfl⟩, ?_⟩⟩,
    returns_pure.mpr ⟨rfl, rfl⟩⟩
  rw [if_neg (not_not.mpr h.next)]
  refine returns_bind.mpr ⟨blank lX, lX, skipSpace_atEnd h, ?_⟩
  rw [if_neg fun hne : (blank lX).kind ≠ .tokCOUNT => hne rfl]
  refine returns_bind.mpr ⟨(.tokEoF, blank lX), lX, returns_bind.mpr ⟨lX, lX, returns_get.mpr ⟨rfl, rfl⟩, ?_⟩, ?_⟩
  · rw [h.lexeme]
    exact returns_pure.mpr ⟨rfl, rfl⟩
  · exact returns_pure.mpr ⟨rfl, rfl⟩

/-- A call that returns has made a pass. -/
theorem fuel_of_next (hr : Returns (next strtod fuel) lX r lX') : ∃ n, fuel = n + 1 := by
  cases fuel with
  | zero => exact absurd hr returns_stop
  | succ n => exact ⟨n, rfl⟩

/-- From the end of the input on there are no tokens. -/
theorem tokens_atEnd (h : AtEnd lX) (n : Nat) : Returns (tokens strtod (fuel + 1) n) lX [] lX := by
  cases n with
  | zero => exact returns_pure.mpr ⟨rfl, rfl⟩
  | succ n =>
    exact returns_bind.mpr ⟨_, _, next_atEnd h, returns_pure.mpr ⟨rfl, rfl⟩⟩

end LexM

namespace ITP
open LexM Lexer
variable {strtod : Strtod} {fuel : Nat} {src : List U8} {lX lX' : Lexer} {itp : Itp} {op : Op} {ops : List Op}
  {trace : List Event} {r : Token × Itp}

/-! ### The parser in a run -/

/-- What is in the parser between two calls: no token has the kind `tokEoF`, also at the end of the input. -/
structure Sound (itp : Itp) : Prop where
  curr : itp.curr.kind ≠ .tokEoF
  peek : itp.peek.kind ≠ .tokEoF

/-- What the lexer is still asked for: what is looked ahead is not. -/
def upcoming (strtod : Strtod) (fuel : Nat) (itp : Itp) : Nat → LexM (List Token)
  | 0 => return []
  | n + 1 =>
    if itp.peek.kind = .tokCOUNT then tokens strtod fuel (n + 1)
    else do
      let toks ← tokens strtod fuel n
      return itp.peek :: toks

/-- The tokens that become current in a run. -/
def currents (trace : List Event) : List Token := (trace.filter (·.op = .advance)).map (·.after.curr)

theorem returns_run_cons {lX' : Lexer} : Returns (run strtod fuel (op :: ops) itp) lX trace lX' ↔
    ∃ r t rest, Returns (op.call strtod fuel itp) lX r t ∧ Returns (run strtod fuel ops r.2) t rest lX' ∧
      trace = ⟨op, r.1, itp, r.2⟩ :: rest := by
  simp only [run, returns_bind, returns_pure]
  constructor
  · rintro ⟨r, t, hcall, rest, u, hrun, rfl, rfl⟩
    exact ⟨r, t, rest, hcall, hrun, rfl⟩
  · rintro ⟨r, t, rest, hcall, hrun, rfl⟩
    exact ⟨r, t, hcall, rest, lX', hrun, rfl, rfl⟩

/-- What a peek does. -/
theorem peek_iff (hs : Sound itp) : Returns (ITP.peek strtod fuel itp) lX r lX' ↔
    (itp.peek.kind ≠ .tokCOUNT ∧ r = (itp.peek, itp) ∧ lX' = lX) ∨
      itp.peek.kind = .tokCOUNT ∧ ∃ kind tok, Returns (next strtod fuel) lX (kind, tok) lX' ∧ r = (tok, { itp with peek := tok }) := by
  unfold ITP.peek
  rw [if_neg hs.curr]
  split
  · rename_i hk
    rw [returns_bind]
    constructor
    · rintro ⟨⟨kind, tok⟩, t, hnext, hend⟩
      obtain ⟨rfl, rfl⟩ := returns_pure.mp hend
      exact .inr ⟨hk, kind, tok, hnext, rfl⟩
    · rintro (⟨hne, -⟩ | ⟨-, kind, tok, hnext, rfl⟩)
      · exact absurd hk hne
      · exact ⟨(kind, tok), lX', hnext, returns_pure.mpr ⟨rfl, rfl⟩⟩
  · rename_i hk
    rw [returns_pure]
    exact ⟨fun h => .inl ⟨hk, h⟩, fun h => h.elim (·.2) fun h => absurd h.1 hk⟩

/-- What an advance does. -/
theorem advance_iff (hs : Sound itp) : Returns (ITP.advance strtod fuel itp) lX r lX' ↔
    (itp.peek.kind ≠ .tokCOUNT ∧
      r = (itp.curr, { curr := itp.peek, peek := { itp.peek with kind := .tokCOUNT }, prev := itp.curr }) ∧ lX' = lX) ∨
      itp.peek.kind = .tokCOUNT ∧ ∃ kind tok, Returns (next strtod fuel) lX (kind, tok) lX' ∧
        r = (itp.curr, { itp with curr := tok, prev := itp.curr }) := by
  unfold ITP.advance
  rw [if_neg hs.curr]
  split
  · rename_i hk
    rw [returns_pure]
    exact ⟨fun h => .inl ⟨hk, h⟩, fun h => h.elim (·.2) fun h => absurd h.1 hk⟩
  · rename_i hk
    rw [returns_bind]
    constructor
    · rintro ⟨⟨kind, tok⟩, t, hnext, hend⟩
      obtain ⟨rfl, rfl⟩ := returns_pure.mp hend
      exact .inr ⟨not_not.mp hk, kind, tok, hnext, rfl⟩
    · rintro (⟨hne, -⟩ | ⟨-, kind, tok, hnext, rfl⟩)
      · exact absurd hne hk
      · exact ⟨(kind, tok), lX', hnext, returns_pure.mpr ⟨rfl, rfl⟩⟩

theorem ne_eof_of_next {kind : TokenKind} {tok : Token} (h : InStep src lX)
    (hr : Returns (next strtod fuel) lX (kind, tok) lX') : tok.kind ≠ .tokEoF := by
  rcases kind_next h hr with ⟨hkind, hne, -⟩ | ⟨-, hkind, -⟩
  · exact fun heof => hne (hkind.symm.trans heof)
  · exact fun heof => absurd (heof.symm.trans hkind) (by decide)

theorem call_sound (h : InStep src lX) (hs : Sound itp) (hr : Returns (op.call strtod fuel itp) lX r lX') :
    InStep src lX' ∧ Sound r.2 := by
  cases op with
  | peek =>
    rcases (peek_iff hs).mp hr with ⟨-, rfl, rfl⟩ | ⟨-, kind, tok, hnext, rfl⟩
    · exact ⟨h, hs⟩
    · exact ⟨(stepwise_next.forward.of_returns hnext src h).1, hs.curr, ne_eof_of_next h hnext⟩
  | advance =>
    rcases (advance_iff hs).mp hr with ⟨-, rfl, rfl⟩ | ⟨-, kind, tok, hnext, rfl⟩
    · exact ⟨h, hs.peek, by simp⟩
    · exact ⟨(stepwise_next.forward.of_returns hnext src h).1, ne_eof_of_next h hnext, hs.peek⟩

/-! ### The tokens that become current -/

/-- An event's contribution to the tokens that become current. -/
theorem currents_cons {e : Event} : currents (e :: trace) =
    if e.op = .advance then e.after.curr :: currents trace else currents trace := by
  unfold currents
  by_cases he : e.op = .advance
  · simp [he]
  · simp [he]

/-- The first call of the lexer, and those after it. -/
theorem returns_tokens_succ {n : Nat} {toks : List Token} {kind : TokenKind} {tok : Token} {lX₁ : Lexer}
    (hr : Returns (next strtod fuel) lX (kind, tok) lX₁) (hne : kind ≠ .tokEoF)
    (h : Returns (tokens strtod fuel n) lX₁ toks lX') : Returns (tokens strtod fuel (n + 1)) lX (tok :: toks) lX' := by
  refine returns_bind.mpr ⟨_, _, hr, ?_⟩
  rw [if_neg hne]
  exact returns_bind.mpr ⟨toks, _, h, returns_pure.mpr ⟨rfl, rfl⟩⟩

theorem returns_tokens_eof {n : Nat} {tok : Token} (hr : Returns (next strtod fuel) lX (.tokEoF, tok) lX') :
    Returns (tokens strtod fuel (n + 1)) lX [] lX' :=
  returns_bind.mpr ⟨_, _, hr, returns_pure.mpr ⟨rfl, rfl⟩⟩

theorem isEof_eq_false {tok : Token} {kind : TokenKind} (hkind : tok.kind = kind ∧ kind ≠ .tokEoF ∧ kind ≠ .tokCOUNT) :
    tok.isEof = false := by
  obtain ⟨rfl, h1, h2⟩ := hkind
  simp [Token.isEof, h1, h2]

theorem isEof_of_count {tok : Token} (hkind : tok.kind = .tokCOUNT) : tok.isEof = true := by
  simp [Token.isEof, hkind]

theorem returns_upcoming_of_count {n : Nat} {toks : List Token} (hk : itp.peek.kind = .tokCOUNT) :
    Returns (upcoming strtod fuel itp n) lX toks lX' ↔ Returns (tokens strtod fuel n) lX toks lX' := by
  cases n with
  | zero => exact Iff.rfl
  | succ n => rw [upcoming, if_pos hk]

theorem returns_upcoming_succ {n : Nat} {toks : List Token} (hk : itp.peek.kind ≠ .tokCOUNT) :
    Returns (upcoming strtod fuel itp (n + 1)) lX toks lX' ↔
      ∃ rest, Returns (tokens strtod fuel n) lX rest lX' ∧ toks = itp.peek :: rest := by
  rw [upcoming, if_neg hk, returns_bind]
  constructor
  · rintro ⟨rest, t, h, hend⟩
    obtain ⟨rfl, rfl⟩ := returns_pure.mp hend
    exact ⟨rest, h, rfl⟩
  · rintro ⟨rest, h, rfl⟩
    exact ⟨rest, _, h, returns_pure.mpr ⟨rfl, rfl⟩⟩

/-- A peek moves the next call of the lexer ahead. -/
theorem upcoming_peek {kind : TokenKind} {tok : Token} {toks : List Token} {lX₁ : Lexer} {n : Nat} (h : InStep src lX)
    (hk : itp.peek.kind = .tokCOUNT) (hnext : Returns (next strtod fuel) lX (kind, tok) lX₁)
    (hu : Returns (upcoming strtod fuel { itp with peek := tok } n) lX₁ toks lX') :
    ∃ lX'', Returns (upcoming strtod fuel itp n) lX toks lX'' := by
  cases n with
  | zero =>
    obtain ⟨rfl, -⟩ := returns_pure.mp hu
    exact ⟨lX, returns_pure.mpr ⟨rfl, rfl⟩⟩
  | succ n =>
    simp only [returns_upcoming_of_count hk]
    rcases kind_next h hnext with ⟨hkind, hne, hcount⟩ | ⟨rfl, hkind, hend⟩
    · obtain ⟨rest, hrest, rfl⟩ := (returns_upcoming_succ fun heq => hcount (hkind.symm.trans heq)).mp hu
      exact ⟨lX', returns_tokens_succ hnext hne hrest⟩
    · obtain ⟨k, rfl⟩ := fuel_of_next hnext
      obtain ⟨rfl, -⟩ := (tokens_atEnd hend (n + 1)).unique ((returns_upcoming_of_count hkind).mp hu)
      exact ⟨lX₁, returns_tokens_eof hnext⟩

/-- The tokens that become current in a run are those that the lexer is still asked for. -/
theorem run_currents (h : InStep src lX) (hs : Sound itp) (hr : Returns (run strtod fuel ops itp) lX trace lX') :
    ∃ lX'', Returns (upcoming strtod fuel itp (currents trace).length) lX
      ((currents trace).takeWhile (!·.isEof)) lX'' := by
  induction ops generalizing itp lX trace with
  | nil =>
    obtain ⟨rfl, rfl⟩ := returns_pure.mp hr
    exact ⟨_, returns_pure.mpr ⟨rfl, rfl⟩⟩
  | cons op ops ih =>
    obtain ⟨r, t, rest, hcall, hrun, rfl⟩ := returns_run_cons.mp hr
    obtain ⟨ht, hsound⟩ := call_sound h hs hcall
    obtain ⟨u, hu⟩ := ih ht hsound hrun
    rw [currents_cons]
    cases op with
    | peek =>
      rw [if_neg (by simp)]
      rcases (peek_iff hs).mp hcall with ⟨-, rfl, rfl⟩ | ⟨hk, kind, tok, hnext, rfl⟩
      · exact ⟨u, hu⟩
      · exact upcoming_peek h hk hnext hu
    | advance =>
      rw [if_pos rfl]
      rcases (advance_iff hs).mp hcall with ⟨hk, rfl, rfl⟩ | ⟨hk, kind, tok, hnext, rfl⟩
      · have hu := (returns_upcoming_of_count rfl).mp hu
        rw [List.takeWhile_cons_of_pos (by simp [isEof_eq_false ⟨rfl, hs.peek, hk⟩])]
        exact ⟨u, (returns_upcoming_succ hk).mpr ⟨_, hu, rfl⟩⟩
      · have hu := (returns_upcoming_of_count hk).mp hu
        simp only [returns_upcoming_of_count hk]
        rcases kind_next h hnext with hkind | ⟨rfl, hkind, -⟩
        · rw [List.takeWhile_cons_of_pos (by simp [isEof_eq_false hkind])]
          exact ⟨u, returns_tokens_succ hnext hkind.2.1 hu⟩
        · rw [List.takeWhile_cons_of_neg (by simp [isEof_of_count hkind])]
          exact ⟨t, returns_tokens_eof hnext⟩

/-- What is left of the tokens after the first call. -/
theorem tokens_after {n : Nat} {toks : List Token} {lX₁ : Lexer} (h : InStep src lX)
    (ht : Returns (tokens strtod fuel (n + 1)) lX toks lX₁) : ∃ kind tok t, Returns (next strtod fuel) lX (kind, tok) t ∧
      ∃ rest u, Returns (tokens strtod fuel n) t rest u ∧
        (tok.kind = .tokCOUNT → Returns (tokens strtod fuel (n + 1)) t [] t) := by
  obtain ⟨⟨kind, tok⟩, t, hnext, hrest⟩ := returns_bind.mp ht
  obtain ⟨k, rfl⟩ := fuel_of_next hnext
  rcases kind_next h hnext with ⟨hkind, hne, hcount⟩ | ⟨rfl, hkind, hend⟩
  · rw [if_neg hne] at hrest
    obtain ⟨rest, u, hu, -⟩ := returns_bind.mp hrest
    exact ⟨kind, tok, t, hnext, rest, u, hu, fun hk => absurd (hkind.symm.trans hk) hcount⟩
  · exact ⟨_, tok, t, hnext, [], t, tokens_atEnd hend n, fun _ => tokens_atEnd hend (n + 1)⟩

/-- One call, and then the rest. -/
theorem exists_run_cons {t : Lexer} (hcall : Returns (op.call strtod fuel itp) lX r t)
    (hrest : ∃ trace lX', Returns (run strtod fuel ops r.2) t trace lX') :
    ∃ trace lX', Returns (run strtod fuel (op :: ops) itp) lX trace lX' := by
  obtain ⟨trace, lX', hrun⟩ := hrest
  exact ⟨_, lX', returns_run_cons.mpr ⟨r, t, trace, hcall, hrun, rfl⟩⟩

/-- The parser goes on for as long as the lexer does. -/
theorem returns_run {toks : List Token} {lX₁ : Lexer} (h : InStep src lX) (hs : Sound itp)
    (hu : Returns (upcoming strtod fuel itp (ops.count .advance + 1)) lX toks lX₁) :
    ∃ trace lX', Returns (run strtod fuel ops itp) lX trace lX' := by
  induction ops generalizing itp lX toks lX₁ with
  | nil => exact ⟨[], lX, returns_pure.mpr ⟨rfl, rfl⟩⟩
  | cons op ops ih =>
    cases op with
    | peek =>
      rw [List.count_cons_of_ne (by simp)] at hu
      by_cases hk : itp.peek.kind = .tokCOUNT
      · obtain ⟨kind, tok, t, hnext, rest, u, hrest, hcount⟩ := tokens_after h ((returns_upcoming_of_count hk).mp hu)
        have hcall : Returns (Op.peek.call strtod fuel itp) lX (tok, { itp with peek := tok }) t :=
          (peek_iff hs).mpr (.inr ⟨hk, kind, tok, hnext, rfl⟩)
        obtain ⟨ht, hsound⟩ := call_sound h hs hcall
        refine exists_run_cons hcall ?_
        by_cases htok : tok.kind = .tokCOUNT
        · exact ih ht hsound ((returns_upcoming_of_count htok).mpr (hcount htok))
        · exact ih ht hsound ((returns_upcoming_succ htok).mpr ⟨rest, hrest, rfl⟩)
      · exact exists_run_cons ((peek_iff hs).mpr (.inl ⟨hk, rfl, rfl⟩)) (ih h hs hu)
    | advance =>
      rw [List.count_cons_self] at hu
      by_cases hk : itp.peek.kind = .tokCOUNT
      · obtain ⟨kind, tok, t, hnext, rest, u, hrest, -⟩ := tokens_after h ((returns_upcoming_of_count hk).mp hu)
        have hcall : Returns (Op.advance.call strtod fuel itp) lX (itp.curr, { itp with curr := tok, prev := itp.curr }) t :=
          (advance_iff hs).mpr (.inr ⟨hk, kind, tok, hnext, rfl⟩)
        obtain ⟨ht, hsound⟩ := call_sound h hs hcall
        exact exists_run_cons hcall (ih ht hsound ((returns_upcoming_of_count hk).mpr hrest))
      · obtain ⟨rest, hrest, -⟩ := (returns_upcoming_succ hk).mp hu
        have hcall : Returns (Op.advance.call strtod fuel itp) lX
            (itp.curr, { curr := itp.peek, peek := { itp.peek with kind := .tokCOUNT }, prev := itp.curr }) lX :=
          (advance_iff hs).mpr (.inl ⟨hk, rfl, rfl⟩)
        obtain ⟨ht, hsound⟩ := call_sound h hs hcall
        exact exists_run_cons hcall (ih ht hsound ((returns_upcoming_of_count rfl).mpr hrest))

/-! ### What a trace shows -/

theorem run_split {pre rest : List Event} {e : Event} (h : InStep src lX) (hs : Sound itp)
    (hr : Returns (run strtod fuel ops itp) lX (pre ++ e :: rest) lX') :
    ∃ ops' t, InStep src t ∧ Sound e.before ∧ Returns (run strtod fuel ops' e.before) t (e :: rest) lX' := by
  induction pre generalizing ops itp lX with
  | nil =>
    cases ops with
    | nil => cases (returns_pure.mp hr).1
    | cons op ops =>
      obtain ⟨r, t, rest', hcall, hrun, heq⟩ := returns_run_cons.mp hr
      obtain ⟨rfl, rfl⟩ := List.cons.inj heq
      exact ⟨_, lX, h, hs, hr⟩
  | cons x pre ih =>
    cases ops with
    | nil => cases (returns_pure.mp hr).1
    | cons op ops =>
      obtain ⟨r, t, rest', hcall, hrun, heq⟩ := returns_run_cons.mp hr
      obtain ⟨rfl, rfl⟩ := List.cons.inj heq
      obtain ⟨ht, hsound⟩ := call_sound h hs hcall
      exact ih ht hsound hrun

/-- Peeks keep the token that was current before, and what is looked ahead. -/
theorem run_peeks {mid rest : List Event} (h : InStep src lX) (hs : Sound itp) (hmid : ∀ x ∈ mid, x.op = .peek)
    (hr : Returns (run strtod fuel ops itp) lX (mid ++ rest) lX') : (∀ x ∈ mid, x.after.prev = itp.prev) ∧
      ∃ ops' itp' t, InStep src t ∧ Sound itp' ∧ (itp.peek.kind ≠ .tokCOUNT → itp' = itp) ∧
        Returns (run strtod fuel ops' itp') t rest lX' := by
  induction mid generalizing ops itp lX with
  | nil => exact ⟨by simp, ops, itp, lX, h, hs, fun _ => rfl, hr⟩
  | cons x mid ih =>
    cases ops with
    | nil => cases (returns_pure.mp hr).1
    | cons op ops =>
      obtain ⟨r, t, rest', hcall, hrun, heq⟩ := returns_run_cons.mp hr
      obtain ⟨rfl, rfl⟩ := List.cons.inj heq
      obtain ⟨ht, hsound⟩ := call_sound h hs hcall
      obtain rfl : op = .peek := hmid _ (List.mem_cons_self ..)
      obtain ⟨hprev, ops', itp', u, hu, hitp', hkeep, hrest⟩ := ih ht hsound (fun x hx => hmid x (List.mem_cons_of_mem _ hx)) hrun
      have hafter : r.2.prev = itp.prev ∧ (itp.peek.kind ≠ .tokCOUNT → r.2 = itp) := by
        rcases (peek_iff hs).mp hcall with ⟨-, rfl, rfl⟩ | ⟨hk, kind, tok, hnext, rfl⟩
        · exact ⟨rfl, fun _ => rfl⟩
        · exact ⟨rfl, fun hne => absurd hk hne⟩
      refine ⟨fun y hy => ?_, ops', itp', u, hu, hitp', fun hk => ?_, hrest⟩
      · rcases List.mem_cons.mp hy with rfl | hy
        · exact hafter.1
        · rw [hprev y hy, hafter.1]
      · have heq := hafter.2 hk
        rw [hkeep (heq.symm ▸ hk), heq]

/-- Each peek that does not reach the end of the input returns the token that the next advance makes current. -/
def PeeksAhead (trace : List Event) : Prop :=
  ∀ pre e mid a post, trace = pre ++ e :: (mid ++ a :: post) → e.op = .peek → (∀ x ∈ mid, x.op = .peek) →
    a.op = .advance → e.result.isEof = false → a.after.curr = e.result

/-- The token before is the one that was current before the last advance. -/
def KeepsPrev (trace : List Event) : Prop :=
  ∀ pre a mid post, trace = pre ++ a :: (mid ++ post) → a.op = .advance → (∀ x ∈ mid, x.op = .peek) →
    ∀ x ∈ a :: mid, x.after.prev = a.before.curr

theorem run_peeksAhead (h : InStep src lX) (hs : Sound itp) (hr : Returns (run strtod fuel ops itp) lX trace lX') :
    PeeksAhead trace := by
  rintro pre e mid a post rfl hpeek hmid hadvance hresult
  obtain ⟨ops₁, t, ht, hsound, hrun⟩ := run_split h hs hr
  cases ops₁ with
  | nil => cases (returns_pure.mp hrun).1
  | cons op ops₁ =>
    obtain ⟨r, u, rest, hcall, hrest, heq⟩ := returns_run_cons.mp hrun
    obtain ⟨he, rfl⟩ := List.cons.inj heq
    obtain ⟨hu, hsound'⟩ := call_sound ht hsound hcall
    obtain rfl : op = .peek := by rw [← hpeek, he]
    have hresult' : r.1 = e.result := by rw [he]
    have hahead : r.2.peek = r.1 ∧ r.2.peek.kind ≠ .tokCOUNT := by
      rcases (peek_iff hsound).mp hcall with ⟨hk, rfl, -⟩ | ⟨-, kind, tok, -, rfl⟩
      · exact ⟨rfl, hk⟩
      · refine ⟨rfl, fun hk => ?_⟩
        rw [← hresult', isEof_of_count hk] at hresult
        cases hresult
    obtain ⟨-, ops₂, itp₂, v, -, hsound₂, hkeep, hadv⟩ := run_peeks hu hsound' hmid hrest
    obtain rfl := hkeep hahead.2
    cases ops₂ with
    | nil => cases (returns_pure.mp hadv).1
    | cons op ops₂ =>
      obtain ⟨r', w, rest', hcall', -, heq'⟩ := returns_run_cons.mp hadv
      obtain ⟨rfl, rfl⟩ := List.cons.inj heq'
      obtain rfl : op = .advance := hadvance
      rcases (advance_iff hsound').mp hcall' with ⟨-, rfl, -⟩ | ⟨hk, -⟩
      · exact hahead.1.trans hresult'
      · exact absurd hk hahead.2

theorem run_keepsPrev (h : InStep src lX) (hs : Sound itp) (hr : Returns (run strtod fuel ops itp) lX trace lX') :
    KeepsPrev trace := by
  rintro pre a mid post rfl hadvance hmid x hx
  obtain ⟨ops₁, t, ht, hsound, hrun⟩ := run_split h hs hr
  cases ops₁ with
  | nil => cases (returns_pure.mp hrun).1
  | cons op ops₁ =>
    obtain ⟨r, u, rest, hcall, hrest, heq⟩ := returns_run_cons.mp hrun
    obtain ⟨ha, rfl⟩ := List.cons.inj heq
    obtain ⟨hu, hsound'⟩ := call_sound ht hsound hcall
    obtain rfl : op = .advance := by rw [← hadvance, ha]
    have hprev : r.2.prev = a.before.curr := by
      rcases (advance_iff hsound).mp hcall with ⟨-, rfl, -⟩ | ⟨-, kind, tok, -, rfl⟩ <;> rfl
    rcases List.mem_cons.mp hx with rfl | hx
    · rw [ha]
      exact hprev
    · rw [(run_peeks hu hsound' hmid hrest).1 x hx, hprev]

/-- The parser before the first call, with nothing looked ahead. -/
def opened (tok : Token) : Itp where
  curr := tok
  peek := { kind := .tokCOUNT, range := { start := 0, stop := 0, source := [] } }
  prev := { kind := .tokEoF, range := { start := 0, stop := 0, source := [] } }

theorem init_iff : Returns (init strtod fuel) lX itp lX' ↔
    ∃ kind tok, Returns (next strtod fuel) lX (kind, tok) lX' ∧ itp = opened tok := by
  unfold init
  rw [returns_bind]
  constructor
  · rintro ⟨⟨kind, tok⟩, t, hnext, hend⟩
    obtain ⟨rfl, rfl⟩ := returns_pure.mp hend
    exact ⟨kind, tok, hnext, rfl⟩
  · rintro ⟨kind, tok, hnext, rfl⟩
    exact ⟨(kind, tok), lX', hnext, returns_pure.mpr ⟨rfl, rfl⟩⟩

theorem sound_opened {kind : TokenKind} {tok : Token} (h : InStep src lX)
    (hnext : Returns (next strtod fuel) lX (kind, tok) lX') : Sound (opened tok) :=
  ⟨ne_eof_of_next h hnext, by simp [opened]⟩

theorem session_iff {lX : Lexer} : Returns (session strtod fuel ops) lX (itp, trace) lX' ↔
    ∃ t, Returns (init strtod fuel) lX itp t ∧ Returns (run strtod fuel ops itp) t trace lX' := by
  unfold session
  simp only [returns_bind, returns_pure, Prod.mk.injEq]
  constructor
  · rintro ⟨_, t, hinit, _, _, hrun, ⟨rfl, rfl⟩, rfl⟩
    exact ⟨t, hinit, hrun⟩
  · rintro ⟨t, hinit, hrun⟩
    exact ⟨itp, t, hinit, trace, lX', hrun, ⟨rfl, rfl⟩, rfl⟩

theorem length_currents (hr : Returns (run strtod fuel ops itp) lX trace lX') :
    (currents trace).length = ops.count .advance := by
  induction ops generalizing itp lX trace with
  | nil =>
    obtain ⟨rfl, -⟩ := returns_pure.mp hr
    rfl
  | cons op ops ih =>
    obtain ⟨r, t, rest, -, hrun, rfl⟩ := returns_run_cons.mp hr
    rw [currents_cons]
    cases op with
    | peek => rw [if_neg (by simp), List.count_cons_of_ne (by simp), ih hrun]
    | advance => rw [if_pos rfl, List.count_cons_self, List.length_cons, ih hrun]

end ITP

/-- Whatever is looked ahead, the parser runs for as long as the lexer does, its current tokens are those of the lexer up
    to the end of the input, what is looked ahead comes next, and what was current is kept. -/
theorem ITP.session_transparent (strtod : LexM.Strtod) (fuel : Nat) (log : Log) (erange : Bool) (src : List U8)
    (ops : List ITP.Op) :
    (∀ toks lX, Returns (LexM.tokens strtod fuel (ops.count .advance + 2)) (Lexer.init log erange src) toks lX →
      ∃ itp trace lX', Returns (session strtod fuel ops) (Lexer.init log erange src) (itp, trace) lX') ∧
    ∀ itp trace lX, Returns (session strtod fuel ops) (Lexer.init log erange src) (itp, trace) lX →
      (∃ lX', Returns (LexM.tokens strtod fuel (ops.count .advance + 1)) (Lexer.init log erange src)
        ((itp.curr :: currents trace).takeWhile (!·.isEof)) lX') ∧ PeeksAhead trace ∧ KeepsPrev trace := by
  have hinit : Lexer.InStep src (Lexer.init log erange src) := Lexer.inStep_init log erange
  constructor
  · intro toks lX htoks
    obtain ⟨kind, tok, t, hnext, rest, u, hrest, -⟩ := tokens_after hinit htoks
    have ht := (LexM.stepwise_next.forward.of_returns hnext src hinit).1
    obtain ⟨trace, lX', hrun⟩ := returns_run ht (sound_opened hinit hnext) ((returns_upcoming_of_count rfl).mpr hrest)
    exact ⟨_, trace, lX', session_iff.mpr ⟨t, init_iff.mpr ⟨kind, tok, hnext, rfl⟩, hrun⟩⟩
  · intro itp trace lX hr
    obtain ⟨t, hi, hrun⟩ := session_iff.mp hr
    obtain ⟨kind, tok, hnext, rfl⟩ := init_iff.mp hi
    have ht := (LexM.stepwise_next.forward.of_returns hnext src hinit).1
    have hs := sound_opened hinit hnext
    refine ⟨?_, run_peeksAhead ht hs hrun, run_keepsPrev ht hs hrun⟩
    obtain ⟨u, hu⟩ := run_currents ht hs hrun
    have hu := (returns_upcoming_of_count rfl).mp hu
    rw [length_currents hrun] at hu
    rcases LexM.kind_next hinit hnext with hkind | ⟨rfl, hkind, -⟩
    · rw [List.takeWhile_cons_of_pos (by simp [opened, isEof_eq_false hkind])]
      exact ⟨u, returns_tokens_succ hnext hkind.2.1 hu⟩
    · rw [List.takeWhile_cons_of_neg (by simp [opened, isEof_of_count hkind])]
      exact ⟨t, returns_tokens_eof hnext⟩

/-- `a b`, with a peek before the advance -/
theorem ITP.session_transparent_two : ∃ itp trace lX,
    Returns (session (fun _ => ⟨0, false, 0⟩) 4 [.peek, .advance]) (Lexer.init {} false (ascii ['a', ' ', 'b'])) (itp, trace) lX ∧
      trace.map (·.result.text) = [ascii ['b'], ascii ['a']] ∧ PeeksAhead trace ∧ KeepsPrev trace := by
  obtain ⟨r, lX, hr, htext⟩ := Prog.exists_of_passes (m := session (fun _ => ⟨0, false, 0⟩) 4 [.peek, .advance])
    (s := Lexer.init {} false (ascii ['a', ' ', 'b']))
    (p := fun r _ => r.2.map (·.result.text) = [ascii ['b'], ascii ['a']]) (by decide +kernel)
  obtain ⟨-, hahead, hprev⟩ := (session_transparent _ _ _ _ _ _).2 r.1 r.2 lX hr
  exact ⟨r.1, r.2, lX, hr, of_decide_eq_true htext, hahead, hprev⟩

end Cyntatic
