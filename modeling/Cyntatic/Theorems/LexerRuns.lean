import Cyntatic.Theorems.LexerFaults

/-! # Calls of the lexer

A pass of `Lexer_next` comes to the end of the source, aborts, or brings the lexer nearer to the end, but for the literals
at which it stops. So there are only so many passes, in one call and in all of them. -/

namespace Cyntatic
open Library Prog

namespace LexM
open Lexer

variable {src : List U8} {lX lX' : Lexer} {fuel : Nat} {strtod : Strtod} {E : LexStop → Prop}

/-! ### Passes -/

/-- After a pass the lexer is nearer to the end of the source, unless it has found it. -/
def GoesOn (src : List U8) (lX : Lexer) (x : Pass Unit (TokenKind × Token)) (lX' : Lexer) : Prop :=
  InStep src lX' ∧ x.Ensures (fun _ => lX'.toGo < lX.toGo) fun r => r.1 = .tokEoF ∨ lX'.toGo < lX.toGo

theorem goesOn_toPass {r : TokenKind × Token} (hs : InStep src lX') (h : r.1 = .tokEoF ∨ lX'.toGo < lX.toGo) :
    GoesOn src lX (toPass r) lX' := by
  refine ⟨hs, ?_⟩
  unfold toPass
  split
  · rename_i hcount
    rw [hcount] at h
    exact h.resolve_left (by decide)
  · exact h

/-- The token that the call before has kept. -/
theorem ends_kept (hs : InStep src lX) (hnext : lX.next.kind ≠ .tokCOUNT) :
    Ends E (GoesOn src lX) (round strtod fuel) lX := by
  refine ends_bind_of_returns (returns_get.mpr ⟨rfl, rfl⟩) (ends_bind_of_returns (returns_updateToken.mpr ⟨Nat.le_refl _, rfl, rfl⟩) ?_)
  rw [if_pos hnext]
  refine ends_bind.mpr (ends_modify.mpr (ends_pure.mpr ⟨⟨hs.src_eq, hs.idx_le, hs.pos_eq, .inl rfl⟩, .inr ?_⟩))
  simp only [Lexer.toGo, if_neg hnext, if_pos]
  omega

theorem ends_newline (hs : InStep src lX) (hfuel : src.length < fuel) (hnext : lX.next.kind = .tokCOUNT)
    (hnl : chr '\n' ∈ lX.left.takeWhile isSpace) : Ends E (GoesOn src lX) (round strtod fuel) lX := by
  have hlen := hs.length_left
  have htake := (List.takeWhile_prefix isSpace (l := lX.left)).length_le
  have hpos := List.length_pos_of_mem hnl
  obtain ⟨out, hskip, hout⟩ := @skipSpace_ends _ _ fuel (emptyToken lX) hs (by omega)
  rw [if_pos ⟨rfl, hnl⟩] at hout
  refine ends_bind_of_returns (returns_get.mpr ⟨rfl, rfl⟩) (ends_bind_of_returns (returns_updateToken.mpr ⟨Nat.le_refl _, rfl, rfl⟩) ?_)
  rw [if_neg (not_not.mpr hnext)]
  refine ends_bind_of_returns hskip ?_
  rw [if_pos (by rw [hout]; decide)]
  have hadv := hs.advance (lX.left.takeWhile isSpace).length
  exact ends_pure.mpr ⟨hadv, .inr (toGo_lt hs hadv (by rw [hs.idx_advance htake]; omega))⟩

/-- A pass that comes to a lexeme stops at its faults, and if there are none it goes on or aborts. -/
theorem concludes_round (hs : InStep src lX) (hfuel : src.length < fuel) :
    (∀ e, lX.Faulty e → Ends (· = e) (fun _ _ => False) (round strtod fuel) lX) ∧
      ((∀ e, ¬lX.Faulty e) → Ends Regular (GoesOn src lX) (round strtod fuel) lX) := by
  by_cases hnext : lX.next.kind = .tokCOUNT
  · by_cases hnl : chr '\n' ∈ lX.left.takeWhile isSpace
    · exact ⟨fun e he => absurd hnl he.newline, fun _ => ends_newline hs hfuel hnext hnl⟩
    · have hlex : ∀ t, Skips lX (lX.left.takeWhile isSpace).length t → t.left = lX.left.dropWhile isSpace →
          InStep src t ∧ lX.idx ≤ t.idx ∧ Concludes Regular src
            (if lexemeOf (lX.left.dropWhile isSpace) lX.inStrExpr = .eof then t.idx else t.idx + 1)
            (fun e => (lexemeOf (lX.left.dropWhile isSpace) lX.inStrExpr).Fault lX.inStrExpr (lX.left.dropWhile isSpace) e)
            (tokLexeme strtod fuel (emptyToken lX) t (lexemeOf (lX.left.dropWhile isSpace) lX.inStrExpr)) t := by
        intro t ht hleft
        have hts := ht.inStep hs
        have hstarts : (lexemeOf (lX.left.dropWhile isSpace) lX.inStrExpr).Starts (t.peek 0) (t.peek 1) := by
          rw [peek_zero, peek_eq, hleft]
          exact lexeme_starts
        have hconcludes := @concludes_tokLexeme _ _ _ (emptyToken lX) strtod _ hts hfuel hstarts
        rw [hleft, ht.inStrExpr] at hconcludes
        exact ⟨hts, ht.le hs, hconcludes⟩
      refine ⟨fun e he => ?_, fun hno => ?_⟩
      · refine ends_round_of hs hfuel hnext hnl fun t ht hleft => ?_
        exact (hlex t ht hleft).2.2.fails e he.fault
      · refine ends_round_of hs hfuel hnext hnl fun t ht hleft => ?_
        obtain ⟨hts, hle, hconcludes⟩ := hlex t ht hleft
        by_cases heof : lexemeOf (lX.left.dropWhile isSpace) lX.inStrExpr = .eof
        · rw [heof]
          exact ends_pure.mpr (goesOn_toPass hts (.inl rfl))
        · rw [if_neg heof] at hconcludes
          refine (hconcludes.ends fun e he => hno e ⟨hnext, hnl, he⟩).mono fun r u hu => ?_
          exact goesOn_toPass hu.1 (.inr (toGo_lt hs hu.1 (by omega)))
  · exact ⟨fun e he => absurd he.next hnext, fun _ => ends_kept hs hnext⟩

/-- A pass stops for the reasons of the faults before it. -/
theorem faults_of_ends {Q : Pass Unit (TokenKind × Token) → Lexer → Prop} (hs : InStep src lX) (hfuel : src.length < fuel)
    (h : Ends E Q (round strtod fuel) lX) : ∀ e, lX.Faulty e → E e := by
  intro e he
  have hfails := (@concludes_round _ _ _ strtod hs hfuel).1 e he
  exact ((h.and hfails).imp (fun _ h' => h'.2 ▸ h'.1) fun _ _ h' => h'.2.elim).elim

/-- Where these are reasons in `E`, it goes on or stops for such a reason. -/
theorem ends_round (hs : InStep src lX) (hfuel : src.length < fuel) (habort : E .abort) (h : ∀ e, lX.Faulty e → E e) :
    Ends E (GoesOn src lX) (round strtod fuel) lX := by
  obtain ⟨hfails, hgoes⟩ := @concludes_round _ _ _ strtod hs hfuel
  by_cases hno : ∃ e, lX.Faulty e
  · obtain ⟨e, he⟩ := hno
    exact (hfails e he).imp (fun e' heq => heq ▸ h e he) fun _ _ hfalse => hfalse.elim
  · exact (hgoes fun e he => hno ⟨e, he⟩).imp (fun e he => he ▸ habort) fun _ _ hx => hx

/-! ### Calls -/

/-- Where the faults of all passes are reasons to stop, a call stops for them or goes on. -/
theorem ends_next (habort : E .abort) (hfaults : ∀ t, Visits strtod src t → ∀ e, t.Faulty e → E e) (h : Visits strtod src lX)
    (hfuel : 2 * src.length + 1 < fuel) :
    Ends E (fun r lX' => r.1 = .tokEoF ∨ lX'.toGo < lX.toGo) (next strtod fuel) lX := by
  have hto : lX.toGo < fuel := by
    unfold Lexer.toGo
    rw [h.inStep.src_eq]
    split <;> omega
  rw [next_eq]
  refine ends_iterate (I := fun _ t => Visits strtod src t ∧ t.toGo ≤ lX.toGo) (fun _ t => t.toGo) ?_ ⟨h, Nat.le_refl _⟩ hto
  rintro - t ⟨ht, hle⟩
  have hround : Ends E _ (round strtod fuel) t := ends_round ht.inStep (by omega) habort (hfaults t ht)
  have hends : Ends E (fun _ _ => True) (round strtod fuel) t := hround.mono fun _ _ _ => trivial
  refine hends.iff_returns.mpr fun x u hr => ?_
  obtain ⟨-, hgoes⟩ := hround.of_returns hr
  cases x with
  | again v =>
    have hlt : u.toGo < t.toGo := hgoes
    exact ⟨⟨ht.round hr, by omega⟩, hlt⟩
  | done r => exact hgoes.imp_right fun hlt => Nat.lt_of_lt_of_le hlt hle

end LexM

namespace Lexer
variable {src : List U8} {fuel : Nat} {strtod : LexM.Strtod} {E : LexStop → Prop} {lX : Lexer}

/-- Calls of `Lexer_next`, of which each returns or stops for a reason in `E`, come to the end of the source or stop. -/
inductive Finishes (strtod : LexM.Strtod) (fuel : Nat) (E : LexStop → Prop) : Lexer → Prop
  | stop {lX : Lexer} (h : Ends E (fun _ _ => False) (LexM.next strtod fuel) lX) : Finishes strtod fuel E lX
  | eof {lX lX' : Lexer} {tok : Token} (hr : Returns (LexM.next strtod fuel) lX (.tokEoF, tok) lX') : Finishes strtod fuel E lX
  | call {lX lX' : Lexer} {r : TokenKind × Token} (hr : Returns (LexM.next strtod fuel) lX r lX')
      (h : Finishes strtod fuel E lX') : Finishes strtod fuel E lX

theorem Visits.next {lX' : Lexer} {r : TokenKind × Token} (h : Visits strtod src lX)
    (hr : Returns (LexM.next strtod fuel) lX r lX') : Visits strtod src lX' := h.of_iterate (LexM.next_eq .. ▸ hr)

theorem Visits.finishes (habort : E .abort) (hfaults : ∀ t, Visits strtod src t → ∀ e, t.Faulty e → E e)
    (hfuel : 2 * src.length + 1 < fuel) (h : Visits strtod src lX) : Finishes strtod fuel E lX := by
  induction hn : lX.toGo using Nat.strong_induction_on generalizing lX with
  | _ n ih =>
    have hends := LexM.ends_next habort hfaults h hfuel
    by_cases hret : ∃ r lX', Returns (LexM.next strtod fuel) lX r lX'
    · obtain ⟨⟨kind, tok⟩, lX', hr⟩ := hret
      rcases hends.of_returns hr with heof | hlt
      · obtain rfl : kind = .tokEoF := heof
        exact .eof hr
      · exact .call hr (ih lX'.toGo (hn ▸ hlt) (h.next hr) rfl)
    · have htrue : Ends E (fun _ _ => True) (LexM.next strtod fuel) lX := hends.mono fun _ _ _ => trivial
      exact .stop (htrue.iff_returns.mpr fun r t hr => hret ⟨r, t, hr⟩)

end Lexer

end Cyntatic
