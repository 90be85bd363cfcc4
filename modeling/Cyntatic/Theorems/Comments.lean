import Cyntatic.Theorems.LexerFaults

/-! Where comments end: a line comment with its line, and a comment of many lines at the `*/` that closes it, unless the
    level, which both have, goes wrong before. -/

namespace Cyntatic
open Library Prog

namespace LexM
open Lexer
variable {lX : Lexer} {src text : List U8} {fuel n level : Nat} {last c cc : U8} {isMultiLine : Bool} {strtod : Strtod} {out : Token}

/-! ### What the lexer consumes -/

/-- A pass of the loop of `Lexer_tokComment`. -/
def commentPass (isMultiLine : Bool) (last : U8 × Int) : LexM (Pass (U8 × Int) Int) := do
  if last.1 = eofChar then return .done last.2
  else do
    let c ← peek 0
    let _ ← advance 1
    if c = chr '\n' ∧ !isMultiLine then return .done last.2
    else do
      let cc ← peek 0
      if c = chr '*' ∧ cc = chr '/' then do
        let _ ← advance 1
        if last.2 - 1 = 0 then return .done (last.2 - 1) else return .again (c, last.2 - 1)
      else return .again (c, if c = chr '/' ∧ cc = chr '*' then last.2 + 1 else last.2)

theorem commentLoop_eq (isMultiLine : Bool) (fuel : Nat) (c : U8) :
    commentLoop isMultiLine fuel c = iterate .fuel (commentPass isMultiLine) fuel (c, 1) := rfl

/-- How a pass ends, and the characters that it consumes. -/
def commentStep (isMultiLine : Bool) (level : Int) (c cc : U8) : Pass (U8 × Int) Int × Nat :=
  if c = chr '\n' ∧ !isMultiLine then (.done level, 1)
  else if c = chr '*' ∧ cc = chr '/' then (if level - 1 = 0 then .done (level - 1) else .again (c, level - 1), 2)
  else (.again (c, if c = chr '/' ∧ cc = chr '*' then level + 1 else level), 1)

theorem returns_commentPass {level : Int} (hlast : last ≠ eofChar) :
    Returns (commentPass isMultiLine (last, level)) lX
      (commentStep isMultiLine level (lX.left.headD eofChar) (lX.left.getD 1 eofChar)).1
      (lX.advance (commentStep isMultiLine level (lX.left.headD eofChar) (lX.left.getD 1 eofChar)).2) := by
  have hnext : (lX.advance 1).peek 0 = lX.left.getD 1 eofChar := by
    rw [peek_zero, left_advance]
    rcases lX.left with _ | ⟨_, _ | ⟨_, _⟩⟩ <;> rfl
  unfold commentPass commentStep
  rw [if_neg hlast]
  refine returns_bind.mpr ⟨_, _, returns_peek.mpr ⟨rfl, rfl⟩, returns_bind.mpr ⟨_, _, returns_advance.mpr ⟨rfl, rfl⟩, ?_⟩⟩
  rw [← peek_zero]
  split
  · exact returns_pure.mpr ⟨rfl, rfl⟩
  refine returns_bind.mpr ⟨_, _, returns_peek.mpr ⟨rfl, rfl⟩, ?_⟩
  rw [hnext]
  split
  · refine returns_bind.mpr ⟨_, _, returns_advance.mpr ⟨rfl, rfl⟩, ?_⟩
    rw [advance_advance]
    split <;> exact returns_pure.mpr ⟨rfl, rfl⟩
  · exact returns_pure.mpr ⟨rfl, rfl⟩

/-- The characters that the loop consumes of a text, where `level` is one less than in the source, and whether it stops at
    the level zero. -/
def commentScan (isMultiLine : Bool) : (level : Nat) → List U8 → Nat × Bool
  | _, [] => (0, false)
  | _, [_] => (1, false)
  | level, c :: cc :: text =>
    if c = eofChar ∨ c = chr '\n' ∧ !isMultiLine then (1, false)
    else if c = chr '*' ∧ cc = chr '/' then
      match level with
      | 0 => (2, true)
      | level + 1 => (2 + (commentScan isMultiLine level text).1, (commentScan isMultiLine level text).2)
    else
      let level := if c = chr '/' ∧ cc = chr '*' then level + 1 else level
      (1 + (commentScan isMultiLine level (cc :: text)).1, (commentScan isMultiLine level (cc :: text)).2)

theorem commentScan_stop (h : c = eofChar ∨ c = chr '\n' ∧ (!isMultiLine) = true) :
    commentScan isMultiLine level (c :: cc :: text) = (1, false) := by
  rw [commentScan.eq_def]
  exact if_pos h

theorem not_stop_star : ¬(chr '*' = eofChar ∨ chr '*' = chr '\n' ∧ (!isMultiLine) = true) := by
  cases isMultiLine <;> decide

theorem commentScan_close_zero : commentScan isMultiLine 0 (chr '*' :: chr '/' :: text) = (2, true) := by
  rw [commentScan.eq_def]
  exact if_neg not_stop_star

theorem commentScan_close_succ : commentScan isMultiLine (level + 1) (chr '*' :: chr '/' :: text) =
    (2 + (commentScan isMultiLine level text).1, (commentScan isMultiLine level text).2) := by
  rw [commentScan.eq_def]
  exact if_neg not_stop_star

theorem commentScan_plain (h : ¬(c = eofChar ∨ c = chr '\n' ∧ (!isMultiLine) = true)) (hclose : ¬(c = chr '*' ∧ cc = chr '/')) :
    commentScan isMultiLine level (c :: cc :: text) =
      (1 + (commentScan isMultiLine (if c = chr '/' ∧ cc = chr '*' then level + 1 else level) (cc :: text)).1,
        (commentScan isMultiLine (if c = chr '/' ∧ cc = chr '*' then level + 1 else level) (cc :: text)).2) := by
  rw [commentScan.eq_def]
  exact (if_neg h).trans (if_neg hclose)

/-- What the loop comes to: the level, and a lexer behind some characters. -/
def Scans (isMultiLine : Bool) (n : Nat) (last : U8) (level : Nat) (lX : Lexer) (r : Nat × Bool) : Prop :=
  ∃ (result : Int) (lX' : Lexer), Returns (iterate .fuel (commentPass isMultiLine) n (last, (level : Int) + 1)) lX result lX' ∧
    Skips lX r.1 lX' ∧ (result = 0 ↔ r.2 = true)

theorem scans_eof (hs : InStep src lX) (hn : 0 < n) : Scans isMultiLine n eofChar level lX (0, false) := by
  obtain ⟨n, rfl⟩ : ∃ k, n = k + 1 := ⟨n - 1, by omega⟩
  refine ⟨_, lX, returns_bind.mpr ⟨.done ((level : Int) + 1), lX, ?_, returns_pure.mpr ⟨rfl, rfl⟩⟩, hs.skips_zero, ?_⟩
  · exact returns_pure.mpr ⟨rfl, rfl⟩
  · exact iff_of_false (by omega) Bool.false_ne_true

/-- A pass that is not the last one, and the rest of them. -/
theorem Scans.cons {r : Nat × Bool} {level' : Nat} {k : Nat} (hlast : last ≠ eofChar)
    (hstep : commentStep isMultiLine ((level : Int) + 1) (lX.left.headD eofChar) (lX.left.getD 1 eofChar) =
      (.again (c, (level' : Int) + 1), k))
    (h : Scans isMultiLine n c level' (lX.advance k) r) : Scans isMultiLine (n + 1) last level lX (k + r.1, r.2) := by
  obtain ⟨result, lX', hret, hskip, hresult⟩ := h
  have hpass := @returns_commentPass lX last isMultiLine ((level : Int) + 1) hlast
  rw [hstep] at hpass
  exact ⟨result, lX', returns_bind.mpr ⟨_, _, hpass, hret⟩, (skips_advance lX k).trans hskip, hresult⟩

theorem scans_done {result : Int} {k : Nat} (hlast : last ≠ eofChar)
    (hstep : commentStep isMultiLine ((level : Int) + 1) (lX.left.headD eofChar) (lX.left.getD 1 eofChar) = (.done result, k)) :
    Scans isMultiLine (n + 1) last level lX (k, decide (result = 0)) := by
  have hpass := @returns_commentPass lX last isMultiLine ((level : Int) + 1) hlast
  rw [hstep] at hpass
  exact ⟨result, _, returns_bind.mpr ⟨_, _, hpass, returns_pure.mpr ⟨rfl, rfl⟩⟩, skips_advance lX k, decide_eq_true_iff.symm⟩

/-- A character at which the loop does not stop, and its level behind it. -/
theorem commentStep_plain {level : Int} (hnl : ¬(c = chr '\n' ∧ (!isMultiLine) = true)) (hclose : ¬(c = chr '*' ∧ cc = chr '/')) :
    commentStep isMultiLine level c cc = (.again (c, if c = chr '/' ∧ cc = chr '*' then level + 1 else level), 1) := by
  rw [commentStep, if_neg hnl, if_neg hclose]

theorem commentStep_newline {level : Int} (hnl : c = chr '\n' ∧ (!isMultiLine) = true) :
    commentStep isMultiLine level c cc = (.done level, 1) := if_pos hnl

theorem commentStep_close (level : Int) : commentStep isMultiLine level (chr '*') (chr '/') =
    (if level - 1 = 0 then .done (level - 1) else .again (chr '*', level - 1), 2) := by
  rw [commentStep, if_neg fun hnl => absurd hnl.1 (by decide), if_pos ⟨rfl, rfl⟩]

theorem commentStep_eof (level : Int) : commentStep isMultiLine level eofChar cc = (.again (eofChar, level), 1) := by
  rw [commentStep_plain (fun h => absurd h.1 (by decide)) (fun h => absurd h.1 (by decide)), if_neg fun h => absurd h.1 (by decide)]

theorem scans_nil (hs : InStep src lX) (hleft : lX.left = []) (hlast : last ≠ eofChar) (hn : 1 < n) :
    Scans isMultiLine n last level lX (0, false) := by
  obtain ⟨n, rfl⟩ : ∃ k, n = k + 1 := ⟨n - 1, by omega⟩
  have hend : lX.advance 1 = lX := by
    have hlen := hs.length_left
    rw [hleft, List.length_nil, ← hs.src_eq] at hlen
    have hdrop : lX.src.drop lX.idx = [] := hleft
    rw [← hs.advance_zero, advance_advance]
    unfold Lexer.advance
    rw [hdrop, List.take_nil, List.take_nil]
    congr 1
    omega
  have hpass := @returns_commentPass lX last isMultiLine ((level : Int) + 1) hlast
  rw [hleft, List.headD_nil, commentStep_eof, hend] at hpass
  obtain ⟨result, lX', hret, hskip, hresult⟩ := @scans_eof _ _ n level isMultiLine hs (by omega)
  exact ⟨result, lX', returns_bind.mpr ⟨_, _, hpass, hret⟩, hskip, hresult⟩

/-- The last character of the source. -/
theorem scans_single (hs : InStep src lX) (hleft : lX.left = [c]) (hlast : last ≠ eofChar) (hn : 2 < n) :
    Scans isMultiLine n last level lX (1, false) := by
  obtain ⟨n, rfl⟩ : ∃ k, n = k + 1 := ⟨n - 1, by omega⟩
  have hstep : commentStep isMultiLine ((level : Int) + 1) (lX.left.headD eofChar) (lX.left.getD 1 eofChar) =
      commentStep isMultiLine ((level : Int) + 1) c eofChar := by rw [hleft]; rfl
  by_cases heof : c = eofChar
  · rw [heof, commentStep_eof] at hstep
    exact Scans.cons hlast hstep (scans_eof (hs.advance 1) (by omega))
  by_cases hnl : c = chr '\n' ∧ (!isMultiLine) = true
  · rw [commentStep_newline hnl] at hstep
    have hscans := @scans_done _ n level last _ _ _ hlast hstep
    rwa [decide_eq_false (by omega)] at hscans
  · rw [commentStep_plain hnl (fun h => absurd h.2 (by decide)), if_neg fun h => absurd h.2 (by decide)] at hstep
    refine Scans.cons hlast hstep (scans_nil (hs.advance 1) ?_ heof (by omega))
    rw [left_advance, hleft]
    rfl

theorem scans_commentScan (hs : InStep src lX) (hleft : lX.left = text) (hlast : last ≠ eofChar) (hn : text.length + 1 < n) :
    Scans isMultiLine n last level lX (commentScan isMultiLine level text) := by
  induction level, text using commentScan.induct isMultiLine generalizing lX last n with
  | case1 level => exact scans_nil hs hleft hlast hn
  | case2 level c => exact scans_single hs hleft hlast hn
  | case3 level c cc text hstop =>
    obtain ⟨n, rfl⟩ : ∃ k, n = k + 1 := ⟨n - 1, by omega⟩
    have hstep : commentStep isMultiLine ((level : Int) + 1) (lX.left.headD eofChar) (lX.left.getD 1 eofChar) =
        commentStep isMultiLine ((level : Int) + 1) c cc := by rw [hleft]; rfl
    rw [commentScan_stop hstop]
    rcases hstop with heof | hnl
    · rw [heof, commentStep_eof] at hstep
      exact Scans.cons hlast hstep (scans_eof (hs.advance 1) (by rw [List.length_cons] at hn; omega))
    · rw [commentStep_newline hnl] at hstep
      have hscans := @scans_done _ n level last _ _ _ hlast hstep
      rwa [decide_eq_false (by omega)] at hscans
  | case4 c cc text hstop hclose =>
    obtain ⟨n, rfl⟩ : ∃ k, n = k + 1 := ⟨n - 1, by omega⟩
    obtain ⟨rfl, rfl⟩ := hclose
    have hstep : commentStep isMultiLine (((0 : Nat) : Int) + 1) (lX.left.headD eofChar) (lX.left.getD 1 eofChar) =
        (.done 0, 2) := by
      rw [hleft]
      exact commentStep_close _
    rw [commentScan_close_zero]
    exact scans_done hlast hstep
  | case5 c cc text hstop hclose level ih =>
    obtain ⟨n, rfl⟩ : ∃ k, n = k + 1 := ⟨n - 1, by omega⟩
    obtain ⟨rfl, rfl⟩ := hclose
    have hstep : commentStep isMultiLine (((level + 1 : Nat) : Int) + 1) (lX.left.headD eofChar) (lX.left.getD 1 eofChar) =
        (.again (chr '*', (level : Int) + 1), 2) := by
      rw [hleft]
      refine (commentStep_close _).trans ?_
      rw [if_neg (by omega)]
      congr 3
      omega
    rw [commentScan_close_succ]
    refine Scans.cons hlast hstep (ih (hs.advance 2) ?_ (by decide) (by simp only [List.length_cons] at hn; omega))
    rw [left_advance, hleft]
    rfl
  | case6 level c cc text hstop hclose next =>
    rename_i ih
    obtain ⟨n, rfl⟩ : ∃ k, n = k + 1 := ⟨n - 1, by omega⟩
    obtain ⟨heof, hnl⟩ := not_or.mp hstop
    have hstep : commentStep isMultiLine ((level : Int) + 1) (lX.left.headD eofChar) (lX.left.getD 1 eofChar) =
        (.again (c, ((if c = chr '/' ∧ cc = chr '*' then level + 1 else level : Nat) : Int) + 1), 1) := by
      rw [hleft]
      refine (commentStep_plain hnl hclose).trans ?_
      split <;> rfl
    rw [commentScan_plain hstop hclose]
    refine Scans.cons hlast hstep (ih (hs.advance 1) ?_ heof (by simp only [List.length_cons] at hn ⊢; omega))
    rw [left_advance, hleft]
    rfl

theorem commentScan_le : (commentScan isMultiLine level text).1 ≤ text.length := by
  induction level, text using commentScan.induct isMultiLine with
  | case1 level => exact Nat.le_refl 0
  | case2 level c => exact Nat.le_refl 1
  | case3 level c cc text hstop =>
    rw [commentScan_stop hstop]
    exact Nat.succ_pos _
  | case4 c cc text hstop hclose =>
    obtain ⟨rfl, rfl⟩ := hclose
    rw [commentScan_close_zero]
    exact Nat.le_add_left 2 _
  | case5 c cc text hstop hclose level ih =>
    obtain ⟨rfl, rfl⟩ := hclose
    rw [commentScan_close_succ, Nat.add_comm]
    exact Nat.add_le_add_right ih 2
  | case6 level c cc text hstop hclose next =>
    rename_i ih
    rw [commentScan_plain hstop hclose, Nat.add_comm]
    exact Nat.add_le_add_right ih 1

/-- The token of a comment, which has its characters and no others. -/
def ReadsComment (strtod : Strtod) (fuel : Nat) (out : Token) (lX : Lexer) (n : Nat) : Prop :=
  ∃ tok lX', Returns (tokenize strtod fuel out) lX (.tokComment, tok) lX' ∧ tok.range.start = lX.idx ∧
    tok.range.stop = lX.idx + n ∧ lX'.idx = lX.idx + n

/-- What the lexer makes of a comment, of which `c` is the second character. -/
theorem ends_tokenize_comment {E : LexStop → Prop} (hs : InStep src lX) (hleft : lX.left = chr '/' :: c :: text)
    (hc : c = chr '/' ∨ c = chr '*') (hfuel : src.length < fuel) :
    Ends E (fun r lX' => lX'.idx = lX.idx + (2 + (commentScan (c = chr '*') 0 text).1) ∧
      if c = chr '*' ∧ (commentScan (c = chr '*') 0 text).2 = false then r.1 = .tokCOUNT
      else r.1 = .tokComment ∧ r.2.range.start = lX.idx ∧ r.2.range.stop = lX'.idx) (tokenize strtod fuel out) lX := by
  have hhead : lX.peek 0 = chr '/' := by rw [peek_zero, hleft]; rfl
  have hnext : lX.peek 1 = c ∧ (lX.advance 1).peek 0 = c := by
    rw [peek_eq, peek_zero, left_advance, hleft]
    exact ⟨rfl, rfl⟩
  have htext : (lX.advance (1 + 1)).left = text := by
    rw [left_advance, hleft]
    rfl
  have hlen := hs.length_left
  rw [hleft, List.length_cons, List.length_cons] at hlen
  have hlex : lexeme (lX.peek 0) (lX.peek 1) (lX.peek 2) lX.inStrExpr = .comment := by
    rw [hhead, hnext.1]
    rcases hc with rfl | rfl <;> rfl
  obtain ⟨level, lX', hloop, hskip, hlevel⟩ : Scans (c = chr '*') fuel c 0 (lX.advance (1 + 1)) (commentScan (c = chr '*') 0 text) :=
    scans_commentScan (hs.advance _) htext (by rcases hc with rfl | rfl <;> decide) (by omega)
  have hidx : lX'.idx = lX.idx + (2 + (commentScan (c = chr '*') 0 text).1) := by
    rw [((skips_advance lX (1 + 1)).trans hskip).idx hs]
    rw [hleft, List.length_cons, List.length_cons, Nat.add_comm, Nat.add_assoc]
    exact Nat.add_le_add_right commentScan_le 2
  refine ends_bind_of_returns (returns_get.mpr ⟨rfl, rfl⟩) ?_
  rw [hlex]
  refine ends_bind_of_returns (returns_get.mpr ⟨rfl, rfl⟩) (ends_bind_of_returns (returns_advance.mpr ⟨rfl, rfl⟩)
    (ends_bind_of_returns (returns_peek.mpr ⟨rfl, rfl⟩) (ends_bind_of_returns (returns_advance.mpr ⟨rfl, rfl⟩) ?_)))
  rw [hnext.2, advance_advance]
  refine ends_bind_of_returns hloop (ends_bind_of_returns (returns_get.mpr ⟨rfl, rfl⟩) ?_)
  have hlevel' : level ≠ 0 ↔ (commentScan (c = chr '*') 0 text).2 = false := by
    rw [Ne, hlevel, Bool.not_eq_true]
  simp only [hlevel']
  by_cases hopen : c = chr '*' ∧ (commentScan (c = chr '*') 0 text).2 = false
  · rw [if_pos hopen]
    refine ends_bind_of_returns (returns_get.mpr ⟨rfl, rfl⟩) (ends_bind.mpr (ends_modify.mpr (ends_pure.mpr ⟨hidx, ?_⟩)))
    rw [if_pos hopen]
  · rw [if_neg hopen]
    refine ends_of_returns (returns_updateToken.mpr ⟨by omega, rfl, rfl⟩) ⟨hidx, ?_⟩
    rw [if_neg hopen]
    exact ⟨rfl, rfl, rfl⟩

theorem readsComment_iff (hs : InStep src lX) (hleft : lX.left = chr '/' :: c :: text) (hc : c = chr '/' ∨ c = chr '*')
    (hfuel : src.length < fuel) : ReadsComment strtod fuel out lX n ↔
      (c = chr '*' → (commentScan (c = chr '*') 0 text).2 = true) ∧ n = 2 + (commentScan (c = chr '*') 0 text).1 := by
  have hends := @ends_tokenize_comment _ _ _ _ _ strtod out (fun _ => False) hs hleft hc hfuel
  constructor
  · rintro ⟨tok, lX', hret, -, -, hidx⟩
    obtain ⟨hend, htok⟩ := hends.of_returns hret
    refine ⟨fun hstar => ?_, by omega⟩
    by_contra hopen
    rw [if_pos ⟨hstar, Bool.eq_false_of_not_eq_true hopen⟩] at htok
    cases htok
  · rintro ⟨hclosed, rfl⟩
    obtain ⟨⟨kind, tok⟩, lX', hret, hend, htok⟩ := hends.returns
    rw [if_neg fun hopen => by rw [hclosed hopen.1] at hopen; cases hopen.2] at htok
    obtain ⟨rfl, hstart, hstop⟩ := htok
    exact ⟨tok, lX', hret, hstart, hstop.trans hend, hend⟩

/-! ### Line comments -/

/-- The characters up to the first newline, which is one of them, or to the end of the source. -/
def lineLength : List U8 → Nat
  | [] => 0
  | c :: text => if c = chr '\n' then 1 else 1 + lineLength text

/-- Up to the end of the line no `*/` comes before its `/*`, and no byte is `EOF`, other than at the end of the source. -/
def LineKept : (level : Nat) → List U8 → Prop
  | level, c :: cc :: text =>
    if c = chr '\n' then True
    else if c = chr '*' ∧ cc = chr '/' then
      match level with
      | 0 => text = []
      | level + 1 => LineKept level text
    else c ≠ eofChar ∧ LineKept (if c = chr '/' ∧ cc = chr '*' then level + 1 else level) (cc :: text)
  | _, _ => True

theorem lineLength_pos (h : text ≠ []) : 0 < lineLength text := by
  obtain ⟨c, t, rfl⟩ := List.exists_cons_of_ne_nil h
  rw [lineLength]
  split
  · exact Nat.one_pos
  · omega

theorem lineKept_close_zero : LineKept 0 (chr '*' :: chr '/' :: text) ↔ text = [] := by
  rw [LineKept.eq_def]
  exact Iff.rfl

theorem lineKept_close_succ : LineKept (level + 1) (chr '*' :: chr '/' :: text) ↔ LineKept level text := by
  rw [LineKept.eq_def]
  exact Iff.rfl

theorem lineKept_plain (hnl : c ≠ chr '\n') (hclose : ¬(c = chr '*' ∧ cc = chr '/')) : LineKept level (c :: cc :: text) ↔
    c ≠ eofChar ∧ LineKept (if c = chr '/' ∧ cc = chr '*' then level + 1 else level) (cc :: text) := by
  rw [LineKept.eq_def]
  dsimp only
  rw [if_neg hnl, if_neg hclose]

theorem commentScan_line_iff : (commentScan false level text).1 = lineLength text ↔ LineKept level text := by
  have hcons : ∀ c t, c ≠ chr '\n' → lineLength (c :: t) = 1 + lineLength t := fun c t hc => by rw [lineLength, if_neg hc]
  induction level, text using commentScan.induct false with
  | case1 level => exact iff_of_true rfl trivial
  | case2 level c =>
    refine iff_of_true ?_ trivial
    rw [lineLength, lineLength]
    split <;> rfl
  | case3 level c cc text hstop =>
    rw [commentScan_stop hstop]
    by_cases hnl : c = chr '\n'
    · refine iff_of_true ?_ ?_
      · rw [lineLength, if_pos hnl]
      · rw [LineKept.eq_def]
        exact (if_pos hnl).mpr trivial
    · have heof : c = eofChar := hstop.resolve_right fun hand => hnl hand.1
      have hpos := lineLength_pos (List.cons_ne_nil cc text)
      rw [hcons c _ hnl, lineKept_plain hnl (by rw [heof]; exact fun h => absurd h.1 (by decide))]
      refine iff_of_false (by dsimp only; omega) fun hand => hand.1 heof
  | case4 c cc text hstop hclose =>
    obtain ⟨rfl, rfl⟩ := hclose
    rw [commentScan_close_zero, lineKept_close_zero, hcons _ _ (by decide), hcons _ _ (by decide)]
    constructor
    · intro h
      by_contra hne
      have hpos := lineLength_pos hne
      dsimp only at h
      omega
    · rintro rfl
      rfl
  | case5 c cc text hstop hclose level ih =>
    obtain ⟨rfl, rfl⟩ := hclose
    rw [commentScan_close_succ, lineKept_close_succ, hcons _ _ (by decide), hcons _ _ (by decide)]
    refine Iff.trans ?_ ih
    dsimp only
    omega
  | case6 level c cc text hstop hclose next =>
    rename_i ih
    obtain ⟨heof, hnl⟩ := not_or.mp hstop
    have hnl : c ≠ chr '\n' := fun h => hnl ⟨h, rfl⟩
    have ih : (commentScan false (if c = chr '/' ∧ cc = chr '*' then level + 1 else level) (cc :: text)).1 =
        lineLength (cc :: text) ↔ LineKept (if c = chr '/' ∧ cc = chr '*' then level + 1 else level) (cc :: text) := ih
    rw [commentScan_plain hstop hclose, lineKept_plain hnl hclose, hcons _ _ hnl, ← ih]
    dsimp only
    constructor
    · intro h
      exact ⟨heof, by omega⟩
    · rintro ⟨-, h⟩
      omega

/-! ### Comments of many lines -/

/-- The characters up to the `*/` that closes a comment, where `level` pairs are open inside of it, if one does. -/
def blockLength? : (level : Nat) → List U8 → Option Nat
  | level, c :: cc :: text =>
    if c = chr '*' ∧ cc = chr '/' then
      match level with
      | 0 => some 2
      | level + 1 => (blockLength? level text).map (2 + ·)
    else if c = chr '/' ∧ cc = chr '*' then (blockLength? (level + 1) text).map (2 + ·)
    else (blockLength? level (cc :: text)).map (1 + ·)
  | _, _ => none

/-- Up to the `*/` that closes a comment no byte is `EOF`, and no `/*` comes right before a `/`. -/
def BlockKept : (level : Nat) → List U8 → Prop
  | level, c :: cc :: text =>
    if c = chr '*' ∧ cc = chr '/' then
      match level with
      | 0 => True
      | level + 1 => BlockKept level text
    else if c = chr '/' ∧ cc = chr '*' then text.headD eofChar ≠ chr '/' ∧ BlockKept (level + 1) text
    else c ≠ eofChar ∧ BlockKept level (cc :: text)
  | _, _ => True

section
variable {k j m : Nat}

theorem blockLength?_close_zero : blockLength? 0 (chr '*' :: chr '/' :: text) = some 2 := by
  rw [blockLength?.eq_def]
  rfl

theorem blockLength?_close_succ :
    blockLength? (level + 1) (chr '*' :: chr '/' :: text) = (blockLength? level text).map (2 + ·) := by
  rw [blockLength?.eq_def]
  rfl

theorem blockLength?_open : blockLength? level (chr '/' :: chr '*' :: text) = (blockLength? (level + 1) text).map (2 + ·) := by
  rw [blockLength?.eq_def]
  rfl

theorem blockLength?_plain (hclose : ¬(c = chr '*' ∧ cc = chr '/')) (hopen : ¬(c = chr '/' ∧ cc = chr '*')) :
    blockLength? level (c :: cc :: text) = (blockLength? level (cc :: text)).map (1 + ·) := by
  rw [blockLength?.eq_def]
  exact (if_neg hclose).trans (if_neg hopen)

theorem blockLength?_short (h : text.length < 2) : blockLength? level text = none := by
  rcases text with _ | ⟨c, _ | ⟨cc, text⟩⟩
  · rfl
  · rfl
  · simp only [List.length_cons] at h
    omega

/-- A comment has the `*/` that closes it. -/
theorem two_le_blockLength (h : blockLength? level text = some k) : 2 ≤ k := by
  induction level, text using blockLength?.induct generalizing k with
  | case1 c cc text hclose =>
    obtain ⟨rfl, rfl⟩ := hclose
    rw [blockLength?_close_zero] at h
    exact (Option.some.inj h).le
  | case2 c cc text hclose level ih =>
    obtain ⟨rfl, rfl⟩ := hclose
    rw [blockLength?_close_succ] at h
    obtain ⟨n, -, rfl⟩ := Option.map_eq_some_iff.mp h
    exact Nat.le_add_right 2 n
  | case3 level c cc text hclose hopen ih =>
    obtain ⟨rfl, rfl⟩ := hopen
    rw [blockLength?_open] at h
    obtain ⟨n, -, rfl⟩ := Option.map_eq_some_iff.mp h
    exact Nat.le_add_right 2 n
  | case4 level c cc text hclose hopen ih =>
    rw [blockLength?_plain hclose hopen] at h
    obtain ⟨n, hn, rfl⟩ := Option.map_eq_some_iff.mp h
    exact Nat.le_trans (ih hn) (Nat.le_add_left n 1)
  | case5 text level hshort =>
    rw [blockLength?_short] at h
    · cases h
    · rcases text with _ | ⟨c, _ | ⟨cc, text⟩⟩
      · exact Nat.zero_lt_two
      · exact Nat.one_lt_two
      · exact absurd rfl (hshort c cc text)

/-- The loop of a comment of many lines, where it does not stop. -/
theorem commentScan_block_plain (heof : c ≠ eofChar) (hclose : ¬(c = chr '*' ∧ cc = chr '/')) :
    commentScan true level (c :: cc :: text) =
      (1 + (commentScan true (if c = chr '/' ∧ cc = chr '*' then level + 1 else level) (cc :: text)).1,
        (commentScan true (if c = chr '/' ∧ cc = chr '*' then level + 1 else level) (cc :: text)).2) :=
  commentScan_plain (not_or.mpr ⟨heof, fun h => absurd h.2 (by decide)⟩) hclose

/-- At a level that is too low the loop ends too early. -/
def Early (text : List U8) : Prop :=
  ∀ level m j k : Nat, blockLength? level text = some k → m < level → commentScan true m text = (j, true) → j < k

/-- It does so when it is a character ahead, behind a `/` that has closed a comment. -/
def EarlyAhead (text : List U8) : Prop :=
  ∀ level m j k : Nat, blockLength? level (chr '/' :: text) = some k → m < level → commentScan true m text = (j, true) → j + 1 < k

theorem scan_of_plain {r : Nat × Bool} (h : (1 + r.1, r.2) = (j, true)) : ∃ n, r = (n, true) ∧ j = 1 + n := by
  obtain ⟨h1, h2⟩ := Prod.mk.inj h
  exact ⟨r.1, Prod.ext rfl h2, h1.symm⟩

theorem scan_of_close {r : Nat × Bool} (h : (2 + r.1, r.2) = (j, true)) : ∃ n, r = (n, true) ∧ j = 2 + n := by
  obtain ⟨h1, h2⟩ := Prod.mk.inj h
  exact ⟨r.1, Prod.ext rfl h2, h1.symm⟩

/-- Behind a `*/` that closes a comment at both levels. -/
theorem early_close (ih : Early text) : Early (chr '*' :: chr '/' :: text) := by
  intro level m j k hk hm hj
  obtain ⟨level, rfl⟩ : ∃ n, level = n + 1 := ⟨level - 1, by omega⟩
  rw [blockLength?_close_succ] at hk
  obtain ⟨n, hn, rfl⟩ := Option.map_eq_some_iff.mp hk
  cases m with
  | zero =>
    rw [commentScan_close_zero] at hj
    have := two_le_blockLength hn
    obtain ⟨rfl, -⟩ := Prod.mk.inj hj
    omega
  | succ m =>
    rw [commentScan_close_succ] at hj
    obtain ⟨i, hi, rfl⟩ := scan_of_close hj
    have := ih _ _ _ _ hn (by omega) hi
    omega

/-- The `*` of a `/*`, of which the loop has seen the `/` only. -/
theorem scan_behind_open {m : Nat} (hj : commentScan true (m + 1) (chr '*' :: text) = (j, true)) :
    (∃ t n, text = chr '/' :: t ∧ commentScan true m t = (n, true) ∧ j = 2 + n) ∨
      text.headD eofChar ≠ chr '/' ∧ ∃ n, commentScan true (m + 1) text = (n, true) ∧ j = 1 + n := by
  rcases text with _ | ⟨x, t⟩
  · cases hj
  by_cases hx : x = chr '/'
  · subst hx
    rw [commentScan_close_succ] at hj
    obtain ⟨n, hn, rfl⟩ := scan_of_close hj
    exact .inl ⟨t, n, rfl, hn, rfl⟩
  · rw [commentScan_block_plain (by decide) fun h => hx h.2, if_neg fun h => absurd h.1 (by decide)] at hj
    obtain ⟨n, hn, rfl⟩ := scan_of_plain hj
    exact .inr ⟨hx, n, hn, rfl⟩

theorem early_open (ih : Early text) (ihAhead : ∀ t, text = chr '/' :: t → EarlyAhead t) : Early (chr '/' :: chr '*' :: text) := by
  intro level m j k hk hm hj
  rw [blockLength?_open] at hk
  obtain ⟨n, hn, rfl⟩ := Option.map_eq_some_iff.mp hk
  rw [commentScan_block_plain (by decide) fun h => absurd h.1 (by decide), if_pos ⟨rfl, rfl⟩] at hj
  obtain ⟨i, hi, rfl⟩ := scan_of_plain hj
  rcases scan_behind_open hi with ⟨t, l, rfl, hl, rfl⟩ | ⟨-, l, hl, rfl⟩
  · have := ihAhead t rfl _ _ _ _ hn (Nat.lt_succ_of_lt hm) hl
    omega
  · have := ih _ _ _ _ hn (Nat.succ_lt_succ hm) hl
    omega

theorem early_plain (hclose : ¬(c = chr '*' ∧ cc = chr '/')) (hopen : ¬(c = chr '/' ∧ cc = chr '*')) (ih : Early (cc :: text)) :
    Early (c :: cc :: text) := by
  intro level m j k hk hm hj
  rw [blockLength?_plain hclose hopen] at hk
  obtain ⟨n, hn, rfl⟩ := Option.map_eq_some_iff.mp hk
  by_cases heof : c = eofChar
  · rw [commentScan_stop (.inl heof)] at hj
    cases hj
  · rw [commentScan_block_plain heof hclose, if_neg hopen] at hj
    obtain ⟨i, hi, rfl⟩ := scan_of_plain hj
    have := ih _ _ _ _ hn hm hi
    omega

/-- Behind a `/` that has closed a comment, and that opens one with the `*` after it. -/
theorem earlyAhead_open (ih : Early text) (ihAhead : ∀ t, text = chr '/' :: t → EarlyAhead t) :
    EarlyAhead (chr '*' :: text) := by
  intro level m j k hk hm hj
  rw [blockLength?_open] at hk
  obtain ⟨n, hn, rfl⟩ := Option.map_eq_some_iff.mp hk
  rcases text with _ | ⟨y, t⟩
  · cases hj
  by_cases hy : y = chr '/'
  · subst hy
    cases m with
    | zero =>
      rw [commentScan_close_zero] at hj
      have := two_le_blockLength hn
      obtain ⟨rfl, -⟩ := Prod.mk.inj hj
      omega
    | succ m =>
      rw [commentScan_close_succ] at hj
      obtain ⟨i, hi, rfl⟩ := scan_of_close hj
      have := ihAhead t rfl _ _ _ _ hn (by omega) hi
      omega
  · rw [commentScan_block_plain (by decide) fun h => hy h.2, if_neg fun h => absurd h.1 (by decide)] at hj
    obtain ⟨i, hi, rfl⟩ := scan_of_plain hj
    have := ih _ _ _ _ hn (Nat.lt_succ_of_lt hm) hi
    omega

theorem earlyAhead_plain (hc : c ≠ chr '*') (h : Early (c :: text)) : EarlyAhead (c :: text) := by
  intro level m j k hk hm hj
  rw [blockLength?_plain (fun hand => absurd hand.1 (by decide)) fun hand => hc hand.2] at hk
  obtain ⟨n, hn, rfl⟩ := Option.map_eq_some_iff.mp hk
  have := h _ _ _ _ hn hm hj
  omega

theorem early_all (n : Nat) : ∀ text : List U8, text.length ≤ n → Early text ∧ EarlyAhead text := by
  induction n with
  | zero =>
    intro text hlen
    obtain rfl : text = [] := List.length_eq_zero_iff.mp (Nat.le_zero.mp hlen)
    exact ⟨fun _ _ _ _ hk => (by cases hk), fun _ _ _ _ hk => (by cases hk)⟩
  | succ n ih =>
    intro text hlen
    rcases text with _ | ⟨c, t⟩
    · exact ⟨fun _ _ _ _ hk => (by cases hk), fun _ _ _ _ hk => (by cases hk)⟩
    have hrest : Early t ∧ EarlyAhead t := ih t (Nat.le_of_succ_le_succ hlen)
    have hbehind : ∀ u, t = chr '/' :: u → EarlyAhead u := by
      rintro u rfl
      exact (ih u (Nat.le_of_succ_le (Nat.le_of_succ_le_succ hlen))).2
    have hearly : Early (c :: t) := by
      rcases t with _ | ⟨cc, u⟩
      · exact fun _ _ _ _ hk => by cases hk
      have hu : Early u ∧ EarlyAhead u := ih u (Nat.le_of_succ_le (Nat.le_of_succ_le_succ hlen))
      by_cases hclose : c = chr '*' ∧ cc = chr '/'
      · obtain ⟨rfl, rfl⟩ := hclose
        exact early_close hu.1
      by_cases hopen : c = chr '/' ∧ cc = chr '*'
      · obtain ⟨rfl, rfl⟩ := hopen
        refine early_open hu.1 ?_
        rintro v rfl
        exact (ih v (by simp only [List.length_cons] at hlen; omega)).2
      · exact early_plain hclose hopen hrest.1
    refine ⟨hearly, ?_⟩
    by_cases hc : c = chr '*'
    · subst hc
      exact earlyAhead_open hrest.1 hbehind
    · exact earlyAhead_plain hc hearly

theorem blockKept_close_succ : BlockKept (level + 1) (chr '*' :: chr '/' :: text) ↔ BlockKept level text := by
  rw [BlockKept.eq_def]
  exact Iff.rfl

theorem blockKept_open :
    BlockKept level (chr '/' :: chr '*' :: text) ↔ text.headD eofChar ≠ chr '/' ∧ BlockKept (level + 1) text := by
  rw [BlockKept.eq_def]
  exact Iff.rfl

theorem blockKept_plain (hclose : ¬(c = chr '*' ∧ cc = chr '/')) (hopen : ¬(c = chr '/' ∧ cc = chr '*')) :
    BlockKept level (c :: cc :: text) ↔ c ≠ eofChar ∧ BlockKept level (cc :: text) := by
  rw [BlockKept.eq_def]
  dsimp only
  rw [if_neg hclose, if_neg hopen]

/-- The loop ends at the `*/` that closes the comment. -/
theorem commentScan_block_iff (h : blockLength? level text = some k) :
    commentScan true level text = (k, true) ↔ BlockKept level text := by
  induction level, text using blockLength?.induct generalizing k with
  | case1 c cc text hclose =>
    obtain ⟨rfl, rfl⟩ := hclose
    rw [blockLength?_close_zero] at h
    obtain rfl := Option.some.inj h
    exact iff_of_true commentScan_close_zero (by rw [BlockKept.eq_def]; trivial)
  | case2 c cc text hclose level ih =>
    obtain ⟨rfl, rfl⟩ := hclose
    rw [blockLength?_close_succ] at h
    obtain ⟨n, hn, rfl⟩ := Option.map_eq_some_iff.mp h
    rw [commentScan_close_succ, blockKept_close_succ, ← ih hn]
    constructor
    · intro hj
      obtain ⟨i, hi, heq⟩ := scan_of_close hj
      rw [hi, Nat.add_left_cancel heq]
    · intro hscan
      rw [hscan]
  | case3 level c cc text hclose hopen ih =>
    obtain ⟨rfl, rfl⟩ := hopen
    rw [blockLength?_open] at h
    obtain ⟨n, hn, rfl⟩ := Option.map_eq_some_iff.mp h
    rw [blockKept_open, ← ih hn, commentScan_block_plain (by decide) hclose, if_pos ⟨rfl, rfl⟩]
    constructor
    · intro hj
      obtain ⟨i, hi, heq⟩ := scan_of_plain hj
      rcases scan_behind_open hi with ⟨t, l, rfl, hl, rfl⟩ | ⟨hx, l, hl, rfl⟩
      · -- the level is too low from here on
        have := (early_all t.length t (Nat.le_refl _)).2 _ _ _ _ hn (Nat.lt_succ_self level) hl
        omega
      · obtain rfl : n = l := by omega
        exact ⟨hx, hl⟩
    · rintro ⟨hx, hscan⟩
      rcases text with _ | ⟨x, t⟩
      · cases hscan
      have hx : x ≠ chr '/' := hx
      rw [commentScan_block_plain (by decide) fun hand => hx hand.2, if_neg fun hand => absurd hand.1 (by decide), hscan,
        ← Nat.add_assoc]
  | case4 level c cc text hclose hopen ih =>
    rw [blockLength?_plain hclose hopen] at h
    obtain ⟨n, hn, rfl⟩ := Option.map_eq_some_iff.mp h
    rw [blockKept_plain hclose hopen, ← ih hn]
    by_cases heof : c = eofChar
    · rw [commentScan_stop (.inl heof)]
      exact iff_of_false (fun hj => Bool.false_ne_true (Prod.mk.inj hj).2) fun hand => hand.1 heof
    · rw [commentScan_block_plain heof hclose, if_neg hopen]
      constructor
      · intro hj
        obtain ⟨i, hi, heq⟩ := scan_of_plain hj
        rw [hi, Nat.add_left_cancel heq]
        exact ⟨heof, rfl⟩
      · rintro ⟨-, hscan⟩
        rw [hscan]
  | case5 text level hshort =>
    rw [blockLength?_short] at h
    · cases h
    · rcases text with _ | ⟨c, _ | ⟨cc, text⟩⟩
      · exact Nat.zero_lt_two
      · exact Nat.one_lt_two
      · exact absurd rfl (hshort c cc text)

/-- A line comment is the token of its line if no `*/` without a `/*` and no byte that is `EOF` comes before the end of it,
    and a comment that is closed is the token up to there if it has no `/*` right before a `/` and no such byte. -/
theorem readsComment_kept_iff (hs : InStep src lX) (hfuel : src.length < fuel) :
    (lX.left = chr '/' :: chr '/' :: text → (ReadsComment strtod fuel out lX (2 + lineLength text) ↔ LineKept 0 text)) ∧
      (lX.left = chr '/' :: chr '*' :: text → blockLength? 0 text = some n →
        (ReadsComment strtod fuel out lX (2 + n) ↔ BlockKept 0 text)) := by
  constructor
  · intro hleft
    rw [readsComment_iff hs hleft (.inl rfl) hfuel, ← commentScan_line_iff]
    constructor
    · rintro ⟨-, heq⟩
      exact (Nat.add_left_cancel heq).symm
    · intro heq
      exact ⟨fun h => absurd h (by decide), congrArg (2 + ·) heq.symm⟩
  · intro hleft hn
    rw [readsComment_iff hs hleft (.inr rfl) hfuel, ← commentScan_block_iff hn]
    constructor
    · rintro ⟨hclosed, heq⟩
      exact Prod.ext (Nat.add_left_cancel heq).symm (hclosed rfl)
    · intro heq
      have hone : commentScan (chr '*' = chr '*') 0 text = (n, true) := heq
      rw [hone]
      exact ⟨fun _ => rfl, rfl⟩

end

/-- The comments of both kinds. -/
theorem readsComment_kept_two :
    ReadsComment (fun _ => ⟨0, false, 0⟩) 16 (init {} false []).next (init {} false (ascii "// a /* b\nc".toList)) (2 + 8) ∧
      ReadsComment (fun _ => ⟨0, false, 0⟩) 16 (init {} false []).next (init {} false (ascii "/* /* */ */ c".toList)) (2 + 9) := by
  refine ⟨((readsComment_kept_iff (n := 0) (inStep_init {} false) (by decide)).1 rfl).mpr (commentScan_line_iff.mp (by decide)), ?_⟩
  have hlength : blockLength? 0 (ascii " /* */ */ c".toList) = some 9 := by decide
  exact ((readsComment_kept_iff (inStep_init {} false) (by decide)).2 rfl hlength).mpr ((commentScan_block_iff hlength).mp (by decide))

/-- A line comment that ends in the middle of its line, and a comment that ends in the middle of it. -/
theorem not_readsComment :
    (∀ fuel, 10 < fuel → ¬ReadsComment (fun _ => ⟨0, false, 0⟩) fuel (init {} false []).next
      (init {} false (ascii "// a */ b\n".toList)) (2 + lineLength (ascii " a */ b\n".toList))) ∧
    blockLength? 0 (ascii " /*/ */ */".toList) = some 10 ∧
    ∀ fuel, 12 < fuel → ¬ReadsComment (fun _ => ⟨0, false, 0⟩) fuel (init {} false []).next
      (init {} false (ascii "/* /*/ */ */".toList)) (2 + 10) := by
  refine ⟨fun fuel hfuel hreads => ?_, by decide, fun fuel hfuel hreads => ?_⟩
  · have hleft : (init {} false (ascii "// a */ b\n".toList)).left = chr '/' :: chr '/' :: ascii " a */ b\n".toList := rfl
    have hline := (readsComment_iff (inStep_init {} false) hleft (.inl rfl) hfuel).mp hreads
    exact absurd hline.2 (by decide)
  · have hleft : (init {} false (ascii "/* /*/ */ */".toList)).left = chr '/' :: chr '*' :: ascii " /*/ */ */".toList := rfl
    have hblock := (readsComment_iff (inStep_init {} false) hleft (.inr rfl) hfuel).mp hreads
    exact absurd hblock.2 (by decide)

end LexM

end Cyntatic
