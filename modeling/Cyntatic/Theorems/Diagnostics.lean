import Cyntatic.Library.Fallible
import Cyntatic.Compiler.Log

/-! # The line of a diagnostic and the marks below it

The loops that look for the enclosing line stop at the newlines around the range. The loop that writes the marks reads at
the offsets in the source from the start of the line on, so it is right where the source has its newlines there too. -/

namespace Cyntatic
open Library

variable {src : List U8} {i n left stop : Nat} {range : Range}

/-- The offset just after the last newline before another offset, or 0. -/
def lineBegin (src : List U8) (i : Nat) : Nat := i - ((src.take i).reverse.takeWhile (· ≠ chr '\n')).length

/-- The offset of the first newline from another offset on, or the end of the source. -/
def lineStop (src : List U8) (i : Nat) : Nat := i + ((src.drop i).takeWhile (· ≠ chr '\n')).length

/-! ### The enclosing line -/

theorem lineBegin_le : lineBegin src i ≤ i := Nat.sub_le ..

theorem lineBack_eq (h : n ≤ src.length) : lineBack src n = some (lineBegin src n) := by
  induction n with
  | zero => rfl
  | succ n ih =>
    have hlt : n < src.length := h
    rw [lineBack, List.getElem?_eq_getElem hlt, lineBegin, List.take_add_one, List.getElem?_eq_getElem hlt,
      Option.toList_some, List.reverse_append, List.reverse_singleton, List.singleton_append]
    by_cases hc : src[n] = chr '\n'
    · rw [List.takeWhile_cons_of_neg (by simpa using hc)]
      simp [hc]
    · rw [List.takeWhile_cons_of_pos (by simpa using hc), List.length_cons, Nat.add_sub_add_right]
      change (if src[n] ≠ chr '\n' then lineBack src n else some (n + 1)) = _
      rw [if_pos hc, ih (Nat.le_of_lt hlt), lineBegin]

theorem le_lineStop : i ≤ lineStop src i := Nat.le_add_right ..

theorem lineStop_of_le (h : src.length ≤ i) : lineStop src i = i := by
  rw [lineStop, List.drop_of_length_le h]
  rfl

theorem lineStop_of_newline (h : src[i]? = some (chr '\n')) : lineStop src i = i := by
  obtain ⟨hlt, hc⟩ := List.getElem?_eq_some_iff.mp h
  rw [lineStop, List.drop_eq_getElem_cons hlt, List.takeWhile_cons_of_neg (by simpa using hc)]
  rfl

theorem lineStop_of_other {c : U8} (h : src[i]? = some c) (hc : c ≠ chr '\n') : lineStop src i = lineStop src (i + 1) := by
  obtain ⟨hlt, rfl⟩ := List.getElem?_eq_some_iff.mp h
  rw [lineStop, lineStop, List.drop_eq_getElem_cons hlt, List.takeWhile_cons_of_pos (by simpa using hc), List.length_cons]
  omega

theorem lineOn_eq (h : i + left = src.length) : lineOn src i left = lineStop src i := by
  induction left generalizing i with
  | zero => exact (lineStop_of_le (Nat.le_of_eq h.symm)).symm
  | succ left ih =>
    have hlt : i < src.length := by omega
    have hget := List.getElem?_eq_getElem hlt
    rw [lineOn, List.getD_eq_getElem?_getD, hget, Option.getD_some]
    by_cases hc : src[i] = chr '\n'
    · rw [if_neg (not_not.mpr hc), lineStop_of_newline (hc ▸ hget)]
    · rw [if_pos hc, ih (by omega), lineStop_of_other hget hc]

/-- At the start of the source the loop reads at the offset `2 ^ 32 - 1`. -/
theorem enclosingLine_of_zero (hzero : range.start = 0) (hlen : range.source.length < 2 ^ 32) :
    range.enclosingLine = none := by
  rw [Range.enclosingLine, hzero]
  change Option.bind (lineBack range.source (2 ^ 32 - 1 + 1)) _ = none
  rw [lineBack, List.getElem?_eq_none (by omega)]
  rfl

/-- `Range_enclosingLine` gives the line of a range exactly when the range does not start at 0. -/
theorem enclosingLine_iff (hstart : range.start ≤ range.stop) (hstop : range.stop ≤ range.source.length)
    (hlen : range.source.length < 2 ^ 32) :
    range.enclosingLine = some { range with
        start := lineBegin range.source range.start, stop := lineStop range.source range.stop } ↔ range.start ≠ 0 := by
  constructor
  · intro h hzero
    cases (enclosingLine_of_zero hzero hlen).symm.trans h
  · intro hpos
    have hs : (range.start + 2 ^ 32 - 1) % 2 ^ 32 + 1 = range.start := by omega
    rw [Range.enclosingLine, hs, lineBack_eq (hstart.trans hstop), lineOn_eq (Nat.add_sub_cancel' hstop)]
    have hle : lineBegin range.source range.start ≤ lineStop range.source range.stop :=
      lineBegin_le.trans (hstart.trans le_lineStop)
    exact if_neg (Nat.not_lt.mpr hle)

/-- In the text `a\nbc`, the line of `c`. -/
theorem enclosingLine_iff_second :
    (⟨3, 4, {}, ascii ['a', '\n', 'b', 'c']⟩ : Range).enclosingLine = some ⟨2, 4, {}, ascii ['a', '\n', 'b', 'c']⟩ :=
  (enclosingLine_iff (by decide) (by decide) (by decide)).mpr (by decide)

/-- At the start of the text `a` the loop reads outside it. -/
theorem not_enclosingLine : ¬ ∀ range : Range, range.source ≠ [] → range.start ≤ range.stop →
    range.stop ≤ range.source.length → range.source.length < 2 ^ 32 → range.enclosingLine = some { range with
      start := lineBegin range.source range.start, stop := lineStop range.source range.stop } := by
  intro hall
  have h := hall ⟨0, 1, {}, ascii ['a']⟩ (by decide) (by decide) (by decide) (by decide)
  cases (enclosingLine_of_zero rfl (by decide)).symm.trans h

/-! ### The marks -/

/-- One pass, which reads at an offset of the source. -/
theorem underline_succ {c : U8} (h : src[n + i]? = some c) :
    underline src n i (left + 1) =
      if c ≠ chr '\n' then (underline src n (i + 1) left).map (chr '~' :: ·) else some [] := by
  rw [underline, h]
  by_cases hc : c = chr '\n'
  · simp [hc]
  · change (if c ≠ chr '\n' then Option.bind _ _ else some []) = _
    rw [if_pos hc, if_pos hc]
    exact Option.map_eq_bind.symm

theorem underline_none (h : src[n + i]? = none) : underline src n i (left + 1) = none := by
  rw [underline, h]
  rfl

theorem underline_iff (hstop : i + left = stop) (hlen : stop ≤ src.length) :
    underline src n i left = some (List.replicate (min stop (lineStop src i) - i) (chr '~')) ↔
      ∀ j, i ≤ j → j < stop → j ≤ lineStop src i →
        n + j < src.length ∧ (src[n + j]? = some (chr '\n') ↔ src[j]? = some (chr '\n')) := by
  induction left generalizing i with
  | zero =>
    have hzero : min stop (lineStop src i) - i = 0 := by omega
    rw [hzero]
    exact ⟨fun _ j hi hj => by omega, fun _ => rfl⟩
  | succ left ih =>
    have hlt : i < src.length := by omega
    have hget := List.getElem?_eq_getElem hlt
    cases hread : src[n + i]? with
    | none =>
      rw [underline_none hread]
      refine iff_of_false (fun h => by cases h) fun h => ?_
      exact absurd (h i (Nat.le_refl i) (by omega) le_lineStop).1 (Nat.not_lt.mpr (List.getElem?_eq_none_iff.mp hread))
    | some c =>
      have hin : n + i < src.length := (List.getElem?_eq_some_iff.mp hread).1
      rw [underline_succ hread]
      by_cases hnl : src[i] = chr '\n'
      · have hline := lineStop_of_newline (hnl ▸ hget)
        have hzero : min stop (lineStop src i) - i = 0 := by omega
        rw [hzero, hline]
        by_cases hc : c = chr '\n'
        · rw [if_neg (not_not.mpr hc)]
          refine iff_of_true rfl fun j hi hj hle => ?_
          obtain rfl : j = i := by omega
          exact ⟨hin, by rw [hread, hget, hnl, hc]⟩
        · rw [if_pos hc]
          refine iff_of_false (fun h => ?_) fun h => hc ?_
          · obtain ⟨marks, -, hmarks⟩ := Option.map_eq_some_iff.mp h
            cases hmarks
          · exact Option.some.inj (hread.symm.trans ((h i (Nat.le_refl i) (by omega) (Nat.le_refl i)).2.mpr (hnl ▸ hget)))
      · have hnext := lineStop_of_other hget hnl
        have hle : i + 1 ≤ lineStop src i := hnext ▸ le_lineStop
        have hsucc : min stop (lineStop src i) - i = min stop (lineStop src (i + 1)) - (i + 1) + 1 := by omega
        rw [hsucc, List.replicate_succ]
        by_cases hc : c = chr '\n'
        · rw [if_neg (not_not.mpr hc)]
          refine iff_of_false (fun h => by cases h) fun h => hnl ?_
          have hsame := (h i (Nat.le_refl i) (by omega) le_lineStop).2.mp (hc ▸ hread)
          exact Option.some.inj (hget.symm.trans hsame)
        · rw [if_pos hc, Option.map_eq_some_iff]
          simp only [List.cons.injEq, true_and, exists_eq_right]
          rw [ih (by omega), ← hnext]
          constructor
          · intro h j hi hj hle
            rcases Nat.eq_or_lt_of_le hi with rfl | hi
            · refine ⟨hin, iff_of_false (fun heq => hc ?_) fun heq => hnl ?_⟩
              · exact Option.some.inj (hread.symm.trans heq)
              · exact Option.some.inj (hget.symm.trans heq)
            · exact h j hi hj hle
          · exact fun h j hi => h j (Nat.le_of_succ_le hi)

/-- Where the newlines of the source stand also when one counts from the start of the line: as far as the loop goes. -/
def SameNewlines (src : List U8) (start stop : Nat) : Prop :=
  ∀ j, start < j → j < stop → j ≤ lineStop src (start + 1) → lineBegin src start + j < src.length ∧
    (src[lineBegin src start + j]? = some (chr '\n') ↔ src[j]? = some (chr '\n'))

/-- On the first line the two offsets are the same. -/
theorem sameNewlines_of_first {start : Nat} (h : lineBegin src start = 0) (hstop : stop ≤ src.length) : SameNewlines src start stop := by
  intro j _ hj _
  rw [h, Nat.zero_add]
  exact ⟨Nat.lt_of_lt_of_le hj hstop, Iff.rfl⟩

/-- What is to stand below the message: the line, and a caret with a tilde for each other character of the range in its
    first line. -/
def marked (range : Range) : List U8 :=
  ((range.source.drop (lineBegin range.source range.start)).take
      (lineStop range.source range.stop - lineBegin range.source range.start)) ++ [chr '\n'] ++
    List.replicate range.coord.column (chr ' ') ++ [chr '^'] ++
    List.replicate (min range.stop (lineStop range.source (range.start + 1)) - range.start - 1) (chr '~') ++ [chr '\n']

/-- A non-empty range of the source that does not start at 0. -/
structure InSource (range : Range) : Prop where
  start : 0 < range.start
  nonempty : range.start < range.stop
  stop : range.stop ≤ range.source.length
  length : range.source.length < 2 ^ 32

theorem printRange_iff (h : InSource range) :
    printRange range = some (marked range) ↔ SameNewlines range.source range.start range.stop := by
  have hline := (enclosingLine_iff (Nat.le_of_lt h.nonempty) h.stop h.length).mpr (Nat.ne_of_gt h.start)
  have hmarks := @underline_iff range.source (range.start + 1) (lineBegin range.source range.start)
    (range.stop - (range.start + 1)) range.stop (Nat.add_sub_cancel' h.nonempty) h.stop
  refine Iff.trans ?_ hmarks
  rw [printRange, hline, marked, Nat.sub_sub]
  constructor
  · intro heq
    obtain ⟨line, hline, heq⟩ := Option.bind_eq_some_iff.mp heq
    obtain rfl := Option.some.inj hline
    obtain ⟨marks, hread, heq⟩ := Option.bind_eq_some_iff.mp heq
    have hsame := List.append_cancel_left (List.append_cancel_right (Option.some.inj heq))
    exact hsame ▸ hread
  · intro hread
    exact Option.bind_eq_some_iff.mpr ⟨_, rfl, Option.bind_eq_some_iff.mpr ⟨_, hread, rfl⟩⟩

/-- What `Log_print0` is to write for a diagnostic. -/
def printed (entry : LogEntry) : List U8 := printMessage entry ++ (entry.range.map marked).getD []

theorem printDiagnostic_iff {entry : LogEntry} (h : ∀ range, entry.range = some range → InSource range) :
    printDiagnostic entry = some (printed entry) ↔
      ∀ range, entry.range = some range → SameNewlines range.source range.start range.stop := by
  rw [printDiagnostic, printed]
  cases hrange : entry.range with
  | none => exact iff_of_true rfl fun range hsome => by cases hsome
  | some range =>
    rw [Option.map_some, Option.map_some, Option.getD_some, Option.getD_some]
    have hinside := h range hrange
    constructor
    · intro heq range' hsome
      obtain rfl := Option.some.inj hsome
      obtain ⟨lines, hlines, heq⟩ := Option.bind_eq_some_iff.mp heq
      rw [List.append_cancel_left (Option.some.inj heq)] at hlines
      exact (printRange_iff hinside).mp hlines
    · intro hall
      exact Option.bind_eq_some_iff.mpr ⟨_, (printRange_iff hinside).mpr (hall range rfl), rfl⟩

/-- Of the diagnostics inside their source, `Log_print0` marks those right which are in step, and where all are, it writes
    all of the log. -/
theorem logPrint0_marks {entries : List LogEntry} (h : ∀ entry ∈ entries, ∀ range, entry.range = some range → InSource range) :
    (∀ entry ∈ entries, (printDiagnostic entry = some (printed entry) ↔
      ∀ range, entry.range = some range → SameNewlines range.source range.start range.stop)) ∧
    ((∀ entry ∈ entries, ∀ range, entry.range = some range → SameNewlines range.source range.start range.stop) →
      ∀ errors text, logPrint0 errors text entries = some (printErrors errors text ++ (entries.map printed).flatten)) := by
  refine ⟨fun entry hentry => printDiagnostic_iff (h entry hentry), fun hall errors text => ?_⟩
  rw [logPrint0, mapM_eq_some fun entry hentry => (printDiagnostic_iff (h entry hentry)).mpr (hall entry hentry)]
  rfl

/-- A file with a text, and an error at some characters of it. -/
def errorAt (text : List Char) (start stop column : Nat) : LogEntry :=
  ⟨.logError, ascii ['f'], some ⟨start, stop, ⟨0, column⟩, ascii text⟩, ascii ['m']⟩

/-- An error at `bc` in the text `abc`. -/
theorem logPrint0_marks_first :
    logPrint0 1 none [errorAt ['a', 'b', 'c'] 1 3 1] =
      some (printErrors 1 none ++ (printed (errorAt ['a', 'b', 'c'] 1 3 1) ++ [])) := by
  refine (logPrint0_marks fun entry hentry range hrange => ?_).2 (fun entry hentry range hrange => ?_) 1 none
  · obtain rfl := List.mem_singleton.mp hentry
    obtain rfl := Option.some.inj hrange
    exact ⟨by decide, by decide, by decide, by decide⟩
  · obtain rfl := List.mem_singleton.mp hentry
    obtain rfl := Option.some.inj hrange
    exact sameNewlines_of_first (by decide) (by decide)

/-- For an error at `bcd` in the second line of a text the loop reads outside the text. -/
theorem not_logPrint0_marks : ¬ ∀ entries : List LogEntry,
    (∀ entry ∈ entries, ∀ range, entry.range = some range → InSource range) →
      ∀ entry ∈ entries, printDiagnostic entry = some (printed entry) := by
  intro hall
  have h := hall [errorAt ['a', '\n', 'b', 'c', 'd'] 2 5 0] (fun entry hentry range hrange => ?_) _ List.mem_cons_self
  · revert h
    decide
  · obtain rfl := List.mem_singleton.mp hentry
    obtain rfl := Option.some.inj hrange
    exact ⟨by decide, by decide, by decide, by decide⟩

end Cyntatic
