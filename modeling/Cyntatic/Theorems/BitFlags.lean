import Cyntatic.Library.Fuel
import Cyntatic.Util.Args

/-! # Lists of bit flags

A string is cut at each `|` into words between spaces. The loop of `cmdParseBitFlags` stays for ever at a word of one
character that a `|` follows, and it takes the spaces after the last word for a part of it. -/

namespace Cyntatic
open Library

/-- The bytes are white space. -/
def Spaces (l : Text) : Prop := ∀ c ∈ l, isSpace c = true

/-- A word between spaces: it has no `|`, and no space at its ends. -/
structure FlagWord (w : Text) : Prop where
  nonempty : w ≠ []
  noBar : chr '|' ∉ w
  head : ∀ c ∈ w.head?, isSpace c = false
  last : ∀ c ∈ w.getLast?, isSpace c = false

section
variable {bitFlags : List CmdBitFlagDesc} {name : Option Text} {value : U32} {str l w r rest before : Text} {n : Nat}

/-! ### One word -/

/-- The entry for a word. -/
def lookup (bitFlags : List CmdBitFlagDesc) (w : Text) : Option CmdBitFlagDesc :=
  cmdFindBitFlag bitFlags w (BitVec.ofNat 32 w.length)

theorem FlagWord.eq_cons (h : FlagWord w) : ∃ c w', w = c :: w' ∧ isSpace c = false ∧ c ≠ chr '|' := by
  cases w with
  | nil => exact absurd rfl h.nonempty
  | cons c w' =>
    exact ⟨c, w', rfl, h.head c rfl, fun heq => h.noBar (heq ▸ List.mem_cons_self)⟩

theorem skip_spaces (h : Spaces l) :
    (l ++ str).dropWhile (fun c => c = chr '|' ∨ isSpace c) = str.dropWhile fun c => c = chr '|' ∨ isSpace c :=
  List.dropWhile_append_of_pos fun c hc => decide_eq_true (.inr (h c hc))

theorem skip_word (h : FlagWord w) : (w ++ str).dropWhile (fun c => c = chr '|' ∨ isSpace c) = w ++ str := by
  obtain ⟨c, w', rfl, hspace, hbar⟩ := h.eq_cons
  exact List.dropWhile_cons_of_neg (by simp [hspace, hbar])

theorem space_ne_bar {c : U8} (h : isSpace c = true) : c ≠ chr '|' := by
  rintro rfl
  exact absurd h (by decide)

theorem FlagWord.noBar_append (hw : FlagWord w) (hr : Spaces r) : ∀ c ∈ w ++ r, decide (c ≠ chr '|') = true := by
  intro c hc
  rcases List.mem_append.mp hc with hc | hc
  · exact decide_eq_true fun heq => hw.noBar (heq ▸ hc)
  · exact decide_eq_true (space_ne_bar (hr c hc))

theorem rdropWhile_word (hw : FlagWord w) (hr : Spaces r) : (w ++ r).rdropWhile isSpace = w := by
  induction r using List.reverseRecOn with
  | nil =>
    rw [List.append_nil, List.rdropWhile_eq_self_iff]
    intro hne
    simp [hw.last _ (List.getLast?_eq_some_getLast hne)]
  | append_singleton r c ih =>
    rw [← List.append_assoc, List.rdropWhile_concat_pos _ _ _ (hr c (by simp))]
    exact ih fun c' hc' => hr c' (List.mem_append_left _ hc')

/-- What stands before the next `|`, without the spaces after it. -/
theorem trim_word (hw : FlagWord w) (hr : Spaces r) :
    ((w ++ (r ++ chr '|' :: rest)).takeWhile (· ≠ chr '|')).rdropWhile isSpace = w := by
  rw [← List.append_assoc, List.takeWhile_append_of_pos (hw.noBar_append hr), List.takeWhile_cons_of_neg (by simp),
    List.append_nil, rdropWhile_word hw hr]

theorem next_word (hw : FlagWord w) (hr : Spaces r) :
    (w ++ (r ++ chr '|' :: rest)).dropWhile (· ≠ chr '|') = chr '|' :: rest := by
  rw [← List.append_assoc, List.dropWhile_append_of_pos (hw.noBar_append hr), List.dropWhile_cons_of_neg (by simp)]

theorem find_word : cmdFindBitFlag bitFlags (w ++ str) (BitVec.ofNat 32 w.length) = lookup bitFlags w := by
  have hle : (BitVec.ofNat 32 w.length).toNat ≤ w.length := by
    rw [BitVec.toNat_ofNat]
    exact Nat.mod_le ..
  have hcmp (t : Text) : strncasecmpEq (w ++ str) t (BitVec.ofNat 32 w.length) =
      strncasecmpEq w t (BitVec.ofNat 32 w.length) := by
    rw [strncasecmpEq, strncasecmpEq, List.take_append_of_le_length hle]
  simp only [lookup, cmdFindBitFlag, hcmp]

theorem from_bar : cmdParseBitFlagsFrom bitFlags name value (chr '|' :: rest) n =
    cmdParseBitFlagsFrom bitFlags name value rest n := by
  cases n with
  | zero => rfl
  | succ n =>
    rw [cmdParseBitFlagsFrom, cmdParseBitFlagsFrom, List.dropWhile_cons_of_pos (by simp)]

theorem from_spaces (h : Spaces l) : cmdParseBitFlagsFrom bitFlags name value (l ++ rest) n =
    cmdParseBitFlagsFrom bitFlags name value rest n := by
  cases n with
  | zero => rfl
  | succ n => rw [cmdParseBitFlagsFrom, cmdParseBitFlagsFrom, skip_spaces h]

/-- A pass over a word that a `|` follows. -/
theorem from_word (hl : Spaces l) (hw : FlagWord w) (hr : Spaces r) :
    cmdParseBitFlagsFrom bitFlags name value (l ++ (w ++ (r ++ chr '|' :: rest))) (n + 1) =
      if w.length = 1 then cmdParseBitFlagsFrom bitFlags name value (w ++ (r ++ chr '|' :: rest)) n
      else match lookup bitFlags w with
        | none => some (.error (bitFlagError (BitVec.ofNat 32 w.length) (w ++ (r ++ chr '|' :: rest)) name))
        | some desc => cmdParseBitFlagsFrom bitFlags name (value ||| desc.value) rest n := by
  have hpos := List.length_pos_iff.mpr hw.nonempty
  have hsize : w.length - 1 + 1 = w.length := Nat.sub_add_cancel hpos
  rw [cmdParseBitFlagsFrom, skip_spaces hl, skip_word hw]
  simp only [next_word hw hr, trim_word hw hr, hsize, find_word, from_bar]
  by_cases hone : w.length = 1
  · rw [if_pos hone]
    exact if_pos (by omega)
  · rw [if_neg hone]
    exact if_neg (by omega)

theorem skip_noBar (h : chr '|' ∉ str) :
    str.dropWhile (fun c => c = chr '|' ∨ isSpace c) = str.dropWhile isSpace := by
  induction str with
  | nil => rfl
  | cons c str ih =>
    obtain ⟨hc, hstr⟩ := not_or.mp (List.mem_cons.not.mp h)
    cases hspace : isSpace c with
    | true =>
      rw [List.dropWhile_cons_of_pos (by simp [hspace]), List.dropWhile_cons_of_pos hspace]
      exact ih hstr
    | false =>
      rw [List.dropWhile_cons_of_neg (by simp [hspace, Ne.symm hc]), List.dropWhile_cons_of_neg (by simp [hspace])]

/-- A pass over the last word, to which the rest of the string belongs. -/
theorem from_last (h : chr '|' ∉ str) : cmdParseBitFlagsFrom bitFlags name value str (n + 1) =
    match lookup bitFlags (str.dropWhile isSpace) with
    | none => some (.error (bitFlagError (BitVec.ofNat 32 (str.dropWhile isSpace).length) (str.dropWhile isSpace) name))
    | some desc => some (.ok (value ||| desc.value)) := by
  have hnext : (str.dropWhile isSpace).dropWhile (· ≠ chr '|') = [] :=
    List.dropWhile_eq_nil_iff.mpr fun c hc => decide_eq_true fun heq =>
      h (heq ▸ (List.dropWhile_suffix isSpace).subset hc)
  rw [cmdParseBitFlagsFrom, skip_noBar h]
  simp only [hnext]
  rfl

/-! ### Termination -/

/-- The loop passes over words that the table has and that are longer than one character, and over nothing. -/
inductive Passed (bitFlags : List CmdBitFlagDesc) : Text → Prop
  | nil : Passed bitFlags []
  | blank {l rest : Text} (hl : Spaces l) (h : Passed bitFlags rest) : Passed bitFlags (l ++ chr '|' :: rest)
  | word {l w r rest : Text} (hl : Spaces l) (hw : FlagWord w) (hr : Spaces r) (hlen : w.length ≠ 1)
      (hfound : (lookup bitFlags w).isSome) (h : Passed bitFlags rest) :
      Passed bitFlags (l ++ (w ++ (r ++ chr '|' :: rest)))

/-- The loop comes to a word of one character that a `|` follows. -/
def Stuck (bitFlags : List CmdBitFlagDesc) (str : Text) : Prop :=
  ∃ before l w r rest, str = before ++ (l ++ (w ++ (r ++ chr '|' :: rest))) ∧ Passed bitFlags before ∧ Spaces l ∧
    FlagWord w ∧ Spaces r ∧ w.length = 1

theorem from_single (hw : FlagWord w) (hr : Spaces r) (hone : w.length = 1) :
    cmdParseBitFlagsFrom bitFlags name value (w ++ (r ++ chr '|' :: rest)) n = none := by
  induction n with
  | zero => rfl
  | succ n ih =>
    have hstep := @from_word bitFlags name value [] w r rest n (by simp [Spaces]) hw hr
    rw [List.nil_append, if_pos hone, ih] at hstep
    exact hstep

theorem from_passed (h : Passed bitFlags before)
    (hrest : ∀ value n, cmdParseBitFlagsFrom bitFlags name value rest n = none) :
    cmdParseBitFlagsFrom bitFlags name value (before ++ rest) n = none := by
  induction h generalizing value n with
  | nil => exact hrest value n
  | blank hl _ ih =>
    rw [List.append_assoc, List.cons_append, from_spaces hl, from_bar]
    exact ih
  | word hl hw hr hlen hfound _ ih =>
    cases n with
    | zero => rfl
    | succ n =>
      obtain ⟨desc, hdesc⟩ := Option.isSome_iff_exists.mp hfound
      simp only [List.append_assoc, List.cons_append]
      rw [from_word hl hw hr, if_neg hlen, hdesc]
      exact ih

theorem Stuck.from_none (h : Stuck bitFlags str) : cmdParseBitFlagsFrom bitFlags name value str n = none := by
  obtain ⟨before, l, w, r, rest, rfl, hpassed, hl, hw, hr, hone⟩ := h
  exact from_passed hpassed fun value n => by rw [from_spaces hl, from_single hw hr hone]

theorem exists_word {p : Text} (h : chr '|' ∉ p) :
    Spaces p ∨ ∃ l w r, p = l ++ (w ++ r) ∧ Spaces l ∧ FlagWord w ∧ Spaces r := by
  have hl : Spaces (p.takeWhile isSpace) := fun c hc => List.mem_takeWhile_imp hc
  cases hq : p.dropWhile isSpace with
  | nil => exact .inl (List.dropWhile_eq_nil_iff.mp hq)
  | cons c q =>
    have hc : isSpace c = false := by
      have hhead := List.head?_dropWhile_not isSpace p
      rw [hq] at hhead
      simpa using hhead
    have hsplit := @List.rdropWhile_append_rtakeWhile _ isSpace (c :: q)
    have hne : (c :: q).rdropWhile isSpace ≠ [] := fun hnil =>
      absurd (List.rdropWhile_eq_nil_iff.mp hnil c List.mem_cons_self) (by simp [hc])
    refine .inr ⟨p.takeWhile isSpace, (c :: q).rdropWhile isSpace, (c :: q).rtakeWhile isSpace, ?_, hl, ⟨hne, ?_, ?_, ?_⟩,
      fun c hc => List.mem_rtakeWhile_imp hc⟩
    · rw [hsplit, ← hq, List.takeWhile_append_dropWhile]
    · intro hmem
      refine h ((List.dropWhile_suffix isSpace).subset ?_)
      rw [hq]
      exact (List.rdropWhile_prefix isSpace _).subset hmem
    · intro d hd
      obtain ⟨d', w', hw⟩ := List.exists_cons_of_ne_nil hne
      rw [hw] at hd hsplit
      obtain rfl := (List.cons.inj hsplit).1
      obtain rfl : d' = d := Option.some.inj hd
      exact hc
    · intro d hd
      rw [List.getLast?_eq_some_getLast hne] at hd
      obtain rfl := Option.some.inj hd
      simpa using List.rdropWhile_last_not isSpace _ hne

/-- The loop comes to a word that the table does not have, and to what the string is from there on. -/
inductive Unsupported (bitFlags : List CmdBitFlagDesc) : Text → Text → Text → Prop
  | last {before rest : Text} (hpassed : Passed bitFlags before) (hbar : chr '|' ∉ rest)
      (hnone : lookup bitFlags (rest.dropWhile isSpace) = none) :
      Unsupported bitFlags (before ++ rest) (rest.dropWhile isSpace) (rest.dropWhile isSpace)
  | inner {before l w r rest : Text} (hpassed : Passed bitFlags before) (hl : Spaces l) (hw : FlagWord w) (hr : Spaces r)
      (hlen : w.length ≠ 1) (hnone : lookup bitFlags w = none) :
      Unsupported bitFlags (before ++ (l ++ (w ++ (r ++ chr '|' :: rest)))) w (w ++ (r ++ chr '|' :: rest))

/-- Behind words that the table has, the loop goes on with another value. -/
theorem yields_passed {res : Except CmdError U32} (h : Passed bitFlags before)
    (hrest : ∀ value, Yields (cmdParseBitFlagsFrom bitFlags name value rest) res) :
    Yields (cmdParseBitFlagsFrom bitFlags name value (before ++ rest)) res := by
  induction h generalizing value with
  | nil => exact hrest value
  | blank hl _ ih =>
    refine (@ih value).congr fun n => ?_
    rw [List.append_assoc, List.cons_append, from_spaces hl, from_bar]
  | word hl hw hr hlen hfound _ ih =>
    obtain ⟨desc, hdesc⟩ := Option.isSome_iff_exists.mp hfound
    refine (@ih (value ||| desc.value)).pass rfl fun n => ?_
    simp only [List.append_assoc, List.cons_append]
    rw [from_word hl hw hr, if_neg hlen, hdesc]

theorem Unsupported.yields {t : Text} (h : Unsupported bitFlags str w t) :
    Yields (cmdParseBitFlagsFrom bitFlags name value str) (.error (bitFlagError (BitVec.ofNat 32 w.length) t name)) := by
  cases h with
  | last hpassed hbar hnone =>
    refine yields_passed hpassed fun value => yields_last rfl fun n => ?_
    rw [from_last hbar, hnone]
  | inner hpassed hl hw hr hlen hnone =>
    refine yields_passed hpassed fun value => yields_last rfl fun n => ?_
    rw [from_word hl hw hr, if_neg hlen, hnone]

/-- What the loop passes over may be preceded by blanks, or by a word. -/
theorem Unsupported.blank {t : Text} (hl : Spaces l) (h : Unsupported bitFlags rest w t) :
    Unsupported bitFlags (l ++ chr '|' :: rest) w t := by
  cases h with
  | @last before rest hpassed hbar hnone =>
    rw [← List.cons_append, ← List.append_assoc]
    exact .last (.blank hl hpassed) hbar hnone
  | inner hpassed hl' hw hr hlen hnone =>
    rw [← List.cons_append, ← List.append_assoc]
    exact .inner (.blank hl hpassed) hl' hw hr hlen hnone

theorem Unsupported.word {u t : Text} (hl : Spaces l) (hw : FlagWord w) (hr : Spaces r) (hlen : w.length ≠ 1)
    (hfound : (lookup bitFlags w).isSome) (h : Unsupported bitFlags rest u t) :
    Unsupported bitFlags (l ++ (w ++ (r ++ chr '|' :: rest))) u t := by
  have hcut (before rest : Text) : l ++ (w ++ (r ++ chr '|' :: (before ++ rest))) =
      l ++ (w ++ (r ++ chr '|' :: before)) ++ rest := by simp
  cases h with
  | last hpassed hbar hnone =>
    rw [hcut]
    exact .last (.word hl hw hr hlen hfound hpassed) hbar hnone
  | inner hpassed hl' hw' hr' hlen' hnone =>
    rw [hcut]
    exact .inner (.word hl hw hr hlen hfound hpassed) hl' hw' hr' hlen' hnone

/-- Where the loop does not come to a word of one character, it comes to the end or to a word that the table does not
    have. -/
theorem ok_or_unsupported (h : ¬Stuck bitFlags str) :
    (∃ v, Yields (cmdParseBitFlagsFrom bitFlags name value str) (.ok v)) ∨ ∃ w t, Unsupported bitFlags str w t := by
  induction hn : str.length using Nat.strong_induction_on generalizing str value with
  | _ n ih =>
    by_cases hbar : chr '|' ∈ str
    · obtain ⟨p, rest, rfl, hp⟩ := List.eq_append_cons_of_mem hbar
      have hless : rest.length < n := by
        rw [← hn, List.length_append, List.length_cons]
        omega
      rcases exists_word hp with hl | ⟨l, w, r, rfl, hl, hw, hr⟩
      · have hrest : ¬Stuck bitFlags rest := by
          rintro ⟨before, l', w, r, rest', rfl, hpassed, hstuck⟩
          exact h ⟨p ++ chr '|' :: before, l', w, r, rest', by simp, .blank hl hpassed, hstuck⟩
        rcases @ih rest.length hless value _ hrest rfl with ⟨v, hv⟩ | ⟨w, t, hbad⟩
        · exact .inl ⟨v, hv.congr fun n => by rw [from_spaces hl, from_bar]⟩
        · exact .inr ⟨w, t, hbad.blank hl⟩
      · simp only [List.append_assoc] at h ⊢
        by_cases hone : w.length = 1
        · exact absurd ⟨[], l, w, r, rest, rfl, .nil, hl, hw, hr, hone⟩ h
        · cases hfound : lookup bitFlags w with
          | none => exact .inr ⟨_, _, .inner .nil hl hw hr hone hfound⟩
          | some desc =>
            have hsome : (lookup bitFlags w).isSome := by rw [hfound]; rfl
            have hrest : ¬Stuck bitFlags rest := by
              rintro ⟨before, l', w', r', rest', rfl, hpassed, hstuck⟩
              exact h ⟨l ++ (w ++ (r ++ chr '|' :: before)), l', w', r', rest', by simp,
                .word hl hw hr hone hsome hpassed, hstuck⟩
            rcases @ih rest.length hless (value ||| desc.value) _ hrest rfl with ⟨v, hv⟩ | ⟨u, t, hbad⟩
            · refine .inl ⟨v, hv.pass rfl fun n => ?_⟩
              rw [from_word hl hw hr, if_neg hone, hfound]
            · exact .inr ⟨u, t, hbad.word hl hw hr hone hsome⟩
    · cases hfound : lookup bitFlags (str.dropWhile isSpace) with
      | none => exact .inr ⟨_, _, .last .nil hbar hfound⟩
      | some desc =>
        refine .inl ⟨value ||| desc.value, yields_last rfl fun n => ?_⟩
        rw [from_last hbar, hfound]

/-- Where the loop does not come to such a word, it ends. -/
theorem exists_yields (h : ¬Stuck bitFlags str) :
    ∃ res, Yields (cmdParseBitFlagsFrom bitFlags name value str) res := by
  rcases ok_or_unsupported h with ⟨v, hv⟩ | ⟨w, t, hbad⟩
  · exact ⟨_, hv⟩
  · exact ⟨_, hbad.yields⟩

/-! ### Lists of words -/

/-- Words between spaces, separated by single `|`, with the spaces after the last one. -/
inductive Lists : Text → List Text → Text → Prop
  | last {l w r : Text} (hl : Spaces l) (hw : FlagWord w) (hr : Spaces r) : Lists (l ++ (w ++ r)) [w] r
  | cons {l w r rest tail : Text} {words : List Text} (hl : Spaces l) (hw : FlagWord w) (hr : Spaces r)
      (h : Lists rest words tail) : Lists (l ++ (w ++ (r ++ chr '|' :: rest))) (w :: words) tail

/-- The words that the loop looks for: the last one goes up to the end of the string. -/
def sought (tail : Text) : List Text → List Text
  | [] => []
  | [w] => [w ++ tail]
  | w :: w' :: words => w :: sought tail (w' :: words)

/-- The bitwise or of the values of the entries for some words. -/
def lookups (bitFlags : List CmdBitFlagDesc) : List Text → Option U32
  | [] => some 0
  | w :: words => (lookup bitFlags w).bind fun desc => (lookups bitFlags words).map (desc.value ||| ·)

/-- The bitwise or of the values of some entries. -/
def orOf (descs : List CmdBitFlagDesc) : U32 := descs.foldr (·.value ||| ·) 0

/-- The word is the name of the entry, in letters of either case. -/
def Names (bitFlags : List CmdBitFlagDesc) (w : Text) (desc : CmdBitFlagDesc) : Prop :=
  desc ∈ bitFlags ∧ w.map toLower = desc.name.map toLower

variable {tail : Text} {words : List Text} {descs : List CmdBitFlagDesc} {desc : CmdBitFlagDesc}

theorem Names.lookup (h : Names bitFlags w desc) : (lookup bitFlags w).isSome := by
  obtain ⟨hmem, hsame⟩ := h
  have hlen : w.length = desc.name.length := by simpa using congrArg List.length hsame
  rw [Cyntatic.lookup, cmdFindBitFlag, List.find?_isSome]
  refine ⟨desc, hmem, decide_eq_true ⟨by rw [hlen], decide_eq_true ?_⟩⟩
  rw [List.map_take, List.map_take, hsame]

theorem Lists.exists_cons (h : Lists str words tail) : ∃ w words', words = w :: words' := by
  cases h with
  | last => exact ⟨_, _, rfl⟩
  | cons => exact ⟨_, _, rfl⟩

/-- A list with a word of one character, other than the last. -/
theorem Lists.stuck (h : Lists str words tail) (hfound : ∀ w ∈ words, (lookup bitFlags w).isSome)
    (hone : ∃ w ∈ words.dropLast, w.length = 1) : Stuck bitFlags str := by
  induction h with
  | last =>
    obtain ⟨w, hw, -⟩ := hone
    cases hw
  | @cons l w r rest tail words hl hw hr h ih =>
    by_cases hlen : w.length = 1
    · exact ⟨[], l, w, r, rest, rfl, .nil, hl, hw, hr, hlen⟩
    · obtain ⟨w', words', rfl⟩ := h.exists_cons
      obtain ⟨u, hu, hone⟩ := hone
      rcases List.mem_cons.mp hu with rfl | hu
      · exact absurd hone hlen
      · obtain ⟨before, l', w₁, r', rest', rfl, hpassed, hstuck⟩ :=
          ih (fun w hw => hfound w (List.mem_cons_of_mem _ hw)) ⟨u, hu, hone⟩
        exact ⟨l ++ (w ++ (r ++ chr '|' :: before)), l', w₁, r', rest', by simp,
          .word hl hw hr hlen (hfound w List.mem_cons_self) hpassed, hstuck⟩

/-- The loop looks for the words one after the other. -/
theorem Lists.run (h : Lists str words tail) (hlen : ∀ w ∈ words.dropLast, w.length ≠ 1) :
    ∃ res, Yields (cmdParseBitFlagsFrom bitFlags name value str) res ∧
      ∀ v, res = .ok v ↔ (lookups bitFlags (sought tail words)).map (value ||| ·) = some v := by
  induction h generalizing value with
  | @last l w r hl hw hr =>
    have hbar : chr '|' ∉ l ++ (w ++ r) := by
      intro hmem
      rcases List.mem_append.mp hmem with hmem | hmem
      · exact space_ne_bar (hl _ hmem) rfl
      · exact of_decide_eq_true (hw.noBar_append hr _ hmem) rfl
    have hskip : (l ++ (w ++ r)).dropWhile isSpace = w ++ r := by
      rw [← skip_noBar hbar, skip_spaces hl, skip_word hw]
    have hstep (n : Nat) := @from_last bitFlags name value (l ++ (w ++ r)) n hbar
    rw [hskip] at hstep
    rw [sought, lookups, lookups]
    cases hfound : lookup bitFlags (w ++ r) with
    | none =>
      simp only [hfound] at hstep
      exact ⟨_, yields_last rfl hstep, fun v => by simp⟩
    | some desc =>
      simp only [hfound] at hstep
      exact ⟨_, yields_last rfl hstep, fun v => by simp⟩
  | @cons l w r rest tail words hl hw hr h ih =>
    obtain ⟨w', words, rfl⟩ := h.exists_cons
    have hone : w.length ≠ 1 := hlen w List.mem_cons_self
    have hstep (n : Nat) := @from_word bitFlags name value l w r rest n hl hw hr
    simp only [if_neg hone] at hstep
    rw [sought, lookups]
    cases hfound : lookup bitFlags w with
    | none =>
      simp only [hfound] at hstep
      exact ⟨_, yields_last rfl hstep, fun v => by simp⟩
    | some desc =>
      simp only [hfound] at hstep
      obtain ⟨res, hrun, hres⟩ := @ih (value ||| desc.value) fun w hw => hlen w (List.mem_cons_of_mem _ hw)
      refine ⟨res, hrun.pass rfl hstep, fun v => ?_⟩
      rw [hres, Option.bind_some, Option.map_map]
      simp only [Function.comp_def, BitVec.or_assoc]

/-- No two names are the same in lower case, none is too long for a `u32`, and none ends with a space. -/
structure Clean (bitFlags : List CmdBitFlagDesc) : Prop where
  names : ∀ d ∈ bitFlags, ∀ e ∈ bitFlags, d.name.map toLower = e.name.map toLower → d = e
  length : ∀ d ∈ bitFlags, d.name.length < 2 ^ 32
  last : ∀ d ∈ bitFlags, ∀ c ∈ d.name.getLast?, isSpace c = false

theorem isSpace_toLower (c : U8) : isSpace (toLower c) = isSpace c := by
  revert c
  decide

theorem strncasecmpEq_length (h : w.length = desc.name.length) (hlen : w.length < 2 ^ 32) :
    strncasecmpEq w desc.name (BitVec.ofNat 32 w.length) = true ↔ w.map toLower = desc.name.map toLower := by
  have hsize : (BitVec.ofNat 32 w.length).toNat = w.length := by
    rw [BitVec.toNat_ofNat, Nat.mod_eq_of_lt hlen]
  rw [strncasecmpEq, decide_eq_true_iff, hsize, List.take_length, h, List.take_length]

/-- An entry that is found has the word as its name. -/
theorem Clean.names_of_lookup (hc : Clean bitFlags) (hlen : w.length < 2 ^ 32) (h : lookup bitFlags w = some desc) :
    Names bitFlags w desc := by
  have hmem := List.mem_of_find?_eq_some h
  have hmatch := List.find?_some h
  obtain ⟨hsize, hsame⟩ := of_decide_eq_true hmatch
  have hequal : w.length = desc.name.length := by
    have hnat := congrArg BitVec.toNat hsize
    rwa [BitVec.toNat_ofNat, BitVec.toNat_ofNat, Nat.mod_eq_of_lt hlen, Nat.mod_eq_of_lt (hc.length desc hmem)] at hnat
  exact ⟨hmem, (strncasecmpEq_length hequal hlen).mp hsame⟩

theorem Clean.lookup_of_names (hc : Clean bitFlags) (h : Names bitFlags w desc) : lookup bitFlags w = some desc := by
  obtain ⟨found, hfound⟩ := Option.isSome_iff_exists.mp h.lookup
  have hlen : w.length < 2 ^ 32 := by
    have hequal := congrArg List.length h.2
    rw [List.length_map, List.length_map] at hequal
    exact hequal ▸ hc.length desc h.1
  obtain ⟨hmem, hsame⟩ := hc.names_of_lookup hlen hfound
  rw [hfound, hc.names found hmem desc h.1 (hsame.symm.trans h.2)]

/-- With a space at its end a word is no name. -/
theorem Clean.lookup_spaces (hc : Clean bitFlags) (hr : Spaces r) (hne : r ≠ []) (hlen : (w ++ r).length < 2 ^ 32) :
    lookup bitFlags (w ++ r) = none := by
  cases hfound : lookup bitFlags (w ++ r) with
  | none => rfl
  | some desc =>
    obtain ⟨hmem, hsame⟩ := hc.names_of_lookup hlen hfound
    have hlast := congrArg List.getLast? hsame
    rw [List.getLast?_map, List.getLast?_map, List.getLast?_append_of_ne_nil _ hne, List.getLast?_eq_some_getLast hne] at hlast
    obtain ⟨c, hc', heq⟩ := Option.map_eq_some_iff.mp hlast.symm
    have hspace := hr _ (List.getLast_mem hne)
    rw [← isSpace_toLower, ← heq, isSpace_toLower, hc.last desc hmem c hc'] at hspace
    cases hspace

theorem sought_nil (words : List Text) : sought [] words = words := by
  induction words with
  | nil => rfl
  | cons w words ih =>
    cases words with
    | nil => rw [sought, List.append_nil]
    | cons w' words => rw [sought, ih]

theorem Clean.lookups_names (hc : Clean bitFlags) (h : List.Forall₂ (Names bitFlags) words descs) :
    lookups bitFlags words = some (orOf descs) := by
  induction h with
  | nil => rfl
  | cons hname _ ih =>
    rw [lookups, hc.lookup_of_names hname, ih]
    rfl

theorem lookups_sought_none (hne : words ≠ []) (h : ∀ w ∈ words, lookup bitFlags (w ++ tail) = none) :
    lookups bitFlags (sought tail words) = none := by
  induction words with
  | nil => exact absurd rfl hne
  | cons w words ih =>
    cases words with
    | nil => rw [sought, lookups, h w List.mem_cons_self, Option.bind_none]
    | cons w' words =>
      rw [sought, lookups, ih (List.cons_ne_nil _ _) fun w hw => h w (List.mem_cons_of_mem _ hw)]
      cases lookup bitFlags w <;> rfl

theorem Lists.spaces (h : Lists str words tail) : Spaces tail ∧ ∀ w ∈ words, (w ++ tail).length ≤ str.length := by
  induction h with
  | @last l w r _ _ hr =>
    refine ⟨hr, List.forall_mem_singleton.mpr ?_⟩
    simp only [List.length_append]
    omega
  | @cons l w r rest tail words _ _ _ h ih =>
    obtain ⟨hspaces, hlength⟩ := ih
    obtain ⟨w', words, rfl⟩ := h.exists_cons
    have htail := hlength w' List.mem_cons_self
    refine ⟨hspaces, List.forall_mem_cons.mpr ⟨?_, fun u hu => ?_⟩⟩
    · simp only [List.length_append, List.length_cons] at htail ⊢
      omega
    · have hu := hlength u hu
      simp only [List.length_append, List.length_cons] at hu ⊢
      omega

theorem Clean.lookups_iff (hc : Clean bitFlags) (h : Lists str words tail)
    (hnames : List.Forall₂ (Names bitFlags) words descs) (hlen : str.length < 2 ^ 32) :
    lookups bitFlags (sought tail words) = some (orOf descs) ↔ tail = [] := by
  constructor
  · intro hfound
    by_contra hne
    obtain ⟨hspaces, hlength⟩ := h.spaces
    obtain ⟨w, words', rfl⟩ := h.exists_cons
    have hnone := @lookups_sought_none bitFlags tail _ (List.cons_ne_nil w words') fun u hu =>
      hc.lookup_spaces hspaces hne ((hlength u hu).trans_lt hlen)
    rw [hnone] at hfound
    cases hfound
  · rintro rfl
    rw [sought_nil, hc.lookups_names hnames]

theorem lookup_isSome (h : List.Forall₂ (Names bitFlags) words descs) : ∀ w ∈ words, (lookup bitFlags w).isSome := by
  induction h with
  | nil => exact fun _ hw => absurd hw List.not_mem_nil
  | cons hname _ ih => exact List.forall_mem_cons.mpr ⟨hname.lookup, ih⟩

theorem cmdParseBitFlags_yields {v : U32} :
    Yields (cmdParseBitFlags bitFlags str name) (.ok (.cmdNumber v.toNat)) ↔
      Yields (cmdParseBitFlagsFrom bitFlags name 0 str) (.ok v) := by
  let g : Except CmdError U32 → Except CmdError CmdFlagValue := fun r => r.map fun value => .cmdNumber value.toNat
  constructor
  · intro h
    refine @Yields.of_map _ _ (cmdParseBitFlagsFrom bitFlags name 0 str) (.ok v) g h fun x hx => ?_
    cases x with
    | error e => cases hx
    | ok u =>
      injection hx with hx
      injection hx with hx
      rw [BitVec.eq_of_toNat_eq hx]
  · exact fun h => h.map g

theorem Stuck.not_yields (h : Stuck bitFlags str) {res : Except CmdError CmdFlagValue} :
    ¬Yields (cmdParseBitFlags bitFlags str name) res := by
  intro hyields
  obtain ⟨n, hn⟩ := hyields.exists_some
  rw [cmdParseBitFlags, h.from_none] at hn
  cases hn

/-- An error comes from a word that the table does not have. -/
theorem cmdParseBitFlags_error {e : CmdError} : Yields (cmdParseBitFlags bitFlags str name) (.error e) ↔
    ∃ w t, Unsupported bitFlags str w t ∧ e = bitFlagError (BitVec.ofNat 32 w.length) t name := by
  have herror {w t : Text} (hbad : Unsupported bitFlags str w t) :
      Yields (cmdParseBitFlags bitFlags str name) (.error (bitFlagError (BitVec.ofNat 32 w.length) t name)) :=
    (@Unsupported.yields _ name 0 _ _ _ hbad).map _
  constructor
  · intro h
    by_cases hstuck : Stuck bitFlags str
    · exact absurd h hstuck.not_yields
    · rcases @ok_or_unsupported bitFlags name 0 str hstuck with ⟨v, hv⟩ | ⟨w, t, hbad⟩
      · cases h.unique (hv.map _)
      · exact ⟨w, t, hbad, Except.error.inj (h.unique (herror hbad))⟩
  · rintro ⟨w, t, hbad, rfl⟩
    exact herror hbad

/-- The call comes to an end if and only if no word of one character that a `|` follows is reached. For a list of names it
    gives the bitwise or of their values if and only if no name but the last has one character, and the entries that are
    found, where the spaces after the last name count as a part of it, have these values; that is, if no space is there
    and no other name is the same in lower case. -/
theorem cmdParseBitFlags_iff (bitFlags : List CmdBitFlagDesc) (str : Text) (name : Option Text) :
    ((∃ res, Yields (cmdParseBitFlags bitFlags str name) res) ↔ ¬Stuck bitFlags str) ∧
    ∀ words tail descs, Lists str words tail → List.Forall₂ (Names bitFlags) words descs →
      (Yields (cmdParseBitFlags bitFlags str name) (.ok (.cmdNumber (orOf descs).toNat)) ↔
        (∀ w ∈ words.dropLast, w.length ≠ 1) ∧ lookups bitFlags (sought tail words) = some (orOf descs)) ∧
      (Clean bitFlags → str.length < 2 ^ 32 →
        (lookups bitFlags (sought tail words) = some (orOf descs) ↔ tail = [])) := by
  refine ⟨⟨fun ⟨res, hres⟩ hstuck => hstuck.not_yields hres, fun h => ?_⟩, fun words tail descs hlist hnames => ⟨?_, ?_⟩⟩
  · obtain ⟨res, hres⟩ := @exists_yields bitFlags name 0 str h
    exact ⟨_, hres.map _⟩
  · have hzero : ((0 : U32) ||| ·) = id := funext fun v => BitVec.zero_or
    rw [cmdParseBitFlags_yields]
    constructor
    · intro hyields
      have hlen : ∀ w ∈ words.dropLast, w.length ≠ 1 := fun w hw hone =>
        (hlist.stuck (lookup_isSome hnames) ⟨w, hw, hone⟩).not_yields (cmdParseBitFlags_yields.mpr hyields)
      obtain ⟨res, hres, hvalue⟩ := @Lists.run bitFlags name 0 _ _ _ hlist hlen
      have hfound := (hvalue _).mp (hres.unique hyields)
      rw [hzero, Option.map_id] at hfound
      exact ⟨hlen, hfound⟩
    · rintro ⟨hlen, hfound⟩
      obtain ⟨res, hres, hvalue⟩ := @Lists.run bitFlags name 0 _ _ _ hlist hlen
      have hok := (hvalue (orOf descs)).mpr (by rw [hzero, Option.map_id, hfound]; rfl)
      exact hok ▸ hres
  · exact fun hc hlen => hc.lookups_iff hlist hnames hlen

end

/-- With the names of the trace flags, a word of one character before a `|` is never left, and a space after the last
    name is an error. -/
theorem not_cmdParseBitFlags : (bitFlagDesc.map CmdBitFlagDesc.name).Nodup ∧
    (∀ n, cmdParseBitFlags bitFlagDesc (ascii ['x', '|', 'A', 'L', 'L']) none n = none) ∧
    Lists (ascii ['A', 'L', 'L', ' ']) [ascii ['A', 'L', 'L']] (ascii [' ']) ∧
    Names bitFlagDesc (ascii ['A', 'L', 'L']) ⟨ascii ['A', 'L', 'L'], 3⟩ ∧
    ∃ e, Yields (cmdParseBitFlags bitFlagDesc (ascii ['A', 'L', 'L', ' ']) none) (.error e) := by
  have hx : FlagWord (ascii ['x']) := ⟨by decide, by decide, by decide, by decide⟩
  have hall : FlagWord (ascii ['A', 'L', 'L']) := ⟨by decide, by decide, by decide, by decide⟩
  have hspaces : Spaces (ascii [' ']) := by
    unfold Spaces
    decide
  refine ⟨by decide, fun n => ?_, .last (l := []) (by simp [Spaces]) hall hspaces, ⟨by decide, rfl⟩,
    _, yields_last rfl fun n => rfl⟩
  have hnone := @from_single bitFlagDesc none 0 (ascii ['x']) [] (ascii ['A', 'L', 'L']) n hx (by simp [Spaces]) rfl
  rw [cmdParseBitFlags]
  exact congrArg (Option.map _) hnone

end Cyntatic
