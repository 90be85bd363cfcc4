import Cyntatic.Library.Fuel
import Cyntatic.Util.Args

/-! # Help texts are wrapped

`cmdAddIndented` writes the words of a text in lines. A word that does not fit in a line of its own is taken to a new
line again and again. -/

namespace Cyntatic
open Library

/-! ### Words -/

variable {c : U8} {text : Text}

/-- The words of a text, each with the space after it. -/
def helpWords : Text → List Text
  | [] => []
  | c :: text =>
    if c = chr ' ' then [c] :: helpWords text
    else match helpWords text with
      | [] => [[c]]
      | w :: words => (c :: w) :: words

theorem flatten_helpWords (text : Text) : (helpWords text).flatten = text := by
  induction text with
  | nil => rfl
  | cons c text ih =>
    rw [helpWords]
    split
    · rw [List.flatten_cons, ih, List.singleton_append]
    · split
      · rename_i hwords
        rw [hwords] at ih
        rw [← ih]
        rfl
      · rename_i hwords
        rw [hwords] at ih
        rw [← ih]
        rfl

theorem nextWord_space : nextWord (chr ' ' :: text) = (1, text) := by
  rw [nextWord, List.dropWhile_cons_of_neg (by simp), List.takeWhile_cons_of_neg (by simp)]
  rfl

theorem nextWord_cons (hc : c ≠ chr ' ') : nextWord (c :: text) = ((nextWord text).1 + 1, (nextWord text).2) := by
  rw [nextWord, nextWord, List.dropWhile_cons_of_pos (by simp [hc]), List.takeWhile_cons_of_pos (by simp [hc])]
  split <;> rfl

/-- The first word of a text and the rest. -/
theorem helpWords_cut (h : text ≠ []) :
    ∃ w rest, text = w ++ rest ∧ helpWords text = w :: helpWords rest ∧ nextWord text = (w.length, rest) := by
  induction text with
  | nil => exact absurd rfl h
  | cons c text ih =>
    by_cases hc : c = chr ' '
    · exact ⟨[c], text, rfl, by rw [helpWords, if_pos hc], by rw [hc, nextWord_space]; rfl⟩
    · cases text with
      | nil =>
        exact ⟨[c], [], rfl, by simp [helpWords, hc], by rw [nextWord_cons hc]; rfl⟩
      | cons d text =>
        obtain ⟨w, rest, htext, hwords, hnext⟩ := ih (List.cons_ne_nil _ _)
        refine ⟨c :: w, rest, by rw [htext, List.cons_append], ?_, by rw [nextWord_cons hc, hnext]; rfl⟩
        rw [helpWords, if_neg hc, hwords]

/-! ### Lines -/

/-- The words that are written. -/
def writtenWords (out : List HelpOutput) : List Text :=
  out.filterMap fun
    | .word w => some w
    | _ => none

/-- A word that does not fit in the rest of a line fits in a line of its own: `limit` and `i` are those of the line. -/
def Fits (ident col : U32) : U32 → U32 → List Text → Prop
  | _, _, [] => True
  | limit, i, w :: words =>
    if limit < i + BitVec.ofNat 32 w.length then
      ident + BitVec.ofNat 32 w.length ≤ col ∧ Fits ident col col (ident + BitVec.ofNat 32 w.length) words
    else Fits ident col limit (i + BitVec.ofNat 32 w.length) words

variable {ident col added i : U32} {rest w : Text} {words : List Text} {n : Nat}

/-- What is written of a word. -/
def clipped (w : Text) : Text := w.take (BitVec.ofNat 32 w.length).toNat

/-- A pass over a word. -/
theorem addWords_cons (hwords : helpWords text = w :: words) :
    ∃ rest, helpWords rest = words ∧ ∀ added i n, cmdAddWords ident col text added i (n + 1) =
      if col - added < i + BitVec.ofNat 32 w.length then
        (cmdAddIndented ident col text 0 n).map fun r => (.newline :: r.1, r.2)
      else (cmdAddWords ident col rest added (i + BitVec.ofNat 32 w.length) n).map fun r => (.word (clipped w) :: r.1, r.2) := by
  have hne : text ≠ [] := by
    rintro rfl
    cases hwords
  obtain ⟨w', rest, rfl, hcut, hsize⟩ := helpWords_cut hne
  rw [hwords] at hcut
  obtain ⟨rfl, rfl⟩ := List.cons.inj hcut
  refine ⟨rest, rfl, fun added i n => ?_⟩
  have hclip : (w ++ rest).take (BitVec.ofNat 32 w.length).toNat = clipped w := by
    refine List.take_append_of_le_length ?_
    rw [BitVec.toNat_ofNat]
    exact Nat.mod_le ..
  rw [cmdAddWords, if_neg hne, hsize]
  simp only [hclip]

theorem addWords_nil : cmdAddWords ident col [] added i (n + 1) = some ([], true) := by
  rw [cmdAddWords, if_pos rfl]

/-- A new line. -/
theorem addIndented_zero (hcol : 20 ≤ col) (hne : text ≠ []) : cmdAddIndented ident col text 0 (n + 1) =
    (cmdAddWords ident col text 0 ident n).map fun r => (.indent ident :: r.1, r.2) := by
  rw [cmdAddIndented, if_neg (BitVec.not_lt.mpr hcol), if_neg hne, if_pos rfl, if_neg (show ¬(0 : U32) = -1 by decide)]
  rfl

/-! ### Termination -/

/-- A word that does not fit in a line of its own. -/
theorem addWords_none (hcol : 20 ≤ col) (hwords : helpWords text = w :: words)
    (hlong : col < ident + BitVec.ofNat 32 w.length) : cmdAddWords ident col text 0 ident n = none := by
  have hne : text ≠ [] := by
    rintro rfl
    cases hwords
  induction n using Nat.strong_induction_on with
  | _ n ih =>
    match n with
    | 0 => rfl
    | 1 =>
      obtain ⟨rest, -, hstep⟩ := @addWords_cons text ident col w words hwords
      rw [hstep, if_pos (by rwa [sub_zero])]
      rfl
    | n + 2 =>
      obtain ⟨rest, -, hstep⟩ := @addWords_cons text ident col w words hwords
      rw [hstep, if_pos (by rwa [sub_zero]), addIndented_zero hcol hne, ih n (by omega)]
      rfl

theorem addWords_of_not_fits (hcol : 20 ≤ col) (h : ¬Fits ident col (col - added) i (helpWords text)) :
    cmdAddWords ident col text added i n = none := by
  obtain ⟨words, hwords⟩ : ∃ words, helpWords text = words := ⟨_, rfl⟩
  rw [hwords] at h
  induction words generalizing text added i n with
  | nil => exact absurd trivial h
  | cons w words ih =>
    obtain ⟨rest, hrest, hstep⟩ := @addWords_cons text ident col w words hwords
    have hne : text ≠ [] := by
      rintro rfl
      cases hwords
    rw [Fits] at h
    cases n with
    | zero => rfl
    | succ n =>
      rw [hstep]
      by_cases hfit : col - added < i + BitVec.ofNat 32 w.length
      · rw [if_pos hfit] at h ⊢
        cases n with
        | zero => rfl
        | succ n =>
          rw [addIndented_zero hcol hne]
          by_cases hline : ident + BitVec.ofNat 32 w.length ≤ col
          · cases n with
            | zero => rfl
            | succ n =>
              rw [hstep, sub_zero, if_neg (BitVec.not_lt.mpr hline), ih ?_ hrest]
              · rfl
              · rw [sub_zero]
                exact fun hwords => h ⟨hline, hwords⟩
          · rw [addWords_none hcol hwords (BitVec.not_le.mp hline)]
            rfl
      · rw [if_neg hfit] at h ⊢
        rw [ih h hrest]
        rfl

theorem addWords_of_fits (hcol : 20 ≤ col) (h : Fits ident col (col - added) i (helpWords text)) :
    ∃ out, Yields (cmdAddWords ident col text added i) (out, true) ∧
      writtenWords out = (helpWords text).map clipped := by
  obtain ⟨words, hwords⟩ : ∃ words, helpWords text = words := ⟨_, rfl⟩
  rw [hwords] at h ⊢
  induction words generalizing text added i with
  | nil =>
    have hnil : text = [] := by rw [← flatten_helpWords text, hwords, List.flatten_nil]
    subst hnil
    exact ⟨[], yields_last rfl fun n => addWords_nil, rfl⟩
  | cons w words ih =>
    obtain ⟨rest, hrest, hstep⟩ := @addWords_cons text ident col w words hwords
    have hne : text ≠ [] := by
      rintro rfl
      cases hwords
    rw [Fits] at h
    by_cases hfit : col - added < i + BitVec.ofNat 32 w.length
    · rw [if_pos hfit] at h
      obtain ⟨hline, hwords'⟩ := h
      obtain ⟨out, hrun, hout⟩ := @ih rest 0 (ident + BitVec.ofNat 32 w.length) (by rwa [sub_zero]) hrest
      refine ⟨.newline :: .indent ident :: .word (clipped w) :: out, ?_, by simp [writtenWords, ← hout]⟩
      have hword : Yields (cmdAddWords ident col text 0 ident) (.word (clipped w) :: out, true) := by
        refine (hrun.map fun r => (HelpOutput.word (clipped w) :: r.1, r.2)).pass rfl fun n => ?_
        rw [hstep, sub_zero, if_neg (BitVec.not_lt.mpr hline)]
      have hindent : Yields (cmdAddIndented ident col text 0) (.indent ident :: .word (clipped w) :: out, true) :=
        (hword.map fun r => (HelpOutput.indent ident :: r.1, r.2)).pass rfl fun n => addIndented_zero hcol hne
      refine (hindent.map fun r => (HelpOutput.newline :: r.1, r.2)).pass rfl fun n => ?_
      rw [hstep, if_pos hfit]
    · rw [if_neg hfit] at h
      obtain ⟨out, hrun, hout⟩ := @ih rest added (i + BitVec.ofNat 32 w.length) h hrest
      refine ⟨.word (clipped w) :: out, ?_, by simp [writtenWords, ← hout]⟩
      refine (hrun.map fun r => (HelpOutput.word (clipped w) :: r.1, r.2)).pass rfl fun n => ?_
      rw [hstep, if_neg hfit]

/-- The end of the first line, from which the characters before it are taken away. -/
def firstLimit (col added : U32) : U32 := col - if added = -1 then 0 else added

/-- The first call, with the indentation that it writes. -/
theorem addIndented_succ (hcol : 20 ≤ col) (hne : text ≠ []) : cmdAddIndented ident col text added (n + 1) =
    (cmdAddWords ident col text (if added = -1 then 0 else added) ident n).map fun r =>
      ((if added = 0 then [.indent ident] else []) ++ r.1, r.2) := by
  rw [cmdAddIndented, if_neg (BitVec.not_lt.mpr hcol), if_neg hne]

theorem writtenWords_append (out out' : List HelpOutput) : writtenWords (out ++ out') = writtenWords out ++ writtenWords out' :=
  List.filterMap_append

/-- The call comes to an end if and only if every word that does not fit in the rest of its line fits in a line. -/
theorem addIndented_of_fits (hcol : 20 ≤ col) (h : Fits ident col (firstLimit col added) ident (helpWords text)) :
    ∃ out, Yields (cmdAddIndented ident col text added) (out, true) ∧ writtenWords out = (helpWords text).map clipped := by
  by_cases hne : text = []
  · subst hne
    refine ⟨[], yields_last rfl fun n => ?_, rfl⟩
    rw [cmdAddIndented, if_neg (BitVec.not_lt.mpr hcol), if_pos rfl]
  · obtain ⟨out, hrun, hout⟩ := addWords_of_fits hcol h
    refine ⟨_, (hrun.map fun r => ((if added = 0 then [HelpOutput.indent ident] else []) ++ r.1, r.2)).pass rfl fun n =>
      addIndented_succ hcol hne, ?_⟩
    rw [writtenWords_append, hout]
    split <;> rfl

theorem addIndented_of_not_fits (hcol : 20 ≤ col) (h : ¬Fits ident col (firstLimit col added) ident (helpWords text)) :
    cmdAddIndented ident col text added n = none := by
  have hne : text ≠ [] := by
    rintro rfl
    exact h trivial
  cases n with
  | zero => rfl
  | succ n =>
    rw [addIndented_succ hcol hne, addWords_of_not_fits hcol h]
    rfl

/-- Where nothing wraps around, these are the texts whose words all fit in a line of their own. -/
theorem fits_iff {limit : U32} (hlimit : limit.toNat ≤ col.toNat) (hi : ident.toNat ≤ i.toNat)
    (hlen : i.toNat + words.flatten.length < 2 ^ 32) :
    Fits ident col limit i words ↔ ∀ w ∈ words, ident.toNat + w.length ≤ col.toNat := by
  induction words generalizing limit i with
  | nil => exact iff_of_true trivial (by simp)
  | cons w words ih =>
    rw [List.flatten_cons, List.length_append] at hlen
    have hadd (j : U32) (hj : j.toNat ≤ i.toNat) : (j + BitVec.ofNat 32 w.length).toNat = j.toNat + w.length := by
      rw [BitVec.toNat_add, BitVec.toNat_ofNat, Nat.mod_eq_of_lt (show w.length < 2 ^ 32 by omega), Nat.mod_eq_of_lt (by omega)]
    rw [Fits, List.forall_mem_cons]
    simp only [BitVec.lt_def, BitVec.le_def, hadd i (le_refl _), hadd ident hi]
    split
    · rw [ih (le_refl _) (by rw [hadd ident hi]; omega) (by rw [hadd ident hi]; omega)]
    · rw [ih hlimit (by rw [hadd i (le_refl _)]; omega) (by rw [hadd i (le_refl _)]; omega)]
      exact (and_iff_right (by omega)).symm

theorem clipped_eq_iff : clipped w = w ↔ w.length < 2 ^ 32 := by
  rw [clipped, List.take_eq_self_iff, BitVec.toNat_ofNat]
  omega

theorem map_clipped_iff : words.map clipped = words ↔ ∀ w ∈ words, w.length < 2 ^ 32 := by
  have hid : words.map clipped = words ↔ words.map clipped = words.map id := by rw [List.map_id]
  rw [hid, List.map_inj_left]
  exact forall₂_congr fun w _ => clipped_eq_iff

theorem firstLimit_le (h : added = -1 ∨ added ≤ col) : (firstLimit col added).toNat ≤ col.toNat := by
  rw [firstLimit]
  split
  · rw [sub_zero]
  · rename_i hne
    rw [BitVec.toNat_sub_of_le (h.resolve_left hne)]
    exact Nat.sub_le ..

/-- With 20 columns at least, the call comes to an end if and only if every word that does not fit in the rest of its
    line fits in a line of its own, and it has then written every word once and in order if and only if no word is too
    long for a `u32`. Where nothing wraps around, the first is the same as that every word fits behind the indentation. -/
theorem cmdAddIndented_iff (hcol : 20 ≤ col) (ident : U32) (text : Text) (added : U32) :
    (helpWords text).flatten = text ∧
    ((∃ out, Yields (cmdAddIndented ident col text added) (out, true) ∧ writtenWords out = helpWords text) ↔
      Fits ident col (firstLimit col added) ident (helpWords text) ∧ ∀ w ∈ helpWords text, w.length < 2 ^ 32) ∧
    ((∃ res, Yields (cmdAddIndented ident col text added) res) ↔
      Fits ident col (firstLimit col added) ident (helpWords text)) ∧
    (added = -1 ∨ added ≤ col → ident.toNat + text.length < 2 ^ 32 →
      (Fits ident col (firstLimit col added) ident (helpWords text) ↔
        ∀ w ∈ helpWords text, ident.toNat + w.length ≤ col.toNat)) := by
  have hends : (∃ res, Yields (cmdAddIndented ident col text added) res) ↔
      Fits ident col (firstLimit col added) ident (helpWords text) := by
    constructor
    · rintro ⟨res, hres⟩
      by_contra h
      obtain ⟨n, hn⟩ := hres.exists_some
      rw [addIndented_of_not_fits hcol h] at hn
      cases hn
    · intro h
      obtain ⟨out, hrun, -⟩ := addIndented_of_fits hcol h
      exact ⟨_, hrun⟩
  refine ⟨flatten_helpWords text, ⟨?_, ?_⟩, hends, fun hadded hlen => ?_⟩
  · rintro ⟨out, hrun, hout⟩
    have hfits := hends.mp ⟨_, hrun⟩
    obtain ⟨out', hrun', hout'⟩ := addIndented_of_fits hcol hfits
    obtain rfl := (Prod.mk.inj (hrun.unique hrun')).1
    exact ⟨hfits, map_clipped_iff.mp (hout'.symm.trans hout)⟩
  · rintro ⟨hfits, hlen⟩
    obtain ⟨out, hrun, hout⟩ := addIndented_of_fits hcol hfits
    exact ⟨out, hrun, hout.trans (map_clipped_iff.mpr hlen)⟩
  · exact fits_iff (firstLimit_le hadded) (le_refl _) (by rwa [flatten_helpWords])

/-- "Get help" behind an indentation of 30 in 80 columns. -/
theorem cmdAddIndented_iff_help : ∃ out,
    Yields (cmdAddIndented 30 80 (ascii ['G', 'e', 't', ' ', 'h', 'e', 'l', 'p']) (-1)) (out, true) ∧
      writtenWords out = [ascii ['G', 'e', 't', ' '], ascii ['h', 'e', 'l', 'p']] := by
  obtain ⟨-, hiff, -, hsimple⟩ :=
    @cmdAddIndented_iff 80 (by decide) 30 (ascii ['G', 'e', 't', ' ', 'h', 'e', 'l', 'p']) (-1)
  refine hiff.mpr ⟨(hsimple (.inl rfl) (by decide)).mpr ?_, ?_⟩
  · decide
  · decide

/-- The call for a word of 41 characters behind an indentation of 40 in 80 columns never ends. -/
theorem not_cmdAddIndented : ¬∃ res, Yields (cmdAddIndented 40 80 (List.replicate 41 (chr 'x')) (-1)) res := by
  rintro ⟨res, hres⟩
  obtain ⟨n, hn⟩ := hres.exists_some
  rw [addIndented_of_not_fits (by decide)] at hn
  · cases hn
  · rw [fits_iff (by decide) (le_refl _) (by decide)]
    decide

end Cyntatic
