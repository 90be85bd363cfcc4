import Cyntatic.Theorems.Keywords
import Cyntatic.Theorems.Literals

/-! # What stops the lexer

The literals at which the lexer stops with no error in the log, each with the way in which it stops. Before any other text a
pass of `Lexer_next` moves forward or aborts. -/

namespace Cyntatic
open Library Prog

namespace LexM
open Lexer

variable {src : List U8} {lX : Lexer} {fuel lo start : Nat} {tok : Token} {pos : LineColumn} {text : List U8} {strtod : Strtod}
  {E : LexStop → Prop}

/-! ### Numbers -/

/-- The faults of a number: more digits, or more characters, than `conv` has room for. -/
inductive NumberFault (text : List U8) : LexStop → Prop
  | tooLong (h : TooLong (integerDigits? text)) : NumberFault text .assertion
  | pastConv {n : Nat} (h : floating? text = some n) (hn : 1084 ≤ n) : NumberFault text .overflow

theorem floating?_of_integer {ds : List U8} (hds : integerDigits? text = some ds) : floating? text = none := by
  rw [floating?, pointAt?_of_integer hds, Option.bind_none]

theorem tokNumber_ends (hs : InStep src lX) (hfuel : src.length < fuel) (hstart : StartsNumber lX.left)
    (hno : ∀ e, ¬NumberFault lX.left e) : ∃ r lX', Returns (tokNumber strtod tok fuel) lX r lX' := by
  have hconv : Converts strtod fuel tok lX _ _ _ _ := converts_number hs hfuel
  cases hds : integerDigits? lX.left with
  | some ds =>
    have hdigits := digitsOf_integer hstart hds
    have hlen : ds.length ≤ 39 := Nat.le_of_not_lt fun hlt => hno _ (.tooLong ⟨ds, hds, hlt⟩)
    have hle := (skips_advance lX (prefixLength (integerBase lX.left) + ds.length)).le hs
    obtain ⟨r, lX', hr, -⟩ := setNumber_ends hle
    exact ⟨r, lX', (hconv.integer ds hds r lX').mpr ((parseInteger_iff hs hdigits).mpr ⟨hlen, hr⟩)⟩
  | none =>
    cases hpoint : pointAt? lX.left with
    | some k => exact (floating_iff hs hfuel hpoint).mpr fun n hn => Nat.lt_of_not_le fun hle => hno _ (.pastConv hn hle)
    | none => exact hconv.neither hds hpoint

theorem concludes_number (hs : InStep src lX) (hfuel : src.length < fuel) (hstart : StartsNumber lX.left) :
    Concludes E src (lX.idx + 1) (NumberFault lX.left) (tokNumber strtod tok fuel) lX := by
  have hhead : isDigit (lX.peek 0) ∨ lX.peek 0 = chr '.' := by
    rw [peek_zero]
    exact hstart.imp id And.left
  have hconcludes : Concludes PastConv src _ _ (tokNumber strtod tok fuel) lX := concludes_tokNumber hs hfuel hhead
  constructor
  · rintro e (h | ⟨h, hn⟩)
    · exact hconcludes.fails _ ⟨rfl, h⟩
    · have hshort : ¬TooLong (integerDigits? lX.left) := by
        rintro ⟨ds, hds, -⟩
        rw [floating?_of_integer hds] at h
        cases h
      obtain ⟨k, hpoint⟩ : ∃ k, pointAt? lX.left = some k := by
        obtain ⟨k, hk, -⟩ := Option.bind_eq_some_iff.mp h
        exact ⟨k, hk⟩
      refine ((hconcludes.ends (not_asserts hshort)).mono fun _ _ _ => trivial).iff_returns.mpr fun r lX' hr => ?_
      exact absurd ((floating_iff hs hfuel hpoint).mp ⟨r, lX', hr⟩ _ h) (Nat.not_lt.mpr hn)
  · intro hno
    obtain ⟨r, lX', hr⟩ := @tokNumber_ends _ _ _ tok strtod hs hfuel hstart hno
    have hshort : ¬TooLong (integerDigits? lX.left) := fun h => hno _ (.tooLong h)
    exact ends_of_returns hr ((hconcludes.ends (not_asserts hshort)).of_returns hr)

/-! ### Identifiers and comments -/

/-- A word that is too long for its hash. -/
def WordFault (text : List U8) (e : LexStop) : Prop := e = .overflow ∧ 2 ^ 31 ≤ (text.takeWhile isIdent).length

theorem steady_setWord {stop : Nat} {kw : Option TokenKind} (h : start ≤ stop) : Steady E src lo (setWord tok start stop pos kw) := by
  cases kw with
  | none => exact steady_updateToken h
  | some kw => exact steady_updateToken h

theorem concludes_tokIdent (hs : InStep src lX) (hfuel : src.length < fuel) (hhead : isIdent (lX.peek 0) = true) :
    Concludes E src (lX.idx + 1) (WordFault lX.left) (tokIdent tok fuel) lX := by
  have hpos := takeWhile_pos (by decide) hhead
  refine concludes_bind (returns_get.mpr ⟨rfl, rfl⟩) (concludes_advanceWhile hs (by decide) hfuel fun t ht hidx hleft => ?_)
  refine concludes_bind (returns_get.mpr ⟨rfl, rfl⟩) ?_
  have hlen : (t.rangeFrom lX.idx lX.pos).view.length = (lX.left.takeWhile isIdent).length := by
    have hsrc := ht.idx_le
    rw [Lexer.rangeFrom, Range.view, List.length_take, List.length_drop, ht.src_eq]
    dsimp only
    omega
  unfold WordFault
  rw [← hlen]
  cases hkw : sKeyWordList.get (t.rangeFrom lX.idx lX.pos).view with
  | none =>
    refine ⟨?_, fun hno => absurd ⟨rfl, MapBase.get_none_iff.mp hkw⟩ (hno .overflow)⟩
    rintro e ⟨rfl, -⟩
    refine ends_bind.mpr ?_
    rw [hkw]
    exact ends_stop.mpr rfl
  | some kw =>
    refine concludes_bind (returns_ofOption.mpr ⟨hkw, rfl⟩) (concludes_of_steady ?_ (steady_setWord ?_) ht (by omega))
    · rintro e ⟨-, hle⟩
      rw [MapBase.get_none_iff.mpr hle] at hkw
      cases hkw
    · change lX.idx ≤ t.idx
      omega

/-- A comment ends: at the end of the source there is one more pass. -/
theorem ends_commentLoop {isMultiLine : Bool} {c : U8} (hs : InStep src lX) (hidx : 0 < lX.idx) (hfuel : src.length < fuel) :
    Ends E (fun _ _ => True) (commentLoop isMultiLine fuel c) lX := by
  refine ends_iterate (I := fun _ t => InStep src t) (fun last t => src.length - t.idx + if last.1 = eofChar then 0 else 1) ?_ hs ?_
  · intro last t ht
    by_cases hlast : last.1 = eofChar
    · rw [if_pos hlast, if_pos hlast]
      exact ends_pure.mpr trivial
    have hadv := ht.advance 1
    have hless : src.length - (t.advance 1).idx + (if t.peek 0 = eofChar then 0 else 1) < src.length - t.idx + 1 := by
      have hle := (skips_advance t 1).le ht
      by_cases heof : t.peek 0 = eofChar
      · rw [if_pos heof]
        omega
      · have hlt := lt_of_peek ht heof
        have hstep := lt_advance ht hlt Nat.one_pos
        rw [if_neg heof]
        omega
    rw [if_neg hlast, if_neg hlast]
    refine ends_bind_of_returns (returns_peek.mpr ⟨rfl, rfl⟩) (ends_bind_of_returns (returns_advance.mpr ⟨rfl, rfl⟩) ?_)
    split
    · exact ends_pure.mpr trivial
    refine ends_bind_of_returns (returns_peek.mpr ⟨rfl, rfl⟩) ?_
    split
    · refine ends_bind_of_returns (returns_advance.mpr ⟨rfl, rfl⟩) ?_
      have hle := (skips_advance (t.advance 1) 1).le hadv
      split
      · exact ends_pure.mpr trivial
      · exact ends_pure.mpr ⟨hadv.advance 1, Nat.lt_of_le_of_lt (Nat.add_le_add_right (Nat.sub_le_sub_left hle _) _) hless⟩
    · exact ends_pure.mpr ⟨hadv, hless⟩
  · have hle := hs.idx_le
    split <;> omega

theorem steady_commentLoop {isMultiLine : Bool} {c : U8} (hlo : 0 < lo) (hfuel : src.length < fuel) :
    Steady E src lo (commentLoop isMultiLine fuel c) :=
  steady_of_ends stepwise_commentLoop.forward fun _ hs hle => ends_commentLoop hs (Nat.lt_of_lt_of_le hlo hle) hfuel

theorem ends_tokComment (hs : InStep src lX) (hfuel : src.length < fuel) (hlt : lX.idx < src.length) :
    Ends E (fun _ lX' => InStep src lX' ∧ lX.idx + 1 ≤ lX'.idx) (tokComment tok fuel) lX := by
  refine ends_bind_of_returns (returns_get.mpr ⟨rfl, rfl⟩) (ends_bind_of_returns (returns_advance.mpr ⟨rfl, rfl⟩) ?_)
  refine Steady.ends (hs.advance 1) (lt_advance hs hlt Nat.one_pos) (steady_bind steady_peek fun _ => steady_bind steady_advance
    fun _ => steady_bind (steady_commentLoop (Nat.succ_pos _) hfuel) fun _ => steady_get fun t _ hle => steady_ite ?_ ?_)
  · exact steady_get fun _ _ _ => steady_bind steady_error fun _ => steady_pure
  · exact steady_updateToken (by omega)

/-! ### Strings -/

/-- The text of a string, up to an escape with a value that is no character. -/
inductive WideEscape (inStrExpr : Bool) : List U8 → Prop
  | char {c : U8} {text : List U8} (hc : c ∉ [eofChar, chr '"', chr '\n', chr '\\'])
      (hexpr : ¬(inStrExpr ∧ c = chr '$' ∧ text.headD eofChar = chr '\x7b')) (h : WideEscape inStrExpr text) :
      WideEscape inStrExpr (c :: text)
  | escape {text : List U8} {v : U32} {n : Nat} (hv : escape? true text = some (v, n))
      (hnarrow : text.headD eofChar = chr 'u' ∨ text.headD eofChar = chr 'U' → v < 0x200000)
      (h : WideEscape inStrExpr (text.drop n)) : WideEscape inStrExpr (chr '\\' :: text)
  | wide {text : List U8} {v : U32} {n : Nat} (hv : escape? true text = some (v, n))
      (hcode : text.headD eofChar = chr 'u' ∨ text.headD eofChar = chr 'U') (hwide : 0x200000 ≤ v) :
      WideEscape inStrExpr (chr '\\' :: text)

/-- The end of a pass of the loop of `Lexer_tokString` at an escape, of which `cc` is the letter. -/
def putEscape (os : List U8) (cc : U8) (value : U32) : LexM (Pass (List U8) (U8 × List U8)) :=
  if cc = chr 'u' ∨ cc = chr 'U' then do
    let bytes ← ofOption .assertion (putUtf8 value)
    return .again (os ++ bytes)
  else return .again (os ++ [value.setWidth 8])

/-- A pass of the loop of `Lexer_tokString`. -/
def stringPass (fuel : Nat) (os : List U8) : LexM (Pass (List U8) (U8 × List U8)) := do
  let lX ← get
  let c := lX.peek 0
  if c = eofChar then return .done (c, os)
  else if c = chr '"' then do
    modify fun lX => { lX with inStrExpr := false }
    return .done (c, os)
  else if c = chr '\n' then return .done (c, os)
  else do
    let _ ← advance 1
    let cc ← peek 0
    if lX.inStrExpr ∧ c = chr '$' ∧ cc = chr '\x7b' then return .done (c, os)
    else if c ≠ chr '\\' then return .again (os ++ [c])
    else do
      let value ← tokEscapedChar true fuel
      putEscape os cc value

theorem stringLoop_eq (fuel : Nat) : stringLoop fuel = iterate .fuel (stringPass fuel) fuel [] := rfl

theorem putUtf8_eq_none {v : U32} : putUtf8 v = none ↔ 0x200000 ≤ v := by
  rw [← BitVec.not_lt]
  unfold putUtf8
  split
  · exact iff_of_false nofun (by bv_omega)
  split
  · exact iff_of_false nofun (by bv_omega)
  split
  · exact iff_of_false nofun (by bv_omega)
  split
  · exact iff_of_false nofun (by bv_omega)
  · exact iff_of_true rfl ‹_›

section
variable {b : Bool} {c : U8} {v : U32} {n : Nat}

theorem not_wideEscape_nil : ¬WideEscape b [] := fun h => by cases h

theorem not_wideEscape_stop (hc : c = eofChar ∨ c = chr '"' ∨ c = chr '\n') : ¬WideEscape b (c :: text) := by
  intro h
  cases h with
  | char hmem =>
    refine hmem ?_
    rcases hc with rfl | rfl | rfl <;> decide
  | escape => exact absurd hc (by decide)
  | wide => exact absurd hc (by decide)

theorem not_wideEscape_expr (hexpr : b ∧ c = chr '$' ∧ text.headD eofChar = chr '\x7b') : ¬WideEscape b (c :: text) := by
  intro h
  cases h with
  | char _ hno => exact hno hexpr
  | escape => exact absurd hexpr.2.1 (by decide)
  | wide => exact absurd hexpr.2.1 (by decide)

theorem wideEscape_char (hc : c ∉ [eofChar, chr '"', chr '\n', chr '\\'])
    (hexpr : ¬(b ∧ c = chr '$' ∧ text.headD eofChar = chr '\x7b')) : WideEscape b (c :: text) ↔ WideEscape b text := by
  refine ⟨fun h => ?_, .char hc hexpr⟩
  cases h with
  | char _ _ h => exact h
  | escape => exact absurd (by decide) hc
  | wide => exact absurd (by decide) hc

theorem wideEscape_escape (hv : escape? true text = some (v, n)) : WideEscape b (chr '\\' :: text) ↔
    ((text.headD eofChar = chr 'u' ∨ text.headD eofChar = chr 'U') ∧ 0x200000 ≤ v) ∨ WideEscape b (text.drop n) := by
  constructor
  · intro h
    cases h with
    | char hmem => exact absurd (by decide) hmem
    | escape hv' _ h =>
      obtain ⟨-, rfl⟩ := Prod.mk.inj (Option.some.inj (hv.symm.trans hv'))
      exact .inr h
    | wide hv' hcode hle =>
      obtain ⟨rfl, -⟩ := Prod.mk.inj (Option.some.inj (hv.symm.trans hv'))
      exact .inl ⟨hcode, hle⟩
  · intro h
    by_cases hwide : (text.headD eofChar = chr 'u' ∨ text.headD eofChar = chr 'U') ∧ 0x200000 ≤ v
    · exact .wide hv hwide.1 hwide.2
    · exact .escape hv (fun hcode => BitVec.not_le.mp fun hle => hwide ⟨hcode, hle⟩) (h.resolve_left hwide)

theorem not_wideEscape_abort (hv : escape? true text = none) : ¬WideEscape b (chr '\\' :: text) := by
  intro h
  cases h with
  | char hmem => exact absurd (by decide) hmem
  | escape hv' => cases hv.symm.trans hv'
  | wide hv' => cases hv.symm.trans hv'

end

theorem ends_stringPass {Q : Pass (List U8) (U8 × List U8) → Lexer → Prop} {os : List U8} (hleft : lX.left = chr '\\' :: text)
    (h : Ends E Q (tokEscapedChar true fuel >>= putEscape os (text.headD eofChar)) (lX.advance 1)) :
    Ends E Q (stringPass fuel os) lX := by
  have hpeek : lX.peek 0 = chr '\\' := by rw [peek_zero, hleft, List.headD_cons]
  have hnext : (lX.advance 1).peek 0 = text.headD eofChar := by rw [peek_zero, left_advance, hleft]; rfl
  refine ends_bind_of_returns (returns_get.mpr ⟨rfl, rfl⟩) ?_
  dsimp only
  rw [hpeek, if_neg (by decide), if_neg (by decide), if_neg (by decide)]
  refine ends_bind_of_returns (returns_advance.mpr ⟨rfl, rfl⟩) (ends_bind_of_returns (returns_peek.mpr ⟨rfl, rfl⟩) ?_)
  rw [if_neg fun hexpr => absurd hexpr.2.1 (by decide), if_neg (not_not.mpr rfl), hnext]
  exact h

/-- The loop ends behind the text of the string, or at an escape that is no character. -/
theorem concludes_stringLoop {n : Nat} {os : List U8} (hs : InStep src lX) (hfuel : src.length < fuel)
    (hn : lX.left.length < n) : Concludes Regular src lX.idx (Asserts (WideEscape lX.inStrExpr lX.left))
      (iterate .fuel (stringPass fuel) n os) lX := by
  induction n generalizing lX os with
  | zero => omega
  | succ n ih =>
    have hdone {r t} (hno : ¬WideEscape lX.inStrExpr lX.left) (hr : Returns (stringPass fuel os) lX (.done r) t)
        (ht : InStep src t ∧ lX.idx ≤ t.idx) : Concludes Regular src lX.idx (Asserts (WideEscape lX.inStrExpr lX.left))
          (iterate .fuel (stringPass fuel) (n + 1) os) lX :=
      concludes_of_ends (not_asserts hno) (ends_iterate_done hr ht)
    have hagain {os' k t} (hiff : WideEscape lX.inStrExpr lX.left ↔ WideEscape lX.inStrExpr (lX.left.drop (k + 1)))
        (hr : Returns (stringPass fuel os) lX (.again os') t) (ht : Skips lX (k + 1) t) (hpos : lX.left ≠ []) :
        Concludes Regular src lX.idx (Asserts (WideEscape lX.inStrExpr lX.left))
          (iterate .fuel (stringPass fuel) (n + 1) os) lX := by
      have hlen := List.length_pos_iff.mpr hpos
      have hrest := @ih t os' (ht.inStep hs) (by rw [ht.left, List.length_drop]; omega)
      rw [ht.left, ht.inStrExpr, ← hiff] at hrest
      exact concludes_bind hr (hrest.mono (ht.le hs))
    -- what the pass does, up to the first character
    have hpass {x t} : Returns (stringPass fuel os) lX x t ↔ _ := returns_bind_of_returns (returns_get.mpr ⟨rfl, rfl⟩)
    dsimp only at hpass
    rcases hleft : lX.left with _ | ⟨c, text⟩
    · rw [hleft] at hdone
      have hpeek : lX.peek 0 = eofChar := by rw [peek_zero, hleft, List.headD_nil]
      rw [if_pos hpeek] at hpass
      exact hdone not_wideEscape_nil (hpass.mpr (returns_pure.mpr ⟨rfl, rfl⟩)) ⟨hs, Nat.le_refl _⟩
    have hpeek : lX.peek 0 = c := by rw [peek_zero, hleft, List.headD_cons]
    have htext : (lX.advance 1).left = text := by rw [left_advance, hleft]; rfl
    rw [hleft] at hdone hagain
    rw [hpeek] at hpass
    by_cases heof : c = eofChar
    · rw [if_pos heof] at hpass
      exact hdone (not_wideEscape_stop (.inl heof)) (hpass.mpr (returns_pure.mpr ⟨rfl, rfl⟩)) ⟨hs, Nat.le_refl _⟩
    rw [if_neg heof] at hpass
    by_cases hquote : c = chr '"'
    · rw [if_pos hquote] at hpass
      exact hdone (not_wideEscape_stop (.inr (.inl hquote)))
        (hpass.mpr (returns_bind.mpr ⟨(), _, returns_modify.mpr rfl, returns_pure.mpr ⟨rfl, rfl⟩⟩))
        ⟨⟨hs.src_eq, hs.idx_le, hs.pos_eq, hs.next⟩, Nat.le_refl _⟩
    rw [if_neg hquote] at hpass
    by_cases hnl : c = chr '\n'
    · rw [if_pos hnl] at hpass
      exact hdone (not_wideEscape_stop (.inr (.inr hnl))) (hpass.mpr (returns_pure.mpr ⟨rfl, rfl⟩)) ⟨hs, Nat.le_refl _⟩
    rw [if_neg hnl] at hpass
    -- and behind it
    have hskip := skips_advance lX 1
    have hbehind {x t} := (@hpass x t).trans ((returns_bind_of_returns (returns_advance.mpr ⟨rfl, rfl⟩)).trans
      (returns_bind_of_returns (returns_peek.mpr ⟨rfl, rfl⟩)))
    rw [peek_zero, htext] at hbehind
    by_cases hexpr : lX.inStrExpr = true ∧ c = chr '$' ∧ text.headD eofChar = chr '\x7b'
    · rw [if_pos hexpr] at hbehind
      exact hdone (not_wideEscape_expr hexpr) (hbehind.mpr (returns_pure.mpr ⟨rfl, rfl⟩)) ⟨hs.advance 1, hskip.le hs⟩
    rw [if_neg hexpr] at hbehind
    by_cases hslash : c = chr '\\'
    · subst hslash
      rw [if_neg (not_not.mpr rfl)] at hbehind
      have hesc := escapes_tokEscapedChar true (hs.advance 1) hfuel
      rw [htext] at hesc
      cases hv : escape? true text with
      | none =>
        rw [hv] at hesc
        refine concludes_of_ends (not_asserts (not_wideEscape_abort hv)) (ends_bind.mpr (ends_stringPass hleft ?_))
        exact ends_bind.mpr (hesc.imp (fun _ he => he.1) fun _ _ hsome => by cases hsome.choose_spec.1)
      | some r =>
        obtain ⟨v, k⟩ := r
        rw [hv] at hesc
        obtain ⟨t, hr, ht⟩ := hesc.returns
        have hput {x t'} := (@hbehind x t').trans (returns_bind_of_returns hr)
        have hiff := @wideEscape_escape _ lX.inStrExpr _ _ hv
        have hskip' : Skips lX (k + 1) t := Nat.add_comm 1 k ▸ hskip.trans ht
        unfold putEscape at hput
        by_cases hcode : text.headD eofChar = chr 'u' ∨ text.headD eofChar = chr 'U'
        · cases hbytes : putUtf8 v with
          | none =>
            have hwide := hiff.mpr (.inl ⟨hcode, putUtf8_eq_none.mp hbytes⟩)
            refine ⟨?_, fun hno => absurd ⟨rfl, hwide⟩ (hno .assertion)⟩
            rintro e ⟨rfl, -⟩
            refine ends_bind.mpr (ends_stringPass hleft (ends_bind_of_returns hr ?_))
            rw [putEscape, if_pos hcode, hbytes]
            exact ends_bind.mpr (ends_stop.mpr rfl)
          | some bytes =>
            rw [if_pos hcode] at hput
            have hnarrow : ¬0x200000 ≤ v := fun hle => by cases hbytes.symm.trans (putUtf8_eq_none.mpr hle)
            rw [or_iff_right fun hwide => hnarrow hwide.2] at hiff
            exact hagain hiff (hput.mpr (returns_bind.mpr ⟨bytes, t, returns_ofOption.mpr ⟨hbytes, rfl⟩, returns_pure.mpr ⟨rfl, rfl⟩⟩))
              hskip' (List.cons_ne_nil _ _)
        · rw [if_neg hcode] at hput
          rw [or_iff_right fun hwide => hcode hwide.1] at hiff
          exact hagain hiff (hput.mpr (returns_pure.mpr ⟨rfl, rfl⟩)) hskip' (List.cons_ne_nil _ _)
    · rw [if_pos hslash] at hbehind
      exact @hagain _ 0 _ (wideEscape_char (by simp [heof, hquote, hnl, hslash]) hexpr)
        (hbehind.mpr (returns_pure.mpr ⟨rfl, rfl⟩)) hskip (List.cons_ne_nil _ _)

theorem steady_unterminatedString (hfuel : src.length < fuel) : Steady E src lo (unterminatedString tok start pos fuel) :=
  steady_bind (steady_eatWhile hfuel) fun _ => steady_get fun _ _ _ => steady_bind steady_error fun _ =>
    steady_bind steady_peek fun _ => steady_bind steady_advanceIf fun _ => steady_pure

theorem steady_setString {b : Bool} {os : List U8} (h : start ≤ lo) : Steady E src lo (setString tok b start pos os) :=
  steady_get fun _ _ hle => steady_ite (steady_updateToken (Nat.le_trans h hle)) steady_pure

theorem steady_closeStrExpr {r : TokenKind × Token} (h : start ≤ lo) : Steady E src lo (closeStrExpr r start pos) := by
  refine steady_of_ends stepwise_closeStrExpr.forward fun t _ hle => ends_bind.mpr (ends_get.mpr ?_)
  have hstart := Nat.le_trans h hle
  split
  · exact ends_of_returns (returns_updateToken.mpr ⟨hstart, rfl, rfl⟩) trivial
  · refine ends_bind_of_returns (returns_updateToken.mpr ⟨hstart, rfl, rfl⟩) (ends_bind.mpr (ends_modify.mpr ?_))
    exact ends_pure.mpr trivial

theorem concludes_tokString (hs : InStep src lX) (hfuel : src.length < fuel) (hstart : start ≤ lX.idx) :
    Concludes Regular src lX.idx (Asserts (WideEscape lX.inStrExpr lX.left)) (tokString tok start pos fuel) lX := by
  have hlen := hs.length_left
  refine concludes_bind (returns_get.mpr ⟨rfl, rfl⟩) (Concludes.bind (concludes_stringLoop hs hfuel (by omega)) fun str => ?_)
  refine steady_get fun t _ hle => steady_ite (steady_unterminatedString hfuel) (steady_bind steady_advance fun _ => ?_)
  have hstart' := Nat.le_trans hstart hle
  exact steady_bind (steady_setString hstart') fun r => steady_ite (steady_closeStrExpr hstart') steady_pure

/-! ### Lexemes -/

/-- The character that a lexeme begins with, and the one behind it. -/
def Lexeme.Starts (c cc : U8) : Lexeme → Prop
  | .char => c = chr '\''
  | .number => isDigit c ∨ c = chr '.' ∧ isDigit cc
  | .ident => isIdent c
  | .add _ n => 0 < n ∧ c ≠ eofChar
  | .eof => c = eofChar
  | _ => c ≠ eofChar

section
variable {c cc ccc : U8} {b : Bool}

theorem starts_ifElse {ch : Char} {t e : TokenKind} (h : c ≠ eofChar) : (ifElse cc ch t e).Starts c cc := by
  unfold ifElse
  split <;> exact ⟨by decide, h⟩

theorem starts_ifElse2 {c2 c3 : Char} {t e ee : TokenKind} (h : c ≠ eofChar) : (ifElse2 cc ccc c2 c3 t e ee).Starts c cc := by
  unfold ifElse2
  split
  · split
    · exact h
    · exact ⟨by decide, h⟩
  · exact ⟨by decide, h⟩

theorem eq_chr_of_ofNat : ∀ c : U8, (Char.ofNat c.toNat = '\'' → c = chr '\'') ∧ (Char.ofNat c.toNat = '.' → c = chr '.') ∧
    (Char.ofNat c.toNat = 'f' → isIdent c = true) := by decide +kernel

theorem isIdent_of_range : ∀ c : U8, c = chr '_' ∨ isLower c ∨ isUpper c → isIdent c = true := by decide +kernel

theorem lexeme_starts : (lexeme c cc ccc b).Starts c cc := by
  obtain ⟨hquote, hdot, hf⟩ := eq_chr_of_ofNat c
  unfold lexeme
  split
  case h_13 heq =>
    split
    · exact .inr ⟨hdot heq, ‹_›⟩
    · exact starts_ifElse2 (by rw [hdot heq]; decide)
  case h_30 heq => exact hquote heq
  case h_32 heq =>
    split
    · rintro rfl
      exact absurd heq (by decide)
    · exact hf heq
  case h_33 =>
    split
    · exact .inl ‹_›
    split
    · exact isIdent_of_range c ‹_›
    split
    · assumption
    · assumption
  all_goals
    rename_i heq
    have hne : c ≠ eofChar := by
      rintro rfl
      exact absurd heq (by decide)
    repeat' first
      | exact ⟨by decide, hne⟩
      | exact hne
      | exact starts_ifElse hne
      | exact starts_ifElse2 hne
      | split

end

/-- The faults of a lexeme, of which the text begins with it. -/
def Lexeme.Fault (inStrExpr : Bool) (text : List U8) (e : LexStop) : Lexeme → Prop
  | .char => CharFault (text.drop 1) e
  | .string | .strEnd => Asserts (WideEscape inStrExpr (text.drop 1)) e
  | .number => NumberFault text e
  | .ident => WordFault text e
  | _ => False

/-- Characters, and then a token that ends behind them. -/
theorem concludes_advance {fault : LexStop → Prop} {f : Nat → LexM (TokenKind × Token)} {n : Nat} (hs : InStep src lX)
    (hlt : lX.idx < src.length) (hn : 0 < n) (hno : ∀ e, ¬fault e) (hf : Steady Regular src lX.idx (f lX.idx)) :
    Concludes Regular src (lX.idx + 1) fault (advance n >>= f) lX := by
  exact concludes_bind (returns_advance.mpr ⟨rfl, rfl⟩)
    (concludes_of_steady hno (hf.mono (Nat.le_succ _)) (hs.advance n) (lt_advance hs hlt hn))

theorem concludes_tokLexeme {x : Lexeme} (hs : InStep src lX) (hfuel : src.length < fuel)
    (hx : x.Starts (lX.peek 0) (lX.peek 1)) : Concludes Regular src (if x = .eof then lX.idx else lX.idx + 1)
      (fun e => x.Fault lX.inStrExpr lX.left e) (tokLexeme strtod fuel tok lX x) lX := by
  have hlt (hne : lX.peek 0 ≠ eofChar) : lX.idx < src.length := lt_of_peek hs hne
  have hstring (hlt : lX.idx < src.length) : Concludes Regular src (lX.idx + 1) (Asserts (WideEscape lX.inStrExpr (lX.left.drop 1)))
      (advance 1 >>= fun _ => tokString tok lX.idx lX.pos fuel) lX := by
    have hadv := lt_advance hs hlt Nat.one_pos
    have hstr := @concludes_tokString _ _ _ lX.idx tok lX.pos (hs.advance 1) hfuel hadv.le
    rw [left_advance] at hstr
    exact concludes_bind (returns_advance.mpr ⟨rfl, rfl⟩) (hstr.mono hadv)
  cases x with
  | add kind n =>
    exact concludes_advance hs (hlt hx.2) hx.1 (fun _ h => h) (steady_updateToken (Nat.le_refl _))
  | addThree kind =>
    exact concludes_advance hs (hlt hx) (Nat.succ_pos _) (fun _ h => h)
      (steady_advance_bind fun i hi => steady_updateToken hi)
  | comment => exact concludes_of_ends (fun _ h => h) (ends_tokComment hs hfuel (hlt hx))
  | strEnd => exact hstring (hlt hx)
  | char => exact concludes_tokChar hs hfuel hx
  | string => exact hstring (hlt hx)
  | strExpr =>
    have hexpr : InStep src { lX with inStrExpr := true } := ⟨hs.src_eq, hs.idx_le, hs.pos_eq, hs.next⟩
    exact concludes_bind (a := ()) (returns_modify.mpr rfl)
      (concludes_advance hexpr (hlt hx) Nat.one_pos (fun _ h => h) (steady_updateToken (Nat.le_refl _)))
  | ident => exact concludes_tokIdent hs hfuel hx
  | number =>
    refine concludes_number hs hfuel ?_
    rwa [StartsNumber, ← peek_zero, ← peek_eq]
  | eof => exact concludes_of_steady (fun _ h => h) steady_pure hs (Nat.le_refl _)
  | error =>
    exact concludes_advance hs (hlt hx) Nat.one_pos (fun _ h => h) (steady_bind steady_error fun _ => steady_pure)

/-- The lexeme that a text begins with. -/
def lexemeOf (text : List U8) (inStrExpr : Bool) : Lexeme :=
  lexeme (text.headD eofChar) (text.getD 1 eofChar) (text.getD 2 eofChar) inStrExpr

end LexM

open LexM

/-- How far the lexer is from the end of the source, where a token that is kept for the next call counts. -/
def Lexer.toGo (lX : Lexer) : Nat := 2 * (lX.src.length - lX.idx) + if lX.next.kind = .tokCOUNT then 0 else 1

/-- The next pass stops so: there is no token before it but a literal with that fault. -/
structure Lexer.Faulty (lX : Lexer) (e : LexStop) : Prop where
  next : lX.next.kind = .tokCOUNT
  newline : chr '\n' ∉ lX.left.takeWhile isSpace
  fault : (lexemeOf (lX.left.dropWhile isSpace) lX.inStrExpr).Fault lX.inStrExpr (lX.left.dropWhile isSpace) e

namespace LexM
open Lexer
variable {src : List U8} {lX : Lexer} {fuel : Nat} {strtod : Strtod} {E : LexStop → Prop}

theorem toGo_lt {lX' : Lexer} (hs : InStep src lX) (hs' : InStep src lX') (hlt : lX.idx < lX'.idx) : lX'.toGo < lX.toGo := by
  have hle := hs'.idx_le
  unfold Lexer.toGo
  rw [hs.src_eq, hs'.src_eq]
  split <;> split <;> omega

/-- A pass that comes to a lexeme. -/
theorem ends_round_of {Q : Pass Unit (TokenKind × Token) → Lexer → Prop} (hs : InStep src lX) (hfuel : src.length < fuel)
    (hnext : lX.next.kind = .tokCOUNT) (hnl : chr '\n' ∉ lX.left.takeWhile isSpace)
    (h : ∀ t, Skips lX (lX.left.takeWhile isSpace).length t → t.left = lX.left.dropWhile isSpace →
      Ends E (fun r lX' => Q (toPass r) lX')
      (tokLexeme strtod fuel (emptyToken lX) t (lexemeOf (lX.left.dropWhile isSpace) lX.inStrExpr)) t) :
    Ends E Q (round strtod fuel) lX := by
  have hlen := hs.length_left
  have htake := (List.takeWhile_prefix isSpace (l := lX.left)).length_le
  obtain ⟨out, hskip, hout⟩ := @skipSpace_ends _ _ fuel (emptyToken lX) hs (by omega)
  rw [if_neg fun h => hnl h.2] at hout
  subst hout
  refine ends_bind_of_returns (returns_get.mpr ⟨rfl, rfl⟩) (ends_bind_of_returns (returns_updateToken.mpr ⟨Nat.le_refl _, rfl, rfl⟩) ?_)
  rw [if_neg (not_not.mpr hnext)]
  refine ends_bind_of_returns hskip ?_
  have hkind : (emptyToken lX).kind = .tokCOUNT := rfl
  rw [if_neg (not_not.mpr hkind)]
  have hleft : (lX.advance (lX.left.takeWhile isSpace).length).left = lX.left.dropWhile isSpace := left_takeWhile lX isSpace
  have hlex := h _ (skips_advance lX _) hleft
  refine ends_bind.mpr (ends_bind_of_returns (returns_get.mpr ⟨rfl, rfl⟩) ?_)
  rw [peek_zero, peek_eq _ 1, peek_eq _ 2, hleft]
  refine hlex.mono fun r t hr => ?_
  unfold toPass at hr
  split
  · rename_i hcount
    rwa [if_pos hcount] at hr
  · rename_i hcount
    rwa [if_neg hcount] at hr

end LexM

end Cyntatic
