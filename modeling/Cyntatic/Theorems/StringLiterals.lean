import Cyntatic.Theorems.Escapes
import Cyntatic.Theorems.LexerFaults
import Cyntatic.Theorems.Release

/-! A string that is written with its quotes, backslashes and unprintable characters as octal escapes is read back. -/

namespace Cyntatic
open Library Prog

/-! ### The buffer -/

namespace Buffer
variable {v w : Buffer} {s : List U8}

/-- The buffer of `Lexer_tokString` after `Stream_putc` of some characters. -/
def putChars (s : List U8) : Option Buffer := do
  s.foldlM (fun v c => v.pushArr [c]) (← Vector.reserve {} 64)

theorem Sound.contents_append {x : U8} (hv : v.Sound) (h : v.append x = some w) : w.contents = v.contents ++ [some x] := by
  have h1 := hv.len_nonneg
  obtain ⟨u, hu, hrest⟩ := Option.bind_eq_some_iff.mp h
  obtain ⟨u', hu', -, hl, -, htake⟩ := hv.store_end (store_room hu)
  obtain rfl := Option.some.inj (hu.symm.trans hu')
  obtain ⟨len, hlen, hw⟩ := Option.bind_eq_some_iff.mp hrest
  obtain ⟨-, -, rfl⟩ := int?_eq_some.mp hlen
  obtain rfl := Option.some.inj hw
  have hsucc : (u.len + 1).toNat = v.len.toNat + [some x].length := by
    rw [hl, List.length_singleton]
    omega
  change u.data.take (u.len + 1).toNat = _
  rw [hsucc, htake]

/-- The buffer has the characters that were put, and an entry more. -/
structure Holding (s : List U8) (v : Buffer) : Prop where
  built : v.Built
  contents : v.contents = s.map some
  len : v.len = s.length
  room : v.len < v.data.length
  minimum : v.len = 0 → 2 ≤ v.capacity

theorem Holding.push {c : U8} (h : Holding s v) (hw : v.pushArr [c] = some w) : Holding (s ++ [c]) w := by
  have hs := h.built.reached.sound
  have hlen := h.len
  have hcap := hs.capacity_le
  obtain ⟨n, hn, hrest⟩ := Option.bind_eq_some_iff.mp hw
  obtain ⟨u, hu, happ⟩ := Option.bind_eq_some_iff.mp hrest
  obtain ⟨m, hm, hres⟩ := Option.bind_eq_some_iff.mp hu
  obtain ⟨-, -, rfl⟩ := int?_eq_some.mp hn
  rw [List.length_singleton] at hm
  have hround := le_round2pow2 (by omega) hm
  obtain ⟨hus, hul, hucontents, -⟩ := hs.reserve (by omega) hres
  rw [List.foldlM_cons] at happ
  obtain ⟨u', hu', hnil⟩ := Option.bind_eq_some_iff.mp happ
  obtain rfl := Option.some.inj hnil
  obtain ⟨hd, hl, hc⟩ := Vector.append_spec hu'
  -- what is reserved is more than one entry, unless there were many from the start
  have hroom : v.len + 1 < u.data.length := by
    have hminimum := h.minimum
    obtain ⟨-, ⟨hle, rfl⟩ | ⟨hlt, hcapacity, hdata⟩⟩ := Vector.reserve_spec hres
    · omega
    · omega
  refine ⟨.appendStr h.built hw, ?_, ?_, by omega, by omega⟩
  · rw [hus.contents_append hu', hucontents, h.contents, List.map_append]
    rfl
  · rw [hl, hul, hlen, List.length_append, List.length_singleton]
    omega

theorem Holding.putAll {t : List U8} (h : Holding s v) (hw : t.foldlM (fun v c => v.pushArr [c]) v = some w) :
    Holding (s ++ t) w := by
  induction t generalizing v s with
  | nil =>
    obtain rfl := Option.some.inj hw
    rwa [List.append_nil]
  | cons c t ih =>
    rw [List.foldlM_cons] at hw
    obtain ⟨u, hu, hw⟩ := Option.bind_eq_some_iff.mp hw
    rw [List.append_cons]
    exact ih (h.push hu) hw

theorem holding_putChars (h : putChars s = some v) : Holding s v := by
  have hinit : Vector.reserve ({} : Buffer) 64 = some { data := List.replicate 64 none, len := 0, capacity := 64 } := rfl
  have hempty : Holding [] ({ data := List.replicate 64 none, len := 0, capacity := 64 } : Buffer) :=
    ⟨.init hinit, rfl, rfl, by decide, fun _ => by decide⟩
  exact hempty.putAll h

/-- The block that is released has the characters that were put, with the character that ends them. -/
theorem release_putChars (h : putChars s = some v) (compact : Bool) :
    ∃ mem w, v.release compact = some (mem, w) ∧ mem.take (s.length + 1) = s.map some ++ [some 0] := by
  have hv := holding_putChars h
  obtain ⟨mem, w, hmem, -, htake⟩ := (hv.built.release_sealed compact).mpr (.inr hv.room)
  rw [hv.len, hv.contents] at htake
  exact ⟨mem, w, hmem, htake⟩

end Buffer

/-! ### The literal -/

/-- The three octal digits of a byte. -/
def octal (c : U8) : List U8 := [chr '0' + c >>> 6, chr '0' + (c >>> 3 &&& 7), chr '0' + (c &&& 7)]

/-- The characters that stand for themselves in a string literal. -/
def isPlain (c : U8) : Bool := 0x20 ≤ c ∧ c ≤ 0x7E ∧ c ≠ chr '"' ∧ c ≠ chr '\\'

/-- A byte of a string literal. -/
def quoteByte (c : U8) : List U8 := if isPlain c then [c] else chr '\\' :: octal c

/-- A string literal. -/
def quote (s : List U8) : List U8 := chr '"' :: (s.flatMap quoteByte ++ [chr '"'])

theorem octal_spec : ∀ c : U8, (octal c).all isOct ∧ digitsValue 8 (octal c) = c.toNat ∧
    (octal c).headD eofChar ≠ chr 'u' ∧ (octal c).headD eofChar ≠ chr 'U' := by decide +kernel

theorem isPlain_spec : ∀ c : U8, isPlain c = true → c ≠ eofChar ∧ c ≠ chr '"' ∧ c ≠ chr '\n' ∧ c ≠ chr '\\' := by
  decide +kernel

/-- The escape of a byte. -/
theorem escape?_octal (c : U8) (tail : List U8) : escape? true (octal c ++ tail) = some (BitVec.ofNat 32 c.toNat, 3) := by
  have hspec := octal_spec c
  have htext := @escape?_text (.octal (octal c) (List.cons_ne_nil _ _) (Nat.le_refl 3)
    (List.all_eq_true.mp hspec.1)) tail
    fun hlt => absurd hlt (Nat.lt_irrefl 3)
  rw [← hspec.2.1]
  exact htext

namespace LexM
open Lexer
variable {lX : Lexer} {src s tail os : List U8} {c : U8} {fuel n : Nat} {tok : Token} {strtod : Strtod} {E : LexStop → Prop}

/-- A pass of the loop reads one byte. -/
theorem returns_stringPass (hs : InStep src lX) (hfuel : src.length < fuel) (hexpr : lX.inStrExpr = false)
    (hleft : lX.left = quoteByte c ++ tail) :
    ∃ lX', Returns (stringPass fuel os) lX (.again (os ++ [c])) lX' ∧ Skips lX (quoteByte c).length lX' := by
  have hno {P : Prop} : ¬(lX.inStrExpr = true ∧ P) := fun hand => by rw [hexpr] at hand; cases hand.1
  unfold quoteByte at hleft ⊢
  by_cases hplain : isPlain c = true
  · rw [if_pos hplain] at hleft ⊢
    obtain ⟨heof, hquote, hnl, hslash⟩ := isPlain_spec c hplain
    have hpeek : lX.peek 0 = c := by rw [peek_zero, hleft]; rfl
    refine ⟨lX.advance 1, returns_bind.mpr ⟨_, _, returns_get.mpr ⟨rfl, rfl⟩, ?_⟩, skips_advance lX 1⟩
    dsimp only
    rw [hpeek, if_neg heof, if_neg hquote, if_neg hnl]
    refine returns_bind.mpr ⟨_, _, returns_advance.mpr ⟨rfl, rfl⟩, returns_bind.mpr ⟨_, _, returns_peek.mpr ⟨rfl, rfl⟩, ?_⟩⟩
    rw [if_neg hno, if_pos hslash]
    exact returns_pure.mpr ⟨rfl, rfl⟩
  · rw [if_neg hplain] at hleft ⊢
    have htext : (lX.advance 1).left = octal c ++ tail := by rw [left_advance, hleft]; rfl
    have hescapes := escapes_tokEscapedChar true (hs.advance 1) hfuel
    rw [htext, escape?_octal] at hescapes
    obtain ⟨lX', hret, hskip⟩ := hescapes.returns
    have hput : Returns (putEscape os ((octal c ++ tail).headD eofChar) (BitVec.ofNat 32 c.toNat)) lX' (.again (os ++ [c])) lX' := by
      have hcode : ¬((octal c ++ tail).headD eofChar = chr 'u' ∨ (octal c ++ tail).headD eofChar = chr 'U') :=
        not_or.mpr (octal_spec c).2.2
      have hbyte : (BitVec.ofNat 32 c.toNat).setWidth 8 = c := by
        rw [BitVec.setWidth_ofNat_of_le (by decide), BitVec.ofNat_toNat, BitVec.setWidth_eq]
      rw [putEscape, if_neg hcode, hbyte]
      exact returns_pure.mpr ⟨rfl, rfl⟩
    have hends : Ends (fun _ => False) (fun pass t => pass = .again (os ++ [c]) ∧ t = lX') (stringPass fuel os) lX :=
      ends_stringPass hleft (ends_of_returns (returns_bind.mpr ⟨_, _, hret, hput⟩) ⟨rfl, rfl⟩)
    obtain ⟨_, _, hpass, rfl, rfl⟩ := hends.returns
    exact ⟨_, hpass, (skips_advance lX 1).trans hskip⟩

/-- The loop reads up to the closing quote. -/
theorem returns_stringLoop (hs : InStep src lX) (hfuel : src.length < fuel) (hexpr : lX.inStrExpr = false)
    (hleft : lX.left = s.flatMap quoteByte ++ chr '"' :: tail) (hn : s.length < n) :
    ∃ lX', Returns (iterate .fuel (stringPass fuel) n os) lX (chr '"', os ++ s) lX' ∧
      Skips lX (s.flatMap quoteByte).length lX' := by
  induction s generalizing lX os n with
  | nil =>
    obtain ⟨n, rfl⟩ : ∃ k, n = k + 1 := ⟨n - 1, by omega⟩
    have hpeek : lX.peek 0 = chr '"' := by rw [peek_zero, hleft]; rfl
    have hsame : lX = { lX with inStrExpr := false } := by rw [← hexpr]
    refine ⟨lX, returns_bind.mpr ⟨.done (chr '"', os), lX, returns_bind.mpr ⟨_, _, returns_get.mpr ⟨rfl, rfl⟩, ?_⟩, ?_⟩,
      hs.skips_zero⟩
    · dsimp only
      rw [hpeek, if_neg (by decide), if_pos rfl]
      exact returns_bind.mpr ⟨(), lX, returns_modify.mpr hsame, returns_pure.mpr ⟨rfl, rfl⟩⟩
    · rw [List.append_nil]
      exact returns_pure.mpr ⟨rfl, rfl⟩
  | cons c s ih =>
    obtain ⟨n, rfl⟩ : ∃ k, n = k + 1 := ⟨n - 1, by omega⟩
    rw [List.flatMap_cons, List.append_assoc] at hleft
    obtain ⟨t, hpass, hskip⟩ := @returns_stringPass _ _ _ os _ _ hs hfuel hexpr hleft
    have htext : t.left = s.flatMap quoteByte ++ chr '"' :: tail := by rw [hskip.left, hleft, List.drop_left]
    obtain ⟨lX', hrest, hskip'⟩ := @ih t (os ++ [c]) n (hskip.inStep hs) (hskip.inStrExpr.trans hexpr) htext
      (by rw [List.length_cons] at hn; omega)
    rw [← List.append_cons] at hrest
    refine ⟨lX', returns_bind.mpr ⟨_, _, hpass, hrest⟩, ?_⟩
    rw [List.flatMap_cons, List.length_append]
    exact hskip.trans hskip'

theorem length_le_flatMap_quoteByte (s : List U8) : s.length ≤ (s.flatMap quoteByte).length := by
  induction s with
  | nil => exact Nat.le_refl 0
  | cons c s ih =>
    have hpos : 0 < (quoteByte c).length := by
      unfold quoteByte
      split <;> exact Nat.succ_pos _
    rw [List.flatMap_cons, List.length_append, List.length_cons]
    omega

/-- A literal is read to its end. -/
theorem ends_tokString {start : Nat} {pos : LineColumn} (hs : InStep src lX) (hfuel : src.length < fuel)
    (hexpr : lX.inStrExpr = false) (hleft : lX.left = s.flatMap quoteByte ++ chr '"' :: tail) (hstart : start ≤ lX.idx) :
    Ends E (fun r lX' => r.1 = .tokString ∧ r.2.value = .string s ∧ Skips lX ((s.flatMap quoteByte).length + 1) lX')
      (tokString tok start pos fuel) lX := by
  have hlength : s.length < fuel := by
    have hle := length_le_flatMap_quoteByte s
    have hlen := hs.length_left
    rw [hleft, List.length_append] at hlen
    omega
  obtain ⟨t, hloop, hskip⟩ := @returns_stringLoop _ _ _ _ [] _ _ hs hfuel hexpr hleft hlength
  have hskip' := hskip.trans (skips_advance t 1)
  refine ends_bind_of_returns (returns_get.mpr ⟨rfl, rfl⟩) (ends_bind_of_returns hloop
    (ends_bind_of_returns (returns_get.mpr ⟨rfl, rfl⟩) ?_))
  rw [if_neg fun hand => hand.2 rfl]
  refine ends_bind_of_returns (returns_advance.mpr ⟨rfl, rfl⟩) ?_
  refine ends_bind.mpr (ends_bind_of_returns (returns_get.mpr ⟨rfl, rfl⟩) ?_)
  rw [if_pos (.inl (by rw [hexpr]; rfl))]
  refine ends_of_returns (returns_updateToken.mpr ⟨Nat.le_trans hstart (hskip'.le hs), rfl, rfl⟩) ?_
  rw [if_neg fun hand => by rw [hexpr] at hand; cases hand.1]
  exact ends_pure.mpr ⟨rfl, rfl, hskip'⟩

/-- A literal before which the lexer is, outside a string expression, is the next token: its value is the string, the lexer
    is behind the closing quote, and the block that the value points to has the string and what ends it. -/
theorem next_quote (hs : InStep src lX) (hnext : lX.next.kind = .tokCOUNT) (hexpr : lX.inStrExpr = false)
    (hleft : lX.left = quote s ++ tail) (hfuel : src.length < fuel) :
    (∃ tok lX', Returns (next strtod fuel) lX (.tokString, tok) lX' ∧ tok.value = .string s ∧
      lX'.idx = lX.idx + (quote s).length) ∧
    ∀ v, Buffer.putChars s = some v →
      ∃ mem w, v.release false = some (mem, w) ∧ mem.take (s.length + 1) = s.map some ++ [some 0] := by
  refine ⟨?_, fun v hv => Buffer.release_putChars hv false⟩
  have hcons : lX.left = chr '"' :: (s.flatMap quoteByte ++ chr '"' :: tail) := by
    rw [hleft, quote, List.cons_append, List.append_assoc]
    rfl
  have htake : lX.left.takeWhile isSpace = [] := by
    rw [hcons]
    exact List.takeWhile_cons_of_neg (by decide)
  have hdrop : lX.left.dropWhile isSpace = lX.left := by
    rw [hcons]
    exact List.dropWhile_cons_of_neg (by decide)
  have hround : Ends (fun _ => False) (fun pass lX' => ∃ tok, pass = .done (.tokString, tok) ∧ tok.value = .string s ∧
      Skips lX (1 + ((s.flatMap quoteByte).length + 1)) lX') (round strtod fuel) lX := by
    refine ends_round_of hs hfuel hnext (by rw [htake]; exact List.not_mem_nil) fun t hskip htext => ?_
    rw [htake] at hskip
    rw [hdrop] at htext ⊢
    have hlex : lexemeOf lX.left lX.inStrExpr = .string := by
      rw [hcons]
      rfl
    rw [hlex]
    have hadv := (skips_advance t 1).inStep (hskip.inStep hs)
    have hbody : (t.advance 1).left = s.flatMap quoteByte ++ chr '"' :: tail := by
      rw [left_advance, htext, hcons]
      rfl
    have hstart := (skips_advance t 1).le (hskip.inStep hs)
    refine ends_bind_of_returns (returns_advance.mpr ⟨rfl, rfl⟩)
      ((ends_tokString hadv hfuel (hskip.inStrExpr.trans hexpr) hbody hstart).mono ?_)
    rintro ⟨kind, tok⟩ lX' ⟨hkind, hvalue, hskip'⟩
    obtain rfl : kind = .tokString := hkind
    refine ⟨tok, rfl, hvalue, ?_⟩
    have hall := hskip.trans ((skips_advance t 1).trans hskip')
    rwa [List.length_nil, Nat.zero_add] at hall
  obtain ⟨_, lX', hret, tok, rfl, hvalue, hskip⟩ := hround.returns
  have hlen : (quote s).length = 1 + ((s.flatMap quoteByte).length + 1) := by
    rw [quote, List.length_cons, List.length_append, List.length_singleton]
    omega
  refine ⟨tok, lX', next_of_round hret (Nat.zero_lt_of_lt hfuel), hvalue, ?_⟩
  rw [hlen]
  refine hskip.idx hs ?_
  rw [hleft, List.length_append, hlen]
  exact Nat.le_add_right _ _

/-- A string of a quote, a newline, a digit and a byte above all of ASCII. -/
theorem next_quote_four : (∃ tok lX', Returns (next (fun _ => ⟨0, false, 0⟩) 16) (init {} false (quote [0x22, 0x0A, 0x37, 0xFF]))
    (.tokString, tok) lX' ∧ tok.value = .string [0x22, 0x0A, 0x37, 0xFF] ∧ lX'.idx = 0 + 15) ∧
    ∀ v, Buffer.putChars [0x22, 0x0A, 0x37, 0xFF] = some v →
      ∃ mem w, v.release false = some (mem, w) ∧ mem.take 5 = [some 0x22, some 0x0A, some 0x37, some 0xFF, some 0] :=
  @next_quote (init {} false (quote [0x22, 0x0A, 0x37, 0xFF])) _ _ [] _ _ (inStep_init {} false) rfl rfl rfl (by decide)

end LexM

end Cyntatic
