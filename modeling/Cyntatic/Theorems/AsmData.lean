import Cyntatic.Theorems.AsmErrors
import Cyntatic.Theorems.AsmProgram

/-! # Data

How the initialiser of a variable is written, and the bytes that it adds to the constants. -/

namespace Cyntatic
open Library

/-! ### Initialisers -/

/-- The initialiser of a variable. -/
inductive Initializer where
  | bytes (vs : List U32)
  | string (s : List U8)
  | int (n : U64) (isNeg : Bool) (mode : Mode)
  | char (c : U32)
  | reserve (n : U64) (mode : Mode)

/-- One element of a byte array. -/
inductive ByteSpelled : U32 → Token → Prop
  | char {tok : Token} {c : U32} (h : tok.kind = .tokChar) (hv : tok.getChar? = some c) : ByteSpelled c tok
  | int {tok : Token} {n : U64} (h : tok.kind = .tokInteger) (hv : tok.getInt? = some n) : ByteSpelled (n.setWidth 32) tok

/-- The elements of a byte array. -/
inductive BytesSpelled : List U32 → List Token → Prop
  | last {v : U32} {tok : Token} (h : ByteSpelled v tok) : BytesSpelled [v] [tok]
  | cons {v : U32} {vs : List U32} {tok comma : Token} {toks : List Token} (h : ByteSpelled v tok)
      (hc : comma.kind = .tokComma) (hs : BytesSpelled vs toks) : BytesSpelled (v :: vs) (tok :: comma :: toks)

/-- The width after a number, which may be left out. -/
inductive WidthSpelled (mode : Mode) : Mode → List Token → Prop
  | none : WidthSpelled mode mode []
  | some {quote tok : Token} {width : Mode} (hq : quote.kind = .tokBackquote) (h : tok.kind = .tokIdentifier)
      (hm : Mode.ofExt? tok.text = some width) : WidthSpelled mode width [quote, tok]

/-- The tokens of an initialiser. A sign before a character or a reservation says nothing. -/
inductive Initializer.Spelled : Initializer → List Token → Prop
  | bytes {lb rb : Token} {vs : List U32} {toks : List Token} (hl : lb.kind = .tokLBrace) (h : BytesSpelled vs toks)
      (hr : rb.kind = .tokRBrace) : Spelled (.bytes vs) (lb :: toks ++ [rb])
  | string {tok : Token} {s : List U8} (h : tok.kind = .tokString) (hv : tok.getString? = some s) : Spelled (.string s) [tok]
  | int {isNeg : Bool} {sign width : List Token} {tok : Token} {n : U64} {mode : Mode} (hs : Signed isNeg sign)
      (h : tok.kind = .tokInteger) (hv : tok.getInt? = some n) (hw : WidthSpelled .quad mode width) :
      Spelled (.int n isNeg mode) (sign ++ tok :: width)
  | char {isNeg : Bool} {sign : List Token} {tok : Token} {c : U32} (hs : Signed isNeg sign) (h : tok.kind = .tokChar)
      (hv : tok.getChar? = some c) : Spelled (.char c) (sign ++ [tok])
  | reserve {isNeg : Bool} {sign width : List Token} {lb tok rb : Token} {n : U64} {mode : Mode} (hs : Signed isNeg sign)
      (hl : lb.kind = .tokLBracket) (h : tok.kind = .tokInteger) (hv : tok.getInt? = some n)
      (hw : WidthSpelled .byte mode width) (hr : rb.kind = .tokRBracket) :
      Spelled (.reserve n mode) (sign ++ lb :: tok :: width ++ [rb])

/-- The bytes that an initialiser stands for. Those of a reservation may be any, in a number that fits in four bytes. -/
def Initializer.Encodes : Initializer → List U8 → Prop
  | .bytes vs, bs => bs = vs.map (·.setWidth 8)
  | .string s, bs => bs = s.takeWhile (· ≠ 0)
  | .int n isNeg mode, bs => bs = leBytes mode.size (if isNeg then -n else n)
  | .char c, bs => bs = [c.setWidth 8]
  | .reserve n mode, bs => bs.length = ((BitVec.ofNat 64 mode.size * n).setWidth 32).toNat

theorem ByteSpelled.kind {v : U32} {tok : Token} (h : ByteSpelled v tok) : tok.kind = .tokChar ∨ tok.kind = .tokInteger := by
  cases h with
  | char h => exact .inl h
  | int h => exact .inr h

/-! ### Adding constants -/

/-- Tokens are read, and constants added. -/
structure Adds (as as' : AssemblerCtx) (toks : List Token) (bs : List U8) : Prop where
  toks : as.itp.toks = toks ++ as'.itp.toks
  rest : as' = { as with itp := as'.itp, constants := as.constants ++ bs }

section
variable {as as' as'' : AssemblerCtx} {toks toks' : List Token} {bs bs' : List U8}

theorem Adds.trans (h : Adds as as' toks bs) (h' : Adds as' as'' toks' bs') : Adds as as'' (toks ++ toks') (bs ++ bs') where
  toks := by rw [h.toks, h'.toks, List.append_assoc]
  rest := by rw [h'.rest, h.rest, List.append_assoc]

/-- Tokens that add nothing. -/
theorem Reads.adds (h : Reads as as' toks []) : Adds as as' toks [] where
  toks := h.toks
  rest := by rw [List.append_nil]; exact h.rest_of_nil

theorem Adds.trans_reads (h : Adds as as' toks bs) (h' : Reads as' as'' toks' []) : Adds as as'' (toks ++ toks') bs := by
  have hall := h.trans h'.adds
  rwa [List.append_nil] at hall

theorem Reads.trans_adds (h : Reads as as' toks []) (h' : Adds as' as'' toks' bs) : Adds as as'' (toks ++ toks') bs :=
  h.adds.trans h'

end

namespace AsmM
open Prog

variable {as as' : AssemblerCtx} {u : Unit} {tok : Token} {mode mode' : Mode} {more : Bool} {size size' val : U32}

theorem errorIf_returns {c : Prop} [Decidable c] {range : Range} {fmt : String} {args : List DiagnosticArg}
    (h : (errorIf c range fmt args).Returns as u as') (herr : as'.errors ≤ as.errors) : as' = as := by
  unfold errorIf at h
  split at h
  · rw [error_returns.mp h] at herr
    simp only [AssemblerCtx.errors, List.length_append, List.length_singleton] at herr
    omega
  · exact (returns_pure.mp h).2

theorem pushConstants_returns {bs : List U8} (h : (pushConstants bs).Returns as u as') :
    as.constants.length + bs.length < 2 ^ 31 ∧ Adds as as' [] bs := by
  simp only [pushConstants, returns_bind, returns_get, returns_stopIf, returns_modify] at h
  obtain ⟨_, _, ⟨rfl, rfl⟩, _, _, ⟨hlen, rfl⟩, rfl⟩ := h
  exact ⟨not_le.mp hlen, rfl, rfl⟩

theorem expandConstants_returns {n : Nat} (h : (expandConstants n).Returns as u as') :
    as.constants.length + n < 2 ^ 31 ∧ ∃ bs, bs.length = n ∧ Adds as as' [] bs := by
  simp only [expandConstants, returns_bind, returns_get, returns_stopIf, returns_modify] at h
  obtain ⟨_, _, ⟨rfl, rfl⟩, _, _, ⟨hlen, rfl⟩, rfl⟩ := h
  exact ⟨not_le.mp hlen, _, by rw [List.length_map, List.length_range], rfl, rfl⟩

theorem parseModes_returns (h : (parseModes []).Returns as mode as') :
    ∃ tok, tok.kind = .tokIdentifier ∧ Mode.ofExt? tok.text = some mode ∧ Reads as as' [tok] [] := by
  obtain ⟨tok, mid, htok, hbody⟩ := returns_bind.mp h
  obtain ⟨hk, hr⟩ := consume_returns htok
  split at hbody
  · exact absurd hbody failAt_returns
  · rename_i mode' hm
    simp only [List.contains_nil, Bool.false_eq_true, if_false, returns_pure] at hbody
    obtain ⟨rfl, rfl⟩ := hbody
    exact ⟨tok, hk, hm, hr⟩

theorem parseWidth_returns (h : (parseWidth mode).Returns as mode' as') :
    ∃ toks, WidthSpelled mode mode' toks ∧ Reads as as' toks [] := by
  obtain ⟨quoted, mid, hquote, hbody⟩ := returns_bind.mp h
  obtain ⟨quotes, hopt, hr⟩ := accept_returns hquote
  cases hopt with
  | none =>
    obtain ⟨rfl, rfl⟩ := returns_pure.mp hbody
    exact ⟨[], .none, hr⟩
  | some hq =>
    obtain ⟨tok, hk, hm, hr'⟩ := parseModes_returns hbody
    exact ⟨_, .some hq hk hm, hr.trans hr'⟩

theorem byteArrayValue_returns (h : (byteArrayValue tok).Returns as val as') : ByteSpelled val tok ∧ as' = as := by
  unfold byteArrayValue at h
  split at h
  · rename_i hk
    obtain ⟨hv, rfl⟩ := tokenGet_returns.mp h
    exact ⟨.char hk hv, rfl⟩
  · rename_i hk
    simp only [returns_bind, tokenGet_returns, returns_pure] at h
    obtain ⟨n, _, ⟨hv, rfl⟩, rfl, rfl⟩ := h
    exact ⟨.int hk hv, rfl⟩
  · exact absurd h fail_returns

theorem parseByte_returns (h : parseByte.Returns as more as') (herr : as'.errors ≤ as.errors) :
    ∃ val tok commas, ByteSpelled val tok ∧ Optional .tokComma more commas ∧ Adds as as' (tok :: commas) [val.setWidth 8] := by
  simp only [parseByte, returns_bind, curr_returns] at h
  obtain ⟨_, _, ⟨rfl, rfl⟩, val, _, hval, _, mid, hcheck, _, mid', hadv, _, mid'', hpush, hcomma⟩ := h
  obtain ⟨hbyte, rfl⟩ := byteArrayValue_returns hval
  have hgrow := ((logs_bind logs_advance fun _ => logs_bind logs_pushConstants fun _ => logs_accept).of_returns
    (returns_bind.mpr ⟨_, _, hadv, returns_bind.mpr ⟨_, _, hpush, hcomma⟩⟩)).errors
  obtain rfl := errorIf_returns hcheck (hgrow.trans herr)
  obtain ⟨-, rfl⟩ := advance_returns.mp hadv
  have hread : Reads mid _ [mid.curr] [] := reads_curr (by rcases hbyte.kind with hk | hk <;> rw [hk] <;> decide)
    (by rcases hbyte.kind with hk | hk <;> rw [hk] <;> decide)
  obtain ⟨commas, hopt, hr⟩ := accept_returns hcomma
  exact ⟨val, _, commas, hbyte, hopt, (hread.trans_adds (pushConstants_returns hpush).2).trans_reads hr⟩

/-- Every element takes a token, so that the number of tokens is fuel enough. -/
theorem parseByteArray_returns {fuel : Nat} (h : (parseByteArray fuel size).Returns as size' as') (herr : as'.errors ≤ as.errors)
    (hfuel : as.itp.toks.length ≤ fuel) : ∃ vs toks, BytesSpelled vs toks ∧ Adds as as' toks (vs.map (·.setWidth 8)) ∧
      size' = size + BitVec.ofNat 32 vs.length := by
  induction fuel generalizing as size with
  | zero =>
    simp only [parseByteArray, returns_bind, returns_pure] at h
    obtain ⟨more, _, hbyte, -, rfl⟩ := h
    obtain ⟨_, _, _, -, -, hadds⟩ := parseByte_returns hbyte herr
    rw [hadds.toks] at hfuel
    exact absurd hfuel (by simp)
  | succ fuel ih =>
    rw [parseByteArray, returns_bind] at h
    obtain ⟨more, mid, hbyte, hrest⟩ := h
    have hgrow := ((relates_ite logs_parseByteArray logs_pure).of_returns hrest).errors
    have hfirst := (logs_parseByte.of_returns hbyte).errors
    obtain ⟨val, tok, commas, hv, hopt, hadds⟩ := parseByte_returns hbyte (hgrow.trans herr)
    cases hopt with
    | none =>
      obtain ⟨rfl, rfl⟩ := returns_pure.mp hrest
      exact ⟨[val], [tok], .last hv, hadds, rfl⟩
    | some hc =>
      have hlen := congrArg List.length hadds.toks
      rw [List.length_append, List.length_cons] at hlen
      obtain ⟨vs, toks, hs, hadds', rfl⟩ := ih hrest (herr.trans hfirst) (by omega)
      refine ⟨val :: vs, _, .cons hv hc hs, hadds.trans hadds', ?_⟩
      rw [List.length_cons, Nat.add_comm vs.length, BitVec.ofNat_add, ← add_assoc]
      rfl

/-! ### Initialisers -/

theorem appendIntegralData_returns {value : U64} (h : (appendIntegralData value mode).Returns as size as') :
    size = BitVec.ofNat 32 mode.size ∧ as.constants.length + mode.size < 2 ^ 31 ∧ Adds as as' [] (leBytes mode.size value) := by
  simp only [appendIntegralData, returns_bind, returns_pure] at h
  obtain ⟨_, _, hpush, rfl, rfl⟩ := h
  have hpushed := pushConstants_returns hpush
  rw [length_leBytes] at hpushed
  exact ⟨rfl, hpushed⟩

theorem leBytes_char (c : U32) : leBytes Mode.byte.size (c.setWidth 64) = [c.setWidth 8] := rfl

/-- What an initialiser adds, and the size of the variable. -/
def Initialized (as as' : AssemblerCtx) (size : U32) : Prop :=
  ∃ (init : Initializer) (toks : List Token) (bs : List U8), init.Spelled toks ∧ init.Encodes bs ∧ Adds as as' toks bs ∧
    size = BitVec.ofNat 32 bs.length

theorem parseScalar_returns (h : parseScalar.Returns as size as') : Initialized as as' size := by
  simp only [parseScalar, returns_bind, curr_returns] at h
  obtain ⟨⟨sign, isNeg⟩, _, hsign, _, mid, ⟨rfl, rfl⟩, hbody⟩ := h
  obtain ⟨-, signs, hs, hr⟩ := parseSign_returns hsign
  split at hbody
  · rename_i hk
    simp only [returns_bind, advance_returns, tokenGet_returns] at hbody
    obtain ⟨_, _, ⟨-, rfl⟩, n, _, ⟨hv, rfl⟩, mode, mid', hwidth, happend⟩ := hbody
    have hread : Reads mid _ [mid.curr] [] := reads_curr (by rw [hk]; decide) (by rw [hk]; decide)
    obtain ⟨width, hw, hr'⟩ := parseWidth_returns hwidth
    obtain ⟨rfl, -, hadds⟩ := appendIntegralData_returns happend
    refine ⟨.int n isNeg mode, _, _, .int hs hk hv hw, rfl, ?_, by rw [length_leBytes]⟩
    have hall := ((hr.trans hread).trans hr').trans_adds hadds
    simpa [addSigned] using hall
  · rename_i hk
    simp only [returns_bind, advance_returns, tokenGet_returns] at hbody
    obtain ⟨_, _, ⟨-, rfl⟩, c, _, ⟨hv, rfl⟩, happend⟩ := hbody
    have hread : Reads mid _ [mid.curr] [] := reads_curr (by rw [hk]; decide) (by rw [hk]; decide)
    obtain ⟨rfl, -, hadds⟩ := appendIntegralData_returns happend
    rw [leBytes_char] at hadds
    refine ⟨.char c, _, _, .char hs hk hv, rfl, ?_, rfl⟩
    have hall := (hr.trans hread).trans_adds hadds
    rwa [List.append_nil] at hall
  · exact absurd hbody returns_stop
  · rename_i hk
    simp only [returns_bind, advance_returns, tokenGet_returns, returns_pure] at hbody
    obtain ⟨_, _, ⟨-, rfl⟩, tok, mid1, htok, mode, mid2, hwidth, rb, mid3, hclose, n, _, ⟨hv, rfl⟩, _, mid4, hexpand, rfl, rfl⟩ := hbody
    have hread : Reads mid _ [mid.curr] [] := reads_curr (by rw [hk]; decide) (by rw [hk]; decide)
    obtain ⟨hint, hr1⟩ := consume_returns htok
    obtain ⟨width, hw, hr2⟩ := parseWidth_returns hwidth
    obtain ⟨hrb, hr3⟩ := consume_returns hclose
    obtain ⟨-, bs, hlen, hadds⟩ := expandConstants_returns hexpand
    refine ⟨.reserve n mode, _, bs, .reserve hs hk hint hv hw hrb, hlen, ?_, by rw [hlen, BitVec.ofNat_toNat, BitVec.setWidth_eq]⟩
    have hall := ((((hr.trans hread).trans hr1).trans hr2).trans hr3).trans_adds hadds
    simpa using hall
  · exact absurd hbody fail_returns

theorem parseString_returns (h : parseString.Returns as size as') (hc : as.itp.check [.tokString] = true) :
    Initialized as as' size := by
  simp only [parseString, returns_bind, advance_returns, tokenGet_returns, returns_pure] at h
  obtain ⟨_, _, ⟨rfl, rfl⟩, s, _, ⟨hv, rfl⟩, _, _, hpush, rfl, rfl⟩ := h
  obtain ⟨hk, hread⟩ := advance_of_check (by decide) (by decide) hc
  refine ⟨.string s, _, _, .string (List.mem_singleton.mp hk) hv, rfl, ?_, rfl⟩
  have hall := hread.trans_adds (pushConstants_returns hpush).2
  rwa [List.append_nil] at hall

theorem parseInitializer_returns (h : parseInitializer.Returns as size as') (herr : as'.errors ≤ as.errors) :
    Initialized as as' size := by
  simp only [parseInitializer, check, returns_bind, returns_get, returns_pure] at h
  obtain ⟨brace, _, hbrace, _, mid, ⟨_, _, ⟨rfl, rfl⟩, rfl, rfl⟩, hbody⟩ := h
  obtain ⟨braces, hopt, hr⟩ := accept_returns hbrace
  cases hopt with
  | some hl =>
    simp only [if_true, parseBraces, returns_bind, returns_get, returns_pure] at hbody
    obtain ⟨_, _, ⟨rfl, rfl⟩, size', mid', harray, rb, mid'', hclose, rfl, rfl⟩ := hbody
    have hgrow := (logs_consume.of_returns hclose).errors
    obtain ⟨hrb, hr'⟩ := consume_returns hclose
    obtain ⟨vs, toks, hs, hadds, rfl⟩ := parseByteArray_returns harray (hgrow.trans (herr.trans (Nat.le_of_eq hr.errors.symm))) (le_refl _)
    refine ⟨.bytes vs, _, _, .bytes hl hs hrb, rfl, ?_, by rw [List.length_map, zero_add]⟩
    exact (hr.trans_adds hadds).trans_reads hr'
  | none =>
    obtain ⟨-, hmid⟩ := accept_iff.mp hbrace
    obtain rfl : mid = as := hmid
    change (if mid.itp.check [.tokString] then parseString else parseScalar).Returns mid size as' at hbody
    split at hbody
    · rename_i hstr
      exact parseString_returns hbody hstr
    · exact parseScalar_returns hbody

end AsmM

end Cyntatic
