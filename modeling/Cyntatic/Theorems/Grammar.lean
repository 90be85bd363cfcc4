import Cyntatic.Theorems.Labels
import Cyntatic.Theorems.Acceptance

/-! # Programs that are written by the rules

What a statement adds to a program, and that a program of such statements is read and put together as it is written. -/

namespace Cyntatic
open Library

/-! ### What a statement says -/

/-- The bytes that an initialiser adds. -/
def Initializer.data (as : AssemblerCtx) : Initializer → List U8
  | .bytes vs => vs.map (·.setWidth 8)
  | .string s => s.takeWhile (· ≠ 0)
  | .int n isNeg mode => leBytes mode.size (AsmM.addSigned 0 n isNeg)
  | .char c => leBytes Mode.byte.size (c.setWidth 64)
  | .reserve n mode => (List.range ((BitVec.ofNat 64 mode.size * n).setWidth 32 : U32).toNat).map fun i =>
    as.uninit (as.constants.length + i)

/-- The elements of a byte array fit in a byte. -/
def Initializer.InRange : Initializer → Prop
  | .bytes vs => ∀ v ∈ vs, v ≤ 0xFF
  | _ => True

/-- The program with a statement at its end. -/
def Stmt.run (as : AssemblerCtx) : Stmt → AssemblerCtx
  | .skip => as
  | .label range => { as with symbols := as.symbols ++ [as.labelSymbol range], main := as.labelMain range }
  | .var range init => { as with
    constants := as.constants ++ init.data as
    symbols := as.symbols ++ [{ as.varSymbol range with size := BitVec.ofNat 32 (init.data as).length }] }
  | .instr src => { as with
    instructions := as.instructions ++ [src.record as]
    patchWork := (src.pending as).foldl (fun l p => l.orderedInsert (·.pos < ·.pos) p) as.patchWork }

/-- How a statement is written where some symbols are known. -/
inductive Stmt.Written (as : AssemblerCtx) : Stmt → List Token → Prop
  | skip {tok : Token} (hk : tok.kind = .tokNl ∨ tok.kind = .tokComment) : Written as .skip [tok]
  | label {tok colon : Token} (hk : tok.kind = .tokIdentifier) (hc : colon.kind = .tokColon)
      (hnew : as.findSymbol tok.text = none) : Written as (.label tok.range) [tok, colon]
  | var {dollar tok assign : Token} {toks : List Token} {init : Initializer} (hd : dollar.kind = .tokDollar)
      (hk : tok.kind = .tokIdentifier) (ha : assign.kind = .tokAssign) (hnew : as.findSymbol tok.text = none)
      (hinit : init.Spelled toks) (hrange : init.InRange) (hlen : as.constants.length + (init.data as).length < 2 ^ 31) :
      Written as (.var tok.range init) ([dollar, tok, assign] ++ toks)
  | instr {src : SourceInstr} {tok : Token} {ms toks : List Token} (hk : tok.kind = .tokIdentifier)
      (hopc : OpCode.lookup? tok.text = some (src.opc, src.args.length)) (hm : ModeSpelled src.mode ms)
      (ha : ArgsWritten as false src.args toks) (hlen : as.instructions.length + 1 < 2 ^ 31) :
      Written as (.instr src) (tok :: ms ++ toks)

/-- A program that is written by the rules: every statement where those before it have been read. -/
inductive Written : AssemblerCtx → List Stmt → List Token → Prop
  | nil {as : AssemblerCtx} : Written as [] []
  | cons {as : AssemblerCtx} {stmt : Stmt} {prog : List Stmt} {toks toks' : List Token} (h : stmt.Written as toks)
      (hs : Written (stmt.run as) prog toks') : Written as (stmt :: prog) (toks ++ toks')

/-- What a statement leaves: the program with it, and the tokens after it. -/
structure ReadsTo (as : AssemblerCtx) (stmt : Stmt) (rest : List Token) (as' : AssemblerCtx) : Prop where
  toks : as'.itp.toks = rest
  log : as'.itp.log = as.itp.log
  run : as' = { stmt.run as with itp := as'.itp }

/-- The kinds of tokens that a statement begins with. -/
def stmtKinds : List TokenKind := [.tokIdentifier, .tokDollar, .tokNl, .tokComment]

/-- The kinds of tokens after a statement, of which one is that of the end of the source. -/
def followKinds : List TokenKind := .tokCOUNT :: stmtKinds

variable {as as' : AssemblerCtx} {toks rest : List Token} {stmt : Stmt} {prog : List Stmt} {patches : List Patch}

theorem Stmt.Written.firstKind (h : stmt.Written as toks) : Cyntatic.firstKind (toks ++ rest) ∈ stmtKinds := by
  cases h with
  | skip hk =>
    change (_ : Token).kind ∈ stmtKinds
    rcases hk with hk | hk
    · rw [hk]
      decide
    · rw [hk]
      decide
  | label hk => exact List.mem_cons.mpr (.inl hk)
  | var hd => exact List.mem_cons_of_mem _ (List.mem_cons.mpr (.inl hd))
  | instr hk => exact List.mem_cons.mpr (.inl hk)

theorem Written.firstKind (h : Written as prog toks) : Cyntatic.firstKind toks ∈ followKinds := by
  cases h with
  | nil => decide
  | cons h => exact List.mem_cons_of_mem _ h.firstKind

theorem BytesSpelled.length_le {vs : List U32} (h : BytesSpelled vs toks) : vs.length ≤ toks.length := by
  induction h with
  | last => exact le_refl _
  | cons _ _ _ ih => exact Nat.succ_le_succ (ih.trans (Nat.le_succ _))

theorem Reads.argsWritten (h : Reads as as' toks patches) {isRb : Bool} {args : List Arg} {toks' : List Token}
    (ha : ArgsWritten as isRb args toks') : ArgsWritten as' isRb args toks' := by
  induction ha with
  | nil => exact .nil
  | cons hs hr _ ih => exact .cons hs (h.readable hr) ih

theorem Reads.record (h : Reads as as' toks patches) (src : SourceInstr) : src.record as' = src.record as := by
  rw [SourceInstr.record, SourceInstr.record]
  split
  · rfl
  · exact h.first _ _
  · rw [h.second, h.first]

theorem Reads.pendings (h : Reads as as' toks patches) (src : SourceInstr) : src.pending as' = src.pending as := by
  rw [SourceInstr.pending, SourceInstr.pending, funext fun arg : Arg => h.headPending arg.head]

theorem Initializer.encodes_data (init : Initializer) : init.Encodes (init.data as) := by
  cases init with
  | bytes => rfl
  | string => rfl
  | int n isNeg mode => exact congrArg (leBytes mode.size) (BitVec.zero_add _)
  | char => rfl
  | reserve => exact (List.length_map _).trans List.length_range

/-! ### Initialisers -/

/-- The program with bytes at the end of its constants. -/
def AssemblerCtx.addConstants (as : AssemblerCtx) (bs : List U8) : AssemblerCtx := { as with constants := as.constants ++ bs }

theorem Reads.addConstants (h : Reads as as' toks patches) (bs : List U8) :
    Reads (as.addConstants bs) (as'.addConstants bs) toks patches where
  toks := h.toks
  log := h.log
  patchWork := h.patchWork
  rest := by
    have hconst : as'.constants = as.constants := by rw [h.rest]
    rw [AssemblerCtx.addConstants, hconst, h.rest]
    rfl

theorem Reads.constants (h : Reads as as' toks patches) : as'.constants = as.constants := by rw [h.rest]

namespace AsmM
open Prog

variable {tok : Token} {mode mode' : Mode}

theorem parseModes_reads (htoks : as.itp.toks = tok :: rest) (hk : tok.kind = .tokIdentifier) (hm : Mode.ofExt? tok.text = some mode) :
    ∃ as', (parseModes []).Returns as mode as' ∧ Reads as as' [tok] [] := by
  obtain ⟨as', htok, hr⟩ := consume_reads htoks hk
  refine ⟨as', returns_bind.mpr ⟨_, _, htok _, ?_⟩, hr⟩
  rw [hm]
  exact returns_pure.mpr ⟨rfl, rfl⟩

theorem parseWidth_reads (hw : WidthSpelled mode mode' toks) (htoks : as.itp.toks = toks ++ rest)
    (hrest : firstKind rest ≠ .tokBackquote) : ∃ as', (parseWidth mode).Returns as mode' as' ∧ Reads as as' toks [] := by
  cases hw with
  | none =>
    obtain ⟨mid, hquote, hr⟩ := accept_reads (.none : Optional .tokBackquote _ _) htoks fun _ => hrest
    exact ⟨mid, returns_bind.mpr ⟨_, _, hquote, returns_pure.mpr ⟨rfl, rfl⟩⟩, hr⟩
  | some hq hk hm =>
    obtain ⟨mid, hquote, hr⟩ := accept_reads (.some hq) htoks nofun
    obtain ⟨as', hmode, hr'⟩ := parseModes_reads (hr.left htoks) hk hm
    exact ⟨as', returns_bind.mpr ⟨_, _, hquote, hmode⟩, hr.trans hr'⟩

theorem pushConstants_reads {bs : List U8} (hlen : as.constants.length + bs.length < 2 ^ 31) :
    (pushConstants bs).Returns as () (as.addConstants bs) := by
  refine returns_bind.mpr ⟨as, as, returns_get.mpr ⟨rfl, rfl⟩, returns_bind.mpr ⟨(), as, ?_, returns_modify.mpr rfl⟩⟩
  exact returns_stopIf.mpr ⟨not_le.mpr hlen, rfl⟩

theorem byteArrayValue_reads {v : U32} (h : ByteSpelled v tok) : (byteArrayValue tok).Returns as v as := by
  cases h with
  | char hk hv =>
    rw [byteArrayValue, hk]
    exact tokenGet_returns.mpr ⟨hv, rfl⟩
  | int hk hv =>
    rw [byteArrayValue, hk]
    exact returns_bind.mpr ⟨_, as, tokenGet_returns.mpr ⟨hv, rfl⟩, returns_pure.mpr ⟨rfl, rfl⟩⟩

theorem parseByte_reads {v : U32} {more : Bool} {commas : List Token} (hv : ByteSpelled v tok) (hle : v ≤ 0xFF)
    (hcomma : Optional .tokComma more commas) (htoks : as.itp.toks = tok :: (commas ++ rest))
    (hrest : more = false → firstKind rest ≠ .tokComma) (hlen : as.constants.length + 1 < 2 ^ 31) :
    ∃ as', parseByte.Returns as more as' ∧ Reads (as.addConstants [v.setWidth 8]) as' (tok :: commas) [] := by
  have hcurr : as.curr = tok := by rw [AssemblerCtx.curr, ITokenParser.curr, htoks, List.headD_cons]
  obtain ⟨as1, hadv, hr1⟩ := advance_reads htoks (by rcases hv.kind with hk | hk <;> rw [hk] <;> decide)
    (by rcases hv.kind with hk | hk <;> rw [hk] <;> decide)
  have hr1' := hr1.addConstants [v.setWidth 8]
  obtain ⟨as', haccept, hr2⟩ := accept_reads hcomma (hr1'.left htoks) hrest
  refine ⟨as', returns_bind.mpr ⟨_, _, curr_returns.mpr ⟨rfl, rfl⟩, ?_⟩, hr1'.trans hr2⟩
  rw [hcurr]
  refine returns_bind.mpr ⟨_, _, byteArrayValue_reads hv, returns_bind.mpr ⟨(), as, ?_, ?_⟩⟩
  · rw [errorIf, if_neg (BitVec.not_lt.mpr hle)]
    exact returns_pure.mpr ⟨rfl, rfl⟩
  · refine returns_bind.mpr ⟨_, _, hadv, returns_bind.mpr ⟨_, _, pushConstants_reads ?_, haccept⟩⟩
    rw [hr1.constants]
    exact hlen

theorem parseByteArray_reads {vs : List U32} {fuel : Nat} {size : U32} (hs : BytesSpelled vs toks) (hle : ∀ v ∈ vs, v ≤ 0xFF)
    (htoks : as.itp.toks = toks ++ rest) (hrest : firstKind rest ≠ .tokComma) (hlen : as.constants.length + vs.length < 2 ^ 31)
    (hfuel : vs.length ≤ fuel + 1) :
    ∃ as', (parseByteArray fuel size).Returns as (size + BitVec.ofNat 32 vs.length) as' ∧
      Reads (as.addConstants (vs.map (·.setWidth 8))) as' toks [] := by
  induction hs generalizing as fuel size with
  | last hv =>
    obtain ⟨as', hbyte, hr⟩ := parseByte_reads hv (hle _ (List.mem_singleton.mpr rfl)) .none htoks (fun _ => hrest) hlen
    refine ⟨as', ?_, hr⟩
    cases fuel with
    | zero => exact returns_bind.mpr ⟨_, _, hbyte, returns_pure.mpr ⟨rfl, rfl⟩⟩
    | succ fuel => exact returns_bind.mpr ⟨_, _, hbyte, returns_pure.mpr ⟨rfl, rfl⟩⟩
  | @cons v vs tok comma toks hv hc hs ih =>
    rw [List.length_cons] at hlen hfuel
    have hpos : 0 < vs.length := by cases hs <;> exact Nat.succ_pos _
    obtain ⟨fuel, rfl⟩ : ∃ k, fuel = k + 1 := ⟨fuel - 1, by omega⟩
    obtain ⟨as1, hbyte, hr⟩ := @parseByte_reads as (toks ++ rest) tok v true [comma] hv (hle v (List.mem_cons_self ..)) (.some hc) htoks nofun
      (by omega)
    have hconst : as1.constants.length = as.constants.length + 1 := by
      rw [hr.constants, AssemblerCtx.addConstants, List.length_append, List.length_singleton]
    obtain ⟨as', hloop, hr'⟩ := @ih as1 fuel (size + 1) (fun w hw => hle w (List.mem_cons_of_mem _ hw)) (hr.left htoks) (by omega) (by omega)
    refine ⟨as', returns_bind.mpr ⟨_, _, hbyte, ?_⟩, ?_⟩
    · have hsize : size + BitVec.ofNat 32 (v :: vs).length = size + 1 + BitVec.ofNat 32 vs.length := by
        rw [List.length_cons, Nat.add_comm, BitVec.ofNat_add, ← BitVec.add_assoc]
        rfl
      rw [hsize]
      exact hloop
    · have hall := (hr.addConstants (vs.map (·.setWidth 8))).trans hr'
      rw [AssemblerCtx.addConstants, AssemblerCtx.addConstants, List.append_assoc] at hall
      exact hall

theorem appendIntegralData_reads {value : U64} (hlen : as.constants.length + mode.size < 2 ^ 31) :
    (appendIntegralData value mode).Returns as (BitVec.ofNat 32 mode.size) (as.addConstants (leBytes mode.size value)) :=
  returns_bind.mpr ⟨_, _, pushConstants_reads (by rwa [length_leBytes]), returns_pure.mpr ⟨rfl, rfl⟩⟩

theorem expandConstants_reads {n : Nat} (hlen : as.constants.length + n < 2 ^ 31) :
    (expandConstants n).Returns as () (as.addConstants ((List.range n).map fun i => as.uninit (as.constants.length + i))) := by
  refine returns_bind.mpr ⟨as, as, returns_get.mpr ⟨rfl, rfl⟩, returns_bind.mpr ⟨(), as, ?_, returns_modify.mpr rfl⟩⟩
  exact returns_stopIf.mpr ⟨not_le.mpr hlen, rfl⟩

theorem Signed.first {isNeg : Bool} {signs : List Token} (hs : Signed isNeg signs) (htoks : as.itp.toks = signs ++ tok :: rest)
    (hk : tok.kind ∉ [.tokPlus, .tokMinus]) : ∃ as', parseSign.Returns as (as.curr, isNeg) as' ∧ Reads as as' signs [] ∧
      as'.itp.toks = tok :: rest ∧ as'.curr = tok := by
  obtain ⟨as', hsign, hr, -⟩ := parseSign_reads hs htoks fun _ => hk
  have htoks' := hr.left htoks
  exact ⟨as', hsign, hr, htoks', by rw [AssemblerCtx.curr, ITokenParser.curr, htoks', List.headD_cons]⟩

/-- A number, a character or a reservation is read by its kind. -/
theorem parseScalar_reads {init : Initializer} (hinit : init.Spelled toks) (hbytes : ∀ vs, init ≠ .bytes vs)
    (hstring : ∀ s, init ≠ .string s) (htoks : as.itp.toks = toks ++ rest) (hrest : firstKind rest ≠ .tokBackquote)
    (hlen : as.constants.length + (init.data as).length < 2 ^ 31) :
    ∃ as', parseScalar.Returns as (BitVec.ofNat 32 (init.data as).length) as' ∧
      Reads (as.addConstants (init.data as)) as' toks [] := by
  cases hinit with
  | bytes => exact absurd rfl (hbytes _)
  | string => exact absurd rfl (hstring _)
  | @int isNeg sign width tok n mode hs hk hv hw =>
    rw [List.append_assoc, List.cons_append] at htoks
    obtain ⟨as1, hsign, hr1, htoks1, hcurr⟩ := Signed.first hs htoks (by rw [hk]; decide)
    obtain ⟨as2, hadv, hr2⟩ := advance_reads htoks1 (by rw [hk]; decide) (by rw [hk]; decide)
    obtain ⟨as3, hwidth, hr3⟩ := parseWidth_reads hw (hr2.left htoks1) hrest
    have hall := (hr1.trans hr2).trans hr3
    rw [Initializer.data, length_leBytes] at hlen ⊢
    have hdata := hall.addConstants (leBytes mode.size (addSigned 0 n isNeg))
    rw [List.append_assoc] at hdata
    refine ⟨_, returns_bind.mpr ⟨_, _, hsign, returns_bind.mpr ⟨_, _, curr_returns.mpr ⟨rfl, rfl⟩, ?_⟩⟩, hdata⟩
    rw [hcurr, hk]
    refine returns_bind.mpr ⟨_, _, hadv, returns_bind.mpr ⟨n, _, tokenGet_returns.mpr ⟨hv, rfl⟩, ?_⟩⟩
    refine returns_bind.mpr ⟨_, _, hwidth, appendIntegralData_reads ?_⟩
    rwa [hall.constants]
  | @char isNeg sign tok c hs hk hv =>
    rw [List.append_assoc, List.singleton_append] at htoks
    obtain ⟨as1, hsign, hr1, htoks1, hcurr⟩ := Signed.first hs htoks (by rw [hk]; decide)
    obtain ⟨as2, hadv, hr2⟩ := advance_reads htoks1 (by rw [hk]; decide) (by rw [hk]; decide)
    have hall := hr1.trans hr2
    rw [Initializer.data, length_leBytes] at hlen ⊢
    refine ⟨_, returns_bind.mpr ⟨_, _, hsign, returns_bind.mpr ⟨_, _, curr_returns.mpr ⟨rfl, rfl⟩, ?_⟩⟩, hall.addConstants _⟩
    rw [hcurr, hk]
    refine returns_bind.mpr ⟨_, _, hadv, returns_bind.mpr ⟨c, _, tokenGet_returns.mpr ⟨hv, rfl⟩, appendIntegralData_reads ?_⟩⟩
    rwa [hall.constants]
  | @reserve isNeg sign width lb tok rb n mode hs hl hk hv hw hr =>
    simp only [List.append_assoc, List.cons_append, List.nil_append] at htoks
    obtain ⟨as1, hsign, hr1, htoks1, hcurr⟩ := Signed.first hs htoks (by rw [hl]; decide)
    obtain ⟨as2, hadv, hr2⟩ := advance_reads htoks1 (by rw [hl]; decide) (by rw [hl]; decide)
    obtain ⟨as3, hnum, hr3⟩ := consume_reads (hr2.left htoks1) hk
    obtain ⟨as4, hwidth, hr4⟩ := parseWidth_reads hw (hr3.left (hr2.left htoks1)) (by rw [show firstKind (rb :: rest) = _ from hr]; decide)
    obtain ⟨as5, hclose, hr5⟩ := consume_reads (hr4.left (hr3.left (hr2.left htoks1))) hr
    have hall := (((hr1.trans hr2).trans hr3).trans hr4).trans hr5
    rw [Initializer.data, List.length_map, List.length_range] at hlen ⊢
    have huninit : as5.uninit = as.uninit := by rw [hall.rest]
    have hdata := hall.addConstants ((List.range ((BitVec.ofNat 64 mode.size * n).setWidth 32 : U32).toNat).map fun i =>
      as.uninit (as.constants.length + i))
    have hexpand := @expandConstants_reads as5 _ (hall.constants.symm ▸ hlen)
    rw [hall.constants, huninit] at hexpand
    simp only [List.append_assoc, List.cons_append, List.nil_append] at hdata ⊢
    refine ⟨_, returns_bind.mpr ⟨_, _, hsign, returns_bind.mpr ⟨_, _, curr_returns.mpr ⟨rfl, rfl⟩, ?_⟩⟩, hdata⟩
    rw [hcurr, hl]
    refine returns_bind.mpr ⟨_, _, hadv, returns_bind.mpr ⟨_, _, hnum _, returns_bind.mpr ⟨_, _, hwidth, ?_⟩⟩⟩
    refine returns_bind.mpr ⟨_, _, hclose _, returns_bind.mpr ⟨n, _, tokenGet_returns.mpr ⟨hv, rfl⟩, ?_⟩⟩
    refine returns_bind.mpr ⟨(), _, hexpand, returns_pure.mpr ⟨?_, rfl⟩⟩
    rw [BitVec.ofNat_toNat, BitVec.setWidth_eq]

theorem parseString_reads {s : List U8} (htoks : as.itp.toks = tok :: rest) (hk : tok.kind = .tokString) (hv : tok.getString? = some s)
    (hlen : as.constants.length + (s.takeWhile (· ≠ 0)).length < 2 ^ 31) :
    ∃ as', parseString.Returns as (BitVec.ofNat 32 (s.takeWhile (· ≠ 0)).length) as' ∧
      Reads (as.addConstants (s.takeWhile (· ≠ 0))) as' [tok] [] := by
  obtain ⟨as1, hadv, hr⟩ := advance_reads htoks (by rw [hk]; decide) (by rw [hk]; decide)
  refine ⟨_, returns_bind.mpr ⟨_, _, hadv, returns_bind.mpr ⟨s, _, tokenGet_returns.mpr ⟨hv, rfl⟩, ?_⟩⟩, hr.addConstants _⟩
  exact returns_bind.mpr ⟨(), _, pushConstants_reads (by rwa [hr.constants]), returns_pure.mpr ⟨rfl, rfl⟩⟩

/-- The kinds of tokens that a scalar begins with. -/
theorem firstKind_scalar {init : Initializer} (hinit : init.Spelled toks) (hbytes : ∀ vs, init ≠ .bytes vs)
    (hstring : ∀ s, init ≠ .string s) : firstKind (toks ++ rest) ∈ [.tokPlus, .tokMinus, .tokInteger, .tokChar, .tokLBracket] := by
  have hsigned {isNeg : Bool} {signs rest : List Token} (hs : Signed isNeg signs)
      (hk : firstKind rest ∈ [.tokInteger, .tokChar, .tokLBracket]) :
      firstKind (signs ++ rest) ∈ [.tokPlus, .tokMinus, .tokInteger, .tokChar, .tokLBracket] := by
    cases hs with
    | none => exact List.mem_cons_of_mem _ (List.mem_cons_of_mem _ hk)
    | plus h => exact List.mem_cons.mpr (.inl h)
    | minus h => exact List.mem_cons_of_mem _ (List.mem_cons.mpr (.inl h))
  cases hinit with
  | bytes => exact absurd rfl (hbytes _)
  | string => exact absurd rfl (hstring _)
  | int hs hk =>
    rw [List.append_assoc]
    exact hsigned hs (by simp [firstKind, hk])
  | char hs hk =>
    rw [List.append_assoc]
    exact hsigned hs (by simp [firstKind, hk])
  | reserve hs hl =>
    rw [List.append_assoc, List.append_assoc]
    exact hsigned hs (by simp [firstKind, hl])

/-- An initialiser is read as it is written. -/
theorem parseInitializer_reads {init : Initializer} (hinit : init.Spelled toks) (hrange : init.InRange)
    (htoks : as.itp.toks = toks ++ rest) (hrest : firstKind rest ≠ .tokBackquote)
    (hlen : as.constants.length + (init.data as).length < 2 ^ 31) :
    ∃ as', parseInitializer.Returns as (BitVec.ofNat 32 (init.data as).length) as' ∧
      Reads (as.addConstants (init.data as)) as' toks [] := by
  have hscalar (hbytes : ∀ vs, init ≠ .bytes vs) (hstring : ∀ s, init ≠ .string s) :
      ∃ as', parseInitializer.Returns as (BitVec.ofNat 32 (init.data as).length) as' ∧
        Reads (as.addConstants (init.data as)) as' toks [] := by
    obtain ⟨as', hparse, hr⟩ := parseScalar_reads hinit hbytes hstring htoks hrest hlen
    have hfirst := @firstKind_scalar toks rest init hinit hbytes hstring
    rw [← htoks] at hfirst
    have hbrace : as.itp.check [.tokLBrace] = false := check_of_not_mem (not_mem_of_disjoint hfirst (by decide))
    have hstr : as.itp.check [.tokString] = false := check_of_not_mem (not_mem_of_disjoint hfirst (by decide))
    refine ⟨as', returns_bind.mpr ⟨false, as, accept_iff.mpr ⟨hbrace.symm, rfl⟩, ?_⟩, hr⟩
    exact returns_bind.mpr ⟨false, as, returns_bind.mpr ⟨as, as, returns_get.mpr ⟨rfl, rfl⟩, returns_pure.mpr ⟨hstr.symm, rfl⟩⟩, hparse⟩
  cases hinit with
  | @bytes lb rb vs toks hl h hr =>
    rw [List.cons_append, List.cons_append, List.append_assoc] at htoks
    rw [Initializer.data, List.length_map] at hlen ⊢
    obtain ⟨as1, hbrace, hr1⟩ := accept_reads (.some hl) htoks (by simp)
    have htoks1 : as1.itp.toks = toks ++ ([rb] ++ rest) := hr1.left htoks
    have hlen1 : as1.constants.length + vs.length < 2 ^ 31 := by rwa [hr1.constants]
    have hfuel : vs.length ≤ as1.itp.toks.length + 1 := by
      rw [htoks1, List.length_append]
      have := h.length_le
      omega
    obtain ⟨as2, harray, hr2⟩ := @parseByteArray_reads as1 _ ([rb] ++ rest) vs as1.itp.toks.length 0 h hrange htoks1
      (by rw [show firstKind ([rb] ++ rest) = _ from hr]; decide) hlen1 hfuel
    obtain ⟨as3, hclose, hr3⟩ := consume_reads (hr2.left htoks1) hr
    refine ⟨as3, returns_bind.mpr ⟨_, _, hbrace, returns_bind.mpr ⟨as1.itp.check [.tokString], as1, ?_, ?_⟩⟩, ?_⟩
    · exact returns_bind.mpr ⟨as1, as1, returns_get.mpr ⟨rfl, rfl⟩, returns_pure.mpr ⟨rfl, rfl⟩⟩
    · refine returns_bind.mpr ⟨as1, as1, returns_get.mpr ⟨rfl, rfl⟩, returns_bind.mpr ⟨_, _, harray, ?_⟩⟩
      exact returns_bind.mpr ⟨_, _, hclose _, returns_pure.mpr ⟨(BitVec.zero_add _).symm, rfl⟩⟩
    · exact ((hr1.addConstants _).trans hr2).trans hr3
  | string h hv =>
    rw [Initializer.data] at hlen ⊢
    obtain ⟨as', hparse, hr⟩ := parseString_reads htoks h hv hlen
    have hbrace : as.itp.check [.tokLBrace] = false := check_of_not_mem (by rw [htoks]; simp [firstKind, h])
    have hstr : as.itp.check [.tokString] = true := check_of_first (by rw [htoks]; simp [firstKind, h]) (by decide) (by decide)
    refine ⟨as', returns_bind.mpr ⟨false, as, accept_iff.mpr ⟨hbrace.symm, rfl⟩, ?_⟩, hr⟩
    refine returns_bind.mpr ⟨true, as, returns_bind.mpr ⟨as, as, returns_get.mpr ⟨rfl, rfl⟩, returns_pure.mpr ⟨hstr.symm, rfl⟩⟩, ?_⟩
    exact hparse
  | int => exact hscalar (by simp) (by simp)
  | char => exact hscalar (by simp) (by simp)
  | reserve => exact hscalar (by simp) (by simp)

/-! ### Statements -/

theorem addSymbol_reads {pos : Nat} {tag : SymbolTag} {range : Range} (hnew : as.findSymbol range.view = none) :
    (addSymbol pos tag range).Returns as () { as with
      symbols := as.symbols ++ [{ id := BitVec.ofNat 64 pos, tag := tag, name := range.view, range := range }] } := by
  refine returns_bind.mpr ⟨as, as, returns_get.mpr ⟨rfl, rfl⟩, returns_bind.mpr ⟨(), as, ?_, returns_modify.mpr rfl⟩⟩
  exact failIf_returns.mpr ⟨by simp [hnew], rfl⟩

theorem parseLabel_reads {colon : Token} (hk : tok.kind = .tokIdentifier) (hc : colon.kind = .tokColon)
    (hnew : as.findSymbol tok.text = none) (htoks : as.itp.toks = [tok, colon] ++ rest) :
    ∃ as', parseLabel.Returns as () as' ∧ ReadsTo as (.label tok.range) rest as' := by
  have htoks0 : as.itp.toks = tok :: colon :: rest := htoks
  obtain ⟨as1, htok, hr1⟩ := consume_reads htoks0 hk
  have htoks1 : as1.itp.toks = colon :: rest := hr1.left htoks0
  obtain ⟨as2, hcolon, hr2⟩ := consume_reads htoks1 hc
  have hall := hr1.trans hr2
  have htoks2 : as2.itp.toks = rest := hr2.left htoks1
  obtain ⟨itp, rfl⟩ : ∃ itp, as2 = { as with itp := itp } := ⟨_, hall.rest_of_nil⟩
  refine ⟨{ Stmt.run as (.label tok.range) with itp := itp }, ?_, htoks2, hall.log, rfl⟩
  refine returns_bind.mpr ⟨_, _, htok _, returns_bind.mpr ⟨_, _, hcolon _, returns_bind.mpr ⟨_, _, returns_get.mpr ⟨rfl, rfl⟩, ?_⟩⟩⟩
  refine returns_bind.mpr ⟨(), { as with itp := itp }, failIf_returns.mpr ⟨?_, rfl⟩, returns_bind.mpr ⟨_, _, addSymbol_reads hnew, returns_modify.mpr ?_⟩⟩
  · change ¬(as.findSymbol tok.text).isSome
    simp [hnew]
  · rw [Stmt.run, AssemblerCtx.labelMain]
    by_cases hmain : tok.range.view <+: mainName
    · rw [if_pos hmain]
      exact (if_pos hmain).symm
    · rw [if_neg hmain]
      exact (if_neg hmain).symm

theorem parseVarDecl_reads {dollar assign : Token} {init : Initializer} (hd : dollar.kind = .tokDollar) (hk : tok.kind = .tokIdentifier)
    (ha : assign.kind = .tokAssign) (hnew : as.findSymbol tok.text = none) (hinit : init.Spelled toks) (hrange : init.InRange)
    (hlen : as.constants.length + (init.data as).length < 2 ^ 31) (hrest : firstKind rest ≠ .tokBackquote)
    (htoks : as.itp.toks = [dollar, tok, assign] ++ (toks ++ rest)) :
    ∃ as', parseVarDecl.Returns as () as' ∧ ReadsTo as (.var tok.range init) rest as' := by
  have htoks0 : as.itp.toks = dollar :: tok :: assign :: (toks ++ rest) := htoks
  obtain ⟨as1, hdollar, hr1⟩ := advance_reads htoks0 (by rw [hd]; decide) (by rw [hd]; decide)
  obtain ⟨as2, hname, hr2⟩ := consume_reads (hr1.left htoks0) hk
  obtain ⟨as3, hassign, hr3⟩ := consume_reads (hr2.left (hr1.left htoks0)) ha
  have hall := (hr1.trans hr2).trans hr3
  have htoks3 := hr3.left (hr2.left (hr1.left htoks0))
  obtain ⟨itp, rfl⟩ : ∃ itp, as3 = { as with itp := itp } := ⟨_, hall.rest_of_nil⟩
  obtain ⟨as4, hparse, hr4⟩ := @parseInitializer_reads { as with
    itp := itp, symbols := as.symbols ++ [as.varSymbol tok.range] } _ rest init hinit hrange htoks3 hrest (by cases init <;> exact hlen)
  have hdata : init.data { as with itp := itp, symbols := as.symbols ++ [as.varSymbol tok.range] } = init.data as := by cases init <;> rfl
  rw [hdata] at hparse hr4
  refine ⟨{ Stmt.run as (.var tok.range init) with itp := as4.itp }, ?_, hr4.left htoks3, hr4.log.trans hall.log, rfl⟩
  refine returns_bind.mpr ⟨_, _, hdollar, returns_bind.mpr ⟨_, _, hname _, returns_bind.mpr ⟨_, _, hassign _, ?_⟩⟩⟩
  refine returns_bind.mpr ⟨_, _, returns_get.mpr ⟨rfl, rfl⟩, returns_bind.mpr ⟨(), _, addSymbol_reads hnew, ?_⟩⟩
  refine returns_bind.mpr ⟨_, as4, hparse, returns_modify.mpr ?_⟩
  rw [hr4.rest_of_nil]
  simp only [Stmt.run, AssemblerCtx.addConstants, AssemblerCtx.mk.injEq, true_and, and_true]
  exact (map_setSize hnew rfl).symm

theorem parseInstructionMode_reads {instr : Instruction} (hm : ModeSpelled mode toks) (himd : instr.imd = .quad)
    (htoks : as.itp.toks = toks ++ rest) (hrest : firstKind rest ≠ .tokDot) :
    ∃ as', (parseInstructionMode instr).Returns as { instr with imd := mode } as' ∧ Reads as as' toks [] := by
  cases hm with
  | none =>
    obtain ⟨as', hdot, hr⟩ := accept_reads (.none : Optional .tokDot _ _) htoks fun _ => hrest
    exact ⟨as', returns_bind.mpr ⟨_, _, hdot, returns_pure.mpr ⟨by rw [← himd], rfl⟩⟩, hr⟩
  | some hd hk hm =>
    obtain ⟨mid, hdot, hr⟩ := accept_reads (.some hd) htoks nofun
    obtain ⟨as', hmode, hr'⟩ := parseModes_reads (hr.left htoks) hk hm
    exact ⟨as', returns_bind.mpr ⟨_, _, hdot, returns_bind.mpr ⟨_, _, hmode, returns_pure.mpr ⟨rfl, rfl⟩⟩⟩, hr.trans hr'⟩

theorem pushInstruction_reads {instr : Instruction} (hlen : as.instructions.length + 1 < 2 ^ 31) :
    (pushInstruction instr).Returns as () { as with instructions := as.instructions ++ [instr] } := by
  refine returns_bind.mpr ⟨as, as, returns_get.mpr ⟨rfl, rfl⟩, returns_bind.mpr ⟨(), as, ?_, returns_modify.mpr rfl⟩⟩
  exact returns_stopIf.mpr ⟨not_le.mpr hlen, rfl⟩

/-- The arguments are read, and leave their record. -/
theorem parseArgs_reads {src : SourceInstr} (hle : src.args.length ≤ 2) (ha : ArgsWritten as false src.args toks)
    (htoks : as.itp.toks = toks ++ rest) (hrest : firstKind rest ∉ [.tokPlus, .tokMinus]) :
    ∃ as' mid instr, (parseFirstArg src.args.length src.base).Returns as instr mid ∧
      (parseSecondArg src.args.length instr).Returns mid (src.record as) as' ∧ Reads as as' toks (src.pending as) := by
  obtain ⟨opc, mode, args⟩ := src
  cases ha with
  | nil => exact ⟨as, as, _, returns_pure.mpr ⟨rfl, rfl⟩, returns_pure.mpr ⟨rfl, rfl⟩, .refl⟩
  | @cons _ a args toks1 toks2 ha har hs =>
    rw [List.append_assoc] at htoks
    cases hs with
    | nil =>
      obtain ⟨as', hfirst, hr⟩ := @parseFirstArg_reads _ _ _ (SourceInstr.base ⟨opc, mode, [a]⟩) 1 _ (le_refl 1) ha (har.append fun _ => hrest) htoks
      refine ⟨as', as', _, hfirst, returns_pure.mpr ⟨rfl, rfl⟩, ?_⟩
      simpa [SourceInstr.pending] using hr
    | @cons _ b args toks2 toks3 hb hbr hs =>
      obtain rfl : args = [] := List.length_eq_zero_iff.mp (by simpa using hle)
      cases hs
      rw [List.append_nil] at htoks har
      obtain ⟨mid, hfirst, hr1⟩ := @parseFirstArg_reads _ _ _ (SourceInstr.base ⟨opc, mode, [a, b]⟩) 2 _ (by decide) ha
        (har.append fun _ => hrest) htoks
      obtain ⟨as', hsecond, hr2⟩ := @parseSecondArg_reads _ _ _ (a.first as (SourceInstr.base ⟨opc, mode, [a, b]⟩)) _ hb
        (hr1.readable (hbr.append fun _ => hrest)) (hr1.left htoks)
      have hall := hr1.trans hr2
      rw [hr1.second] at hsecond
      rw [hr1.headPending] at hall
      refine ⟨as', mid, _, hfirst, hsecond, ?_⟩
      simpa [SourceInstr.pending] using hall

/-- The tokens of some arguments begin one, or there are none. -/
theorem firstKind_args {isRb : Bool} {args : List Arg} (h : ArgsWritten as isRb args toks) (hrest : firstKind rest ∈ followKinds) :
    firstKind (toks ++ rest) ∈ argKinds ++ followKinds := by
  cases h with
  | nil => exact List.mem_append_right _ hrest
  | cons h =>
    rw [List.append_assoc]
    exact List.mem_append_left _ (firstKind_arg h)

theorem firstKind_mode {ms : List Token} (hm : ModeSpelled mode ms) (h : firstKind rest ∈ argKinds ++ followKinds) :
    firstKind (ms ++ rest) ∈ .tokDot :: (argKinds ++ followKinds) := by
  cases hm with
  | none => exact List.mem_cons_of_mem _ h
  | some hd => exact List.mem_cons.mpr (.inl hd)

theorem parseInstruction_reads {src : SourceInstr} {ms : List Token} (hk : tok.kind = .tokIdentifier)
    (hopc : OpCode.lookup? tok.text = some (src.opc, src.args.length)) (hm : ModeSpelled src.mode ms)
    (ha : ArgsWritten as false src.args toks) (hlen : as.instructions.length + 1 < 2 ^ 31) (hrest : firstKind rest ∈ followKinds)
    (htoks : as.itp.toks = tok :: (ms ++ (toks ++ rest))) :
    ∃ as', parseInstruction.Returns as () as' ∧ ReadsTo as (.instr src) rest as' := by
  have hcurr : as.curr = tok := by rw [AssemblerCtx.curr, ITokenParser.curr, htoks, List.headD_cons]
  obtain ⟨as1, hadv, hr1⟩ := advance_reads htoks (by rw [hk]; decide) (by rw [hk]; decide)
  have htoks1 := hr1.left htoks
  obtain ⟨as2, hmode, hr2⟩ := @parseInstructionMode_reads as1 _ _ _
    { osz := Fin.ofNat 4 (src.args.length + 1), opc := ⟨src.opc.toNat, src.opc.toNat_lt⟩, imd := .quad } hm rfl htoks1
    (ne_of_mem_of_not_mem (firstKind_args ha hrest) (by decide))
  have hread := hr1.trans hr2
  have hargs : ArgsWritten as2 false src.args toks := hread.argsWritten ha
  obtain ⟨as3, mid, instr, hfirst, hsecond, hr3⟩ := parseArgs_reads (lookup?_le hopc) hargs (hr2.left htoks1)
    (not_mem_of_disjoint hrest (by decide))
  have hall := hread.trans hr3
  rw [hread.record] at hsecond
  rw [hread.pendings] at hall
  refine ⟨{ as3 with instructions := as3.instructions ++ [src.record as] }, ?_, hr3.left (hr2.left htoks1), hall.log, ?_⟩
  · refine returns_bind.mpr ⟨_, _, curr_returns.mpr ⟨rfl, rfl⟩, ?_⟩
    rw [hcurr, hopc]
    refine returns_bind.mpr ⟨_, _, hadv, returns_bind.mpr ⟨_, _, hmode, returns_bind.mpr ⟨_, _, hfirst, ?_⟩⟩⟩
    exact returns_bind.mpr ⟨_, _, hsecond, pushInstruction_reads (by rwa [hall.instructions])⟩
  · have hpatch : as3.patchWork = _ := hall.patchWork
    have hrest3 := hall.rest
    rw [hpatch] at hrest3
    rw [Stmt.run, hall.instructions, hrest3]
    rfl

theorem peek_kind (htoks : as.itp.toks = tok :: rest) (hk : tok.kind ≠ .tokEoF) : as.itp.peek.kind = firstKind rest := by
  rw [ITokenParser.peek, ITokenParser.curr, htoks, List.headD_cons, if_neg hk, List.tail_cons]
  cases rest <;> rfl

/-- A statement that is written by the rules is read as it is written, and adds to the program what it says. -/
theorem parseStatement_reads (h : stmt.Written as toks) (hrest : firstKind rest ∈ followKinds) (htoks : as.itp.toks = toks ++ rest) :
    ∃ as', parseStatement.Returns as () as' ∧ ReadsTo as stmt rest as' := by
  have hcurr {tok : Token} {toks : List Token} (htoks : as.itp.toks = tok :: toks) : as.curr = tok := by
    rw [AssemblerCtx.curr, ITokenParser.curr, htoks, List.headD_cons]
  cases h with
  | @skip tok hk =>
    obtain ⟨as', hadv, hr⟩ := advance_reads htoks (by rcases hk with hk | hk <;> rw [hk] <;> decide)
      (by rcases hk with hk | hk <;> rw [hk] <;> decide)
    refine ⟨as', returns_bind.mpr ⟨as, as, returns_get.mpr ⟨rfl, rfl⟩, ?_⟩, hr.left htoks, hr.log, hr.rest_of_nil⟩
    rw [hcurr htoks]
    rcases hk with hk | hk
    · rw [hk]
      exact returns_bind.mpr ⟨_, _, hadv, returns_pure.mpr ⟨rfl, rfl⟩⟩
    · rw [hk]
      exact returns_bind.mpr ⟨_, _, hadv, returns_pure.mpr ⟨rfl, rfl⟩⟩
  | @label tok colon hk hc hnew =>
    obtain ⟨as', hparse, hleaves⟩ := parseLabel_reads hk hc hnew htoks
    refine ⟨as', returns_bind.mpr ⟨as, as, returns_get.mpr ⟨rfl, rfl⟩, ?_⟩, hleaves⟩
    have hpeek : as.itp.peek.kind = .tokColon := (peek_kind htoks (by rw [hk]; decide)).trans hc
    rw [hcurr htoks, hk]
    exact (if_pos hpeek).symm ▸ hparse
  | @var dollar tok assign toks init hd hk ha hnew hinit hrange hlen =>
    rw [List.append_assoc] at htoks
    obtain ⟨as', hparse, hleaves⟩ := parseVarDecl_reads hd hk ha hnew hinit hrange hlen (ne_of_mem_of_not_mem hrest (by decide)) htoks
    refine ⟨as', returns_bind.mpr ⟨as, as, returns_get.mpr ⟨rfl, rfl⟩, ?_⟩, hleaves⟩
    rw [hcurr htoks, hd]
    exact hparse
  | @instr src tok ms toks hk hopc hm ha hlen =>
    rw [List.cons_append, List.cons_append, List.append_assoc] at htoks
    obtain ⟨as', hparse, hleaves⟩ := parseInstruction_reads hk hopc hm ha hlen hrest htoks
    refine ⟨as', returns_bind.mpr ⟨as, as, returns_get.mpr ⟨rfl, rfl⟩, ?_⟩, hleaves⟩
    have hpeek : as.itp.peek.kind ≠ .tokColon := by
      rw [peek_kind htoks (by rw [hk]; decide)]
      exact ne_of_mem_of_not_mem (firstKind_mode hm (firstKind_args ha hrest)) (by decide)
    rw [hcurr htoks, hk]
    exact (if_neg hpeek).symm ▸ hparse

end AsmM

/-! ### What is read is what is written -/

theorem ArgsWritten.spelled {isRb : Bool} {args : List Arg} (h : ArgsWritten as isRb args toks) : ArgsSpelled args toks := by
  induction h with
  | nil => exact .nil
  | cons hs _ _ ih => exact .cons hs ih

theorem ArgsWritten.defined {isRb : Bool} {args : List Arg} (h : ArgsWritten as isRb args toks) : ∀ arg ∈ args, arg.Defined as := by
  induction h with
  | nil => exact fun _ hmem => absurd hmem List.not_mem_nil
  | cons _ hr _ ih =>
    intro arg hmem
    rcases List.mem_cons.mp hmem with rfl | hmem
    · exact hr.defined
    · exact ih arg hmem

/-- A first argument has no second part. -/
theorem ArgsWritten.first_ea {args : List Arg} (h : ArgsWritten as false args toks) : ∀ arg ∈ args.head?, arg.ea = none := by
  cases h with
  | nil => exact nofun
  | cons _ hr _ =>
    rintro _ ⟨⟩
    exact Option.not_isSome_iff_eq_none.mp fun hea => Bool.false_ne_true (hr.ea hea).1

theorem SourceInstr.record_linkable {src : SourceInstr} (hle : src.args.length ≤ 2) (hea : ∀ arg ∈ src.args.head?, arg.ea = none) :
    (src.record as).Linkable := by
  obtain ⟨opc, mode, _ | ⟨a, _ | ⟨b, _ | ⟨c, args⟩⟩⟩⟩ := src
  · exact Instruction.linkable_of_one rfl rfl
  · exact Arg.first_linkable rfl rfl (hea a rfl)
  · exact Instruction.linkable_of_three ((b.record_frame as _).1.trans (a.record_frame as _).1)
  · simp at hle

theorem Stmt.Written.step (h : stmt.Written as toks) (htoks : as.itp.toks = toks ++ rest) (hl : ReadsTo as stmt rest as') :
    StmtStep as stmt toks as' := by
  obtain ⟨hrest, hlog, hrun⟩ := hl
  have hreads : Reads as { as with itp := as'.itp } toks [] := ⟨htoks.trans (by rw [hrest]), hlog, rfl, rfl⟩
  cases h with
  | skip hk =>
    rw [hrun]
    exact .skip hk hreads
  | label hk hc hnew => exact .label hk hc hnew hreads hrun
  | @var dollar tok assign toks init hd hk ha hnew hinit hrange hlen =>
    have hmid : Reads as { as with itp := { as'.itp with toks := toks ++ as'.itp.toks } } [dollar, tok, assign] [] :=
      ⟨by rw [htoks, List.append_assoc, hrest], hlog, rfl, rfl⟩
    exact .var hd hk ha hnew hmid rfl hinit init.encodes_data hrun
  | @instr src tok ms toks hk hopc hm ha hlen =>
    have hmid : Reads as { as with
        itp := as'.itp, patchWork := (src.pending as).foldl (fun l p => l.orderedInsert (·.pos < ·.pos) p) as.patchWork }
        (tok :: ms ++ toks) (src.pending as) := ⟨htoks.trans (by rw [hrest]), hlog, rfl, rfl⟩
    exact .instr (.mk hk hopc hm ha.spelled) ⟨ha.defined, ha.first_ea⟩ hmid (SourceInstr.record_linkable (AsmM.lookup?_le hopc) ha.first_ea)
      hlen hrun

/-! ### Programs -/

/-- What is known of a statement does not depend on the tokens that are left. -/
theorem Stmt.Written.with_itp (h : stmt.Written as toks) (itp : ITokenParser) : stmt.Written { as with itp := itp } toks := by
  have hargs {isRb : Bool} {args : List Arg} {toks : List Token} (ha : ArgsWritten as isRb args toks) :
      ArgsWritten { as with itp := itp } isRb args toks := by
    induction ha with
    | nil => exact .nil
    | cons hs hr _ ih => exact .cons hs ⟨⟨hr.defined.head, hr.defined.ea⟩, hr.ends, hr.ea⟩ ih
  cases h with
  | skip hk => exact .skip hk
  | label hk hc hnew => exact .label hk hc hnew
  | @var dollar tok assign toks init hd hk ha hnew hinit hrange hlen =>
    exact .var hd hk ha hnew hinit hrange (by cases init <;> exact hlen)
  | instr hk hopc hm ha hlen => exact .instr hk hopc hm (hargs ha) hlen

theorem SourceInstr.record_with_itp (itp : ITokenParser) (src : SourceInstr) : src.record { as with itp := itp } = src.record as := by
  have harg (arg : Arg) (instr : Instruction) : arg.record { as with itp := itp } instr = arg.record as instr := by
    obtain ⟨isMem, head, ea⟩ := arg
    cases ea with
    | none => cases head <;> rfl
    | some e => cases head <;> cases e <;> rfl
  rw [SourceInstr.record, SourceInstr.record]
  split
  · rfl
  · rw [Arg.first, Arg.first, harg]
  · rw [Arg.second, Arg.second, Arg.first, Arg.first, harg, harg]

theorem Stmt.run_with_itp (itp : ITokenParser) : stmt.run { as with itp := itp } = { stmt.run as with itp := itp } := by
  cases stmt with
  | skip => rfl
  | label range =>
    rfl
  | var range init => cases init <;> rfl
  | instr src =>
    have hpending : src.pending { as with itp := itp } = src.pending as := rfl
    rw [Stmt.run, Stmt.run, src.record_with_itp, hpending]

/-- What a program says. -/
def runAll (as : AssemblerCtx) (prog : List Stmt) : AssemblerCtx := prog.foldl Stmt.run as

namespace AsmM
open Prog

/-- A program that is written by the rules is read to its end, and leaves what its statements say. -/
theorem parseStatements_reads {itp : ITokenParser} {fuel : Nat} (h : Written as prog toks) (htoks : itp.toks = toks)
    (hfuel : toks.length ≤ fuel) :
    ∃ as', (parseStatements fuel).Returns { as with itp := itp } () as' ∧ as'.itp.toks = [] ∧ as'.itp.log = itp.log ∧
      as' = { runAll as prog with itp := as'.itp } ∧ ∀ as0 prog0 toks0, Steps as0 prog0 toks0 { as with itp := itp } →
        Steps as0 (prog0 ++ prog) (toks0 ++ toks) as' := by
  induction h generalizing itp fuel with
  | @nil as =>
    have heof : itp.eof = true := by simp [ITokenParser.eof, ITokenParser.curr, htoks, ITokenParser.last]
    refine ⟨{ as with itp := itp }, ?_, htoks, rfl, rfl, fun as0 prog0 toks0 hs => by simpa using hs⟩
    cases fuel with
    | zero => exact returns_pure.mpr ⟨rfl, rfl⟩
    | succ fuel =>
      refine returns_bind.mpr ⟨_, _, returns_get.mpr ⟨rfl, rfl⟩, ?_⟩
      rw [if_pos heof]
      exact returns_pure.mpr ⟨rfl, rfl⟩
  | @cons as stmt prog toks toks' hstmt hs ih =>
    obtain ⟨as1, hparse, hl⟩ := parseStatement_reads (hstmt.with_itp itp) hs.firstKind htoks
    have hstep := (hstmt.with_itp itp).step htoks hl
    have hne := hstep.toks.2
    have hfirst : firstKind itp.toks ∈ stmtKinds := htoks ▸ hstmt.firstKind
    have heof : itp.eof = false := by
      rw [ITokenParser.eof, decide_eq_false_iff_not, itp.curr_kind, not_or]
      exact ⟨ne_of_mem_of_not_mem hfirst (by decide), ne_of_mem_of_not_mem hfirst (by decide)⟩
    obtain ⟨fuel, rfl⟩ : ∃ k, fuel = k + 1 := by
      have hpos := List.length_pos_iff.mpr hne
      rw [List.length_append] at hfuel
      exact ⟨fuel - 1, by omega⟩
    have hfuel' : toks'.length ≤ fuel := by
      have hpos := List.length_pos_iff.mpr hne
      rw [List.length_append] at hfuel
      omega
    obtain ⟨as', hloop, htoks', hlog, hrun, hsteps⟩ := @ih as1.itp fuel hl.toks hfuel'
    have has1 : as1 = { stmt.run as with itp := as1.itp } := hl.run.trans (by rw [Stmt.run_with_itp])
    rw [← has1] at hloop hsteps
    refine ⟨as', ?_, htoks', hlog.trans hl.log, hrun, fun as0 prog0 toks0 h0 => ?_⟩
    · refine returns_bind.mpr ⟨_, _, returns_get.mpr ⟨rfl, rfl⟩, ?_⟩
      rw [if_neg (by simpa using heof)]
      exact returns_bind.mpr ⟨(), as1, returns_tryCatch.mpr (.inl hparse), hloop⟩
    · have hall := hsteps as0 _ _ (h0.snoc hstep)
      simpa only [List.append_assoc, List.singleton_append] using hall

end AsmM

/-! ### Linking -/

theorem addTargets_isSome {ip : U32} {refs : List Nat} {instrs : List Instruction} (h : ∀ j ∈ refs, j < instrs.length) :
    ∃ instrs', addTargets ip refs instrs = some instrs' ∧ instrs'.length = instrs.length := by
  induction refs generalizing instrs with
  | nil => exact ⟨instrs, rfl, rfl⟩
  | cons j refs ih =>
    rw [addTargets, if_pos (h j (List.mem_cons_self ..))]
    have hlen : (instrs.modify j (·.addIp ip)).length = instrs.length := List.length_modify ..
    obtain ⟨instrs', hall, hlen'⟩ := @ih (instrs.modify j (·.addIp ip)) fun k hk => hlen ▸ h k (List.mem_cons_of_mem _ hk)
    exact ⟨instrs', hall, hlen'.trans hlen⟩

theorem patchLoop_isSome {patches : List Patch} {refs : AsmM.Refs} {n i : Nat} {ip : U32} {instrs : List Instruction}
    (h : ∀ k, ∀ j ∈ refs.at k, j < instrs.length) (hn : i + n = instrs.length) : ∃ instrs', patchLoop patches refs n i ip instrs = some instrs' := by
  induction n generalizing i ip instrs with
  | zero => exact ⟨instrs, rfl⟩
  | succ n ih =>
    have hlen : (if patches.any (·.pos = i) then instrs.modify i (·.subIp ip) else instrs).length = instrs.length := by
      split
      · exact List.length_modify ..
      · rfl
    obtain ⟨mid, hmid, hlen'⟩ := @addTargets_isSome ip (refs.at i) _ fun j hj => hlen.symm ▸ h i j hj
    have hmidlen := hlen'.trans hlen
    have hi : i < mid.length := by omega
    obtain ⟨instrs', hloop⟩ := @ih (i + 1) (ip + BitVec.ofNat 32 mid[i].linkSize) mid (fun k j hj => hmidlen ▸ h k j hj) (by omega)
    refine ⟨instrs', ?_⟩
    rw [patchLoop, hmid, Option.bind_eq_bind, Option.bind_some, List.getElem?_eq_getElem hi]
    exact hloop

theorem emitAll_isSome {seq : List Instruction} (h : ∀ ins ∈ seq, ins.Linkable) : ∃ bs, Instruction.emitAll seq = some bs := by
  induction seq with
  | nil => exact ⟨[], rfl⟩
  | cons ins seq ih =>
    obtain ⟨b, hb, -⟩ := (h ins (List.mem_cons_self ..)).emit
    obtain ⟨bs, hbs⟩ := ih fun x hx => h x (List.mem_cons_of_mem _ hx)
    refine ⟨b ++ bs, ?_⟩
    rw [Instruction.emitAll, hb, hbs]
    rfl

theorem Code.push_isSome {code : Code} {bs : List U8} (h : code.len + bs.length < 2 ^ 31) :
    ∃ code', code.push bs = some code' ∧ code'.bytes = code.bytes ++ bs := by
  rw [Code.push, dif_pos (by rwa [List.length_append])]
  exact ⟨_, rfl, rfl⟩

/-- The size of the image of a program. -/
def AssemblerCtx.imageSize (as : AssemblerCtx) : Nat :=
  AsmM.headerSize + as.constants.length + (as.instructions.map Instruction.linkSize).sum

theorem Collected.linkable_records {lines : List Line} (hc : Collected prog lines as) : ∀ ins ∈ as.instructions, ins.Linkable := by
  intro ins hins
  rw [hc.records] at hins
  obtain ⟨line, hline, rfl⟩ := List.mem_map.mp hins
  exact hc.linkable line hline

namespace AsmM
open Prog

theorem collectRefs_reads {patches : List Patch} {refs : Refs} (h : ∀ patch ∈ patches, (as.findSymbol patch.range.view).isSome) :
    ∃ refs', (collectRefs patches refs).Returns as refs' as := by
  induction patches generalizing refs with
  | nil => exact ⟨refs, returns_pure.mpr ⟨rfl, rfl⟩⟩
  | cons patch patches ih =>
    obtain ⟨sym, hsym⟩ := Option.isSome_iff_exists.mp (h patch (List.mem_cons_self ..))
    obtain ⟨refs', hrefs⟩ := @ih (if sym.tag = .label then refs.add sym.id.toNat patch.pos else refs) fun p hp =>
      h p (List.mem_cons_of_mem _ hp)
    refine ⟨refs', returns_bind.mpr ⟨as, as, returns_get.mpr ⟨rfl, rfl⟩, ?_⟩⟩
    rw [hsym]
    exact hrefs

/-- The instructions of a program are linked, and keep their sizes. -/
theorem patchLoop_reads {lines : List Line} {refs : Refs} (hc : Collected prog lines as) (db : Nat)
    (hrefs : (collectRefs as.patchWork []).Returns as refs as) :
    ∃ instrs bs, patchLoop as.patchWork refs as.instructions.length 0 (BitVec.ofNat 32 db) as.instructions = some instrs ∧
      Instruction.emitAll instrs = some bs ∧ bs.length = (as.instructions.map Instruction.linkSize).sum := by
  obtain ⟨-, -, hat⟩ := collectRefs_returns hrefs rfl
  have hbound (k j : Nat) (hj : j ∈ refs.at k) : j < as.instructions.length := by
    rw [hat, show Refs.at [] k = [] from rfl, List.nil_append] at hj
    obtain ⟨patch, hpatch, rfl⟩ := List.mem_map.mp hj
    have hmem := hc.patches.mem_iff.mp (List.mem_filter.mp hpatch).1
    obtain ⟨line, hline, hpending⟩ := List.mem_flatMap.mp hmem
    obtain ⟨i, hi⟩ := List.getElem?_of_mem hline
    rw [hc.pending_pos hi patch hpending, ← hc.length_lines]
    exact (List.getElem?_eq_some_iff.mp hi).1
  obtain ⟨instrs, hloop⟩ := @patchLoop_isSome as.patchWork refs _ 0 (BitVec.ofNat 32 db) _ hbound (Nat.zero_add _)
  have hlinked := @patchLoop_eq as.patchWork refs db _ 0 _ _ instrs rfl (by rwa [offset_zero, Nat.add_zero])
  have hlinkable : ∀ ins ∈ instrs, ins.Linkable := by
    intro ins hins
    obtain ⟨j, hj⟩ := List.getElem?_of_mem hins
    rw [hlinked] at hj
    obtain ⟨ins0, hj0, rfl⟩ := Option.map_eq_some_iff.mp hj
    exact (hc.linkable_records ins0 (List.mem_of_getElem? hj0)).plus _
  have hsizes : instrs.map Instruction.linkSize = as.instructions.map Instruction.linkSize := by
    refine List.ext_getElem? fun j => ?_
    rw [List.getElem?_map, List.getElem?_map, hlinked, Option.map_map]
    rfl
  obtain ⟨bs, hbs⟩ := emitAll_isSome hlinkable
  exact ⟨instrs, bs, hloop, hbs, by rw [Instruction.length_emitAll hlinkable hbs, hsizes]⟩

/-- A program of which every reference is to a symbol, and of which the image is not too large, is linked. -/
theorem link_reads {lines : List Line} {into : Code} (hc : Collected prog lines as) (herr : as.errors = 0)
    (hall : ∀ patch ∈ as.patchWork, (as.findSymbol patch.range.view).isSome) (hsize : into.len + as.imageSize < 2 ^ 31) :
    ∃ code as', (link into).Returns as (code.len, code) as' ∧ as'.errors = 0 := by
  obtain ⟨refs, hrefs⟩ := @collectRefs_reads as as.patchWork [] hall
  rw [AssemblerCtx.imageSize] at hsize
  have hheader : ((List.range headerSize).map as.uninit).length = headerSize := by rw [List.length_map, List.length_range]
  obtain ⟨code1, hpush1, hbytes1⟩ := @Code.push_isSome into ((List.range headerSize).map as.uninit) (by omega)
  have hlen1 : code1.len = into.len + headerSize := by rw [Code.len, hbytes1, List.length_append, hheader, Code.len]
  obtain ⟨code2, hpush2, hbytes2⟩ := @Code.push_isSome code1 as.constants (by omega)
  have hlen2 : code2.len = code1.len + as.constants.length := by rw [Code.len, hbytes2, List.length_append, Code.len]
  obtain ⟨instrs, bs, hloop, hbs, hlen⟩ := patchLoop_reads hc code2.len hrefs
  obtain ⟨code3, hpush3, hbytes3⟩ := @Code.push_isSome code2 bs (by omega)
  have hlen3 : code3.len = code2.len + bs.length := by rw [Code.len, hbytes3, List.length_append, Code.len]
  have happend : code2.append instrs = some code3 := by rw [Code.append, hbs, Option.bind_some, hpush3]
  let head := codeHeader (BitVec.ofNat 64 code3.len) (BitVec.ofNat 32 code2.len) (BitVec.ofNat 32 code2.len + as.main)
  have hhead : head.length = headerSize := by simp [head, codeHeader, length_leBytes, headerSize]
  obtain ⟨code4, hpush4, -⟩ := @Code.push_isSome .empty (head ++ code3.bytes.drop headerSize) (by
    rw [List.length_append, hhead, List.length_drop]
    change 0 + (headerSize + (code3.len - headerSize)) < _
    omega)
  refine ⟨code4, { as with instructions := instrs }, ?_, herr⟩
  refine returns_bind.mpr ⟨as, as, returns_get.mpr ⟨rfl, rfl⟩, returns_bind.mpr ⟨refs, as, hrefs, ?_⟩⟩
  refine returns_bind.mpr ⟨as, as, returns_get.mpr ⟨rfl, rfl⟩, ?_⟩
  rw [if_neg (not_not_intro herr)]
  refine returns_bind.mpr ⟨code4, _, ?_, returns_pure.mpr ⟨rfl, rfl⟩⟩
  simp only [emitCode, returns_bind, returns_get, returns_ofOption, returns_modify]
  exact ⟨_, _, ⟨rfl, rfl⟩, code1, _, ⟨hpush1, rfl⟩, code2, _, ⟨hpush2, rfl⟩, instrs, _, ⟨hloop, rfl⟩, (), _, rfl, code3, _, ⟨happend, rfl⟩,
    hpush4, rfl⟩

variable {stop : Range} {uninit : Nat → U8} {into : Code}

/-- A program that is written by the rules is read and linked. -/
theorem assemble_links (h : Written (.init toks stop [] uninit) prog toks)
    (hall : ∀ patch ∈ (runAll (.init toks stop [] uninit) prog).patchWork,
      ((runAll (.init toks stop [] uninit) prog).findSymbol patch.range.view).isSome)
    (hsize : into.len + (runAll (.init toks stop [] uninit) prog).imageSize < 2 ^ 31) :
    ∃ code as as' lines, (assemble into).Returns (.init toks stop [] uninit) (code.len, code) as' ∧
      (link into).Returns as (code.len, code) as' ∧ as'.errors = 0 ∧
      as = { runAll (.init toks stop [] uninit) prog with itp := as.itp } ∧ Collected prog lines as := by
  obtain ⟨as, hparse, htoks, hlog, hrun, hsteps⟩ := @parseStatements_reads _ toks prog (AssemblerCtx.init toks stop [] uninit).itp toks.length h
    rfl (le_refl _)
  have herr : as.errors = 0 := congrArg List.length hlog
  obtain ⟨lines, hc, -⟩ := (hsteps _ _ _ .nil).collected
  rw [List.nil_append] at hc
  have hdefined : ∀ patch ∈ as.patchWork, (as.findSymbol patch.range.view).isSome := by
    rw [hrun]
    exact hall
  obtain ⟨code, as', hlink, herr'⟩ := link_reads hc herr hdefined (by rw [hrun]; exact hsize)
  refine ⟨code, as, as', lines, ?_, hlink, herr', hrun, hc⟩
  refine returns_bind.mpr ⟨_, _, returns_get.mpr ⟨rfl, rfl⟩, returns_bind.mpr ⟨(), as, hparse, ?_⟩⟩
  refine returns_bind.mpr ⟨as, as, returns_get.mpr ⟨rfl, rfl⟩, ?_⟩
  rw [if_neg (not_not_intro herr)]
  exact hlink

end AsmM

/-- `a: jmp a`, as a program -/
def selfJumpProgram : List Stmt :=
  let range := (wordToken .tokIdentifier ['a']).range
  [.label range, .instr ⟨.jmp, .quad, [⟨false, .symbol false range none, none⟩]⟩]

theorem selfJump_written : Written (.init selfJump endRange [] fun _ => 0) selfJumpProgram selfJump := by
  let as : AssemblerCtx := .init selfJump endRange [] fun _ => 0
  let name : Token := wordToken .tokIdentifier ['a']
  have hlabel : Stmt.Written as (.label name.range) [name, wordToken .tokColon [':']] := .label rfl rfl (by decide)
  have harg : Arg.Spelled ⟨false, .symbol false name.range none, none⟩ [name] := .bare (.symbol .none rfl (by decide) .none)
  have hreadable : Arg.Readable (Stmt.run as (.label name.range)) [] false ⟨false, .symbol false name.range none, none⟩ :=
    ⟨⟨⟨0, by decide, nofun⟩, nofun⟩, fun _ => .inl (by decide), nofun⟩
  have hjump : Stmt.Written (Stmt.run as (.label name.range)) (.instr ⟨.jmp, .quad, [⟨false, .symbol false name.range none, none⟩]⟩)
      [wordToken .tokIdentifier ['j', 'm', 'p'], name] :=
    @Stmt.Written.instr _ _ (wordToken .tokIdentifier ['j', 'm', 'p']) [] [name] rfl (by decide) .none (.cons harg hreadable .nil) (by decide)
  exact .cons hlabel (.cons hjump .nil)

end Cyntatic
