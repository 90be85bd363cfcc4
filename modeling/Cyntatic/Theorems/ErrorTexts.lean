import Cyntatic.Theorems.Arguments
import Cyntatic.Theorems.BitFlags
import Cyntatic.Util.Commands

/-! # Error messages of the argument parser

Which check fails first, what its message quotes, and how many characters there are for it. -/

namespace Cyntatic
open Library

/-! ### Messages -/

/-- A check that fails, with what its message quotes. -/
inductive CmdFailure where
  | extraPositional (npos : Nat)
  | unrecognized (arg : Text)
  | noValue (flag : Option Text)
  | unexpectedValue (flag : Option Text)
  | notBoolean (str : Text) (flag : Option Text)
  | notDouble (str : Text) (flag : Option Text)
  | notNumber (str : Text) (flag : Option Text)
  | notUnit (unit : Text)
  | notBitFlag (size : U32) (str : Text) (flag : Option Text)
  | noCommand
  | noFlag (flag cmd : Option Text)
  | noPositional (i : Nat) (pos cmd : Option Text)

namespace CmdFailure

def error : CmdFailure → CmdError
  | extraPositional npos =>
    ⟨"error: unexpected number of positional arguments passed, expecting %u\n", [.number npos]⟩
  | unrecognized arg => ⟨"error: unrecognized command argument '%s'\n", [.text arg]⟩
  | noValue flag => ⟨"error: command flag '%s' expects a value\n", [.text flag]⟩
  | unexpectedValue flag => ⟨"error: unexpected value passed to flag '%s'\n", [.text flag]⟩
  | notBoolean str flag =>
    ⟨"error: value '%s' passed to flag '%s' cannot be parsed as a boolean\n", [.text str, .text flag]⟩
  | notDouble str flag =>
    ⟨"error: value '%s' passed to flag '%s' cannot be parsed as a double\n", [.text str, .text flag]⟩
  | notNumber str flag =>
    ⟨"error: value '%s' passed to flag '%s' cannot be parsed as a number\n", [.text str, .text flag]⟩
  | notUnit unit => CmdNumbers.unitError unit
  | notBitFlag size str flag => bitFlagError size str flag
  | noCommand => ⟨"error: missing required command to execute\n", []⟩
  | noFlag flag cmd => ⟨"Missing flag '%s' required by command '%s'\n", [.text flag, .text cmd]⟩
  | noPositional i pos cmd =>
    ⟨"Missing positional argument %d ('%s') required by command '%s'\n", [.number i, .text pos, .text cmd]⟩

/-- The number of the characters that the message quotes. -/
def quoted : CmdFailure → Nat
  | extraPositional npos => (digitsOf npos).length
  | unrecognized arg => arg.length
  | noValue flag => (textOf flag).length
  | unexpectedValue flag => (textOf flag).length
  | notBoolean str flag => str.length + (textOf flag).length
  | notDouble str flag => str.length + (textOf flag).length
  | notNumber str flag => str.length + (textOf flag).length
  | notUnit unit => unit.length
  | notBitFlag size str flag => (precise size.toNat str).length + (textOf flag).length
  | noCommand => 0
  | noFlag flag cmd => (textOf flag).length + (textOf cmd).length
  | noPositional i pos cmd => (digitsOf i).length + (textOf pos).length + (textOf cmd).length

/-- What the other characters of the message leave of 127. -/
def room : CmdFailure → Nat
  | extraPositional _ => 59
  | unrecognized _ => 87
  | noValue _ => 88
  | unexpectedValue _ => 85
  | notBoolean _ _ => 63
  | notDouble _ _ => 64
  | notNumber _ _ => 64
  | notUnit _ => 11
  | notBitFlag _ _ _ => 79
  | noCommand => 84
  | noFlag _ _ => 88
  | noPositional _ _ _ => 70

end CmdFailure

@[simp] theorem textOf_some {s : Text} : textOf (some s) = s := rfl

theorem sprintf_char {c : Char} (hc : c ≠ '%') (fmt : List Char) (args : List CmdErrorArg) :
    sprintf (c :: fmt) args = chr c :: sprintf fmt args := by
  rw [sprintf] <;> simp [hc]

theorem sprintf_text (fmt : List Char) (s : Option Text) (args : List CmdErrorArg) :
    sprintf ('%' :: 's' :: fmt) (.text s :: args) = textOf s ++ sprintf fmt args := rfl

theorem sprintf_unsigned (fmt : List Char) (n : Nat) (args : List CmdErrorArg) :
    sprintf ('%' :: 'u' :: fmt) (.number n :: args) = digitsOf n ++ sprintf fmt args := rfl

theorem sprintf_signed (fmt : List Char) (n : Nat) (args : List CmdErrorArg) :
    sprintf ('%' :: 'd' :: fmt) (.number n :: args) = digitsOf n ++ sprintf fmt args := rfl

theorem sprintf_precise (fmt : List Char) (n : Nat) (s : Option Text) (args : List CmdErrorArg) :
    sprintf ('%' :: '.' :: '*' :: 's' :: fmt) (.number n :: .text s :: args) = precise n (textOf s) ++ sprintf fmt args := rfl

theorem sprintf_nil (args : List CmdErrorArg) : sprintf [] args = [] := by simp [sprintf]

theorem message_length (f : CmdFailure) : f.error.message.length ≤ 127 ↔ f.quoted ≤ f.room := by
  cases f <;>
    simp [CmdFailure.error, CmdError.message, CmdNumbers.unitError, bitFlagError, sprintf_char, sprintf_text, sprintf_unsigned,
      sprintf_signed, sprintf_precise, sprintf_nil, CmdFailure.quoted, CmdFailure.room] <;>
    omega

/-- The messages of some errors fit if and only if these are failures that quote no more than there is room for, or errors
    whose messages fit anyway. -/
theorem fit_iff_room {E : CmdError → Prop} {F : CmdFailure → Prop} (herror : ∀ f, F f → E f.error)
    (hfails : ∀ e, E e → (∃ f, F f ∧ e = f.error) ∨ e.message.length ≤ 127) :
    (∀ e, E e → e.message.length ≤ 127) ↔ ∀ f, F f → f.quoted ≤ f.room := by
  constructor
  · exact fun h f hf => (message_length f).mp (h _ (herror f hf))
  · intro h e he
    rcases hfails e he with ⟨f, hf, rfl⟩ | hfits
    · exact (message_length f).mpr (h f hf)
    · exact hfits

/-! ### Values -/

/-- A validator that calls `cmdParseBitFlags` with a table. Where this stays in its loop, there is no message. -/
structure IsBitFlags (bitFlags : List CmdBitFlagDesc) (v : CmdValidator) : Prop where
  yields : ∀ str name res, Yields (cmdParseBitFlags bitFlags str name) res → v str name = res
  stuck : ∀ str name, Stuck bitFlags str → v str name = .error ⟨"", []⟩

/-- The validators of `args.c`, and others that keep to the room for their messages. -/
inductive IsValidator (n : CmdNumbers) : CmdValidator → Prop
  | string : IsValidator n cmdParseString
  | boolean : IsValidator n cmdParseBoolean
  | double : IsValidator n n.cmdParseDouble
  | integer : IsValidator n n.cmdParseInteger
  | byteSize : IsValidator n n.cmdParseByteSize
  | bitFlags {bitFlags : List CmdBitFlagDesc} {v : CmdValidator} (hv : IsBitFlags bitFlags v) : IsValidator n v
  | other {v : CmdValidator} (hv : ∀ str name e, v str name = .error e → e.message.length ≤ 127) : IsValidator n v

/-- `0`, `1`, `true` or `false`, in letters of either case; of a length from 2^32 on only the lower bits count. -/
def IsBoolean (str : Text) : Prop :=
  str.length % 2 ^ 32 = 1 ∧ (str.at 0 = chr '0' ∨ str.at 0 = chr '1') ∨
    str.map toLower = ascii ['t', 'r', 'u', 'e'] ∨ str.map toLower = ascii ['f', 'a', 'l', 's', 'e']

/-- Nothing, or one of the characters for a unit. -/
def IsUnit (unit : Text) : Prop :=
  unit.at 0 = 0 ∨ unit.at 1 = 0 ∧ unit.at 0 ∈ ascii ['g', 'G', 'm', 'M', 'k', 'K', 'b', 'B']

/-- A check that a value does not pass. -/
inductive FailsValue (n : CmdNumbers) : CmdValidator → Text → Option Text → CmdFailure → Prop
  | boolean {str : Text} {name : Option Text} (h : ¬IsBoolean str) :
      FailsValue n cmdParseBoolean str name (.notBoolean str name)
  | double {str : Text} {name : Option Text} (h : n.invalid str (n.strtod str) = true) :
      FailsValue n n.cmdParseDouble str name (.notDouble str name)
  | integer {str : Text} {name : Option Text} (h : n.invalid str (strtoll str (numberBase str)) = true) :
      FailsValue n n.cmdParseInteger str name (.notNumber str name)
  | byteSize {str : Text} {name : Option Text} (h : n.erange = true ∨ (strtoull str (numberBase str)).erange = true) :
      FailsValue n n.cmdParseByteSize str name (.notNumber str name)
  | unit {str : Text} {name : Option Text} (hrange : ¬(n.erange = true ∨ (strtoull str (numberBase str)).erange = true))
      (h : ¬IsUnit (str.drop (strtoull str (numberBase str)).stop)) :
      FailsValue n n.cmdParseByteSize str name (.notUnit (str.drop (strtoull str (numberBase str)).stop))
  | bitFlags {bitFlags : List CmdBitFlagDesc} {v : CmdValidator} {str w t : Text} {name : Option Text}
      (hv : IsBitFlags bitFlags v) (h : Unsupported bitFlags str w t) :
      FailsValue n v str name (.notBitFlag (BitVec.ofNat 32 w.length) t name)

section
variable {n : CmdNumbers} {v : CmdValidator} {str : Text} {name : Option Text} {f : CmdFailure} {e : CmdError}

theorem length_eq_iff {len : Nat} (hlen : len < 2 ^ 32) :
    BitVec.ofNat 32 str.length = BitVec.ofNat 32 len ↔ str.length % 2 ^ 32 = len := by
  rw [← BitVec.toNat_inj, BitVec.toNat_ofNat, BitVec.toNat_ofNat, Nat.mod_eq_of_lt hlen]

theorem cmdParseBoolean_error (h : cmdParseBoolean str name = .error e) :
    ¬IsBoolean str ∧ e = (CmdFailure.notBoolean str name).error := by
  have hword {word : Text} (h : str.map toLower = word) : str.length = word.length := h ▸ (List.length_map _).symm
  rw [cmdParseBoolean] at h
  split at h
  · rename_i hone
    have hone := (length_eq_iff (by decide)).mp hone
    split at h
    · cases h
    · rename_i hdigit
      refine ⟨?_, (Except.error.inj h).symm⟩
      rintro (⟨-, h⟩ | h | h)
      · exact hdigit h
      · rw [hword h] at hone
        exact absurd hone (by decide)
      · rw [hword h] at hone
        exact absurd hone (by decide)
  · rename_i hone
    split at h
    · cases h
    · rename_i htrue
      split at h
      · cases h
      · rename_i hfalse
        refine ⟨?_, (Except.error.inj h).symm⟩
        rintro (⟨h, -⟩ | h | h)
        · exact hone ((length_eq_iff (by decide)).mpr h)
        · exact htrue ⟨by rw [hword h]; rfl, decide_eq_true (h.trans rfl)⟩
        · exact hfalse ⟨by rw [hword h]; rfl, decide_eq_true (h.trans rfl)⟩

theorem cmdParseBoolean_ok {val : CmdFlagValue} (h : cmdParseBoolean str name = .ok val) : IsBoolean str := by
  rw [cmdParseBoolean] at h
  split at h
  · rename_i hone
    split at h
    · rename_i hdigit
      exact .inl ⟨(length_eq_iff (by decide)).mp hone, hdigit⟩
    · cases h
  · split at h
    · rename_i htrue
      exact .inr (.inl ((of_decide_eq_true htrue.2).trans rfl))
    · split at h
      · rename_i hfalse
        exact .inr (.inr ((of_decide_eq_true hfalse.2).trans rfl))
      · cases h

/-! ### The units of a size -/

theorem withUnit_eq_none {num : U64} {c : U8} :
    n.withUnit num c = none ↔ c ≠ 0 ∧ c ∉ ascii ['g', 'G', 'm', 'M', 'k', 'K', 'b', 'B'] := by
  have hmem : c ∈ ascii ['g', 'G', 'm', 'M', 'k', 'K', 'b', 'B'] ↔ (c = chr 'g' ∨ c = chr 'G') ∨
      (c = chr 'm' ∨ c = chr 'M') ∨ (c = chr 'k' ∨ c = chr 'K') ∨ c = chr 'b' ∨ c = chr 'B' := by
    simp [ascii, chr, or_assoc]
  rw [hmem, CmdNumbers.withUnit]
  split_ifs with hg hm hk hb
  · exact iff_of_false nofun fun h => h.2 (.inl hg)
  · exact iff_of_false nofun fun h => h.2 (.inr (.inl hm))
  · exact iff_of_false nofun fun h => h.2 (.inr (.inr (.inl hk)))
  · refine iff_of_false nofun fun ⟨hzero, h⟩ => ?_
    rcases hb with hb | hb | hb
    · exact h (.inr (.inr (.inr (.inl hb))))
    · exact h (.inr (.inr (.inr (.inr hb))))
    · exact hzero hb
  · refine iff_of_true rfl ⟨fun h => hb (.inr (.inr h)), ?_⟩
    rintro (h | h | h | h | h)
    · exact hg h
    · exact hm h
    · exact hk h
    · exact hb (.inl h)
    · exact hb (.inr (.inl h))

theorem unit_refused (n : CmdNumbers) (num : U64) {unit : Text} :
    ¬IsUnit unit ↔ unit.at 0 ≠ 0 ∧ unit.at 1 ≠ 0 ∨ n.withUnit num (unit.at 0) = none := by
  rw [IsUnit, withUnit_eq_none]
  tauto

/-! ### What the validators refuse -/

theorem FailsValue.error (h : FailsValue n v str name f) : v str name = .error f.error := by
  cases h with
  | boolean h =>
    cases hres : cmdParseBoolean str name with
    | ok val => exact absurd (cmdParseBoolean_ok hres) h
    | error e => rw [(cmdParseBoolean_error hres).2]
  | double h => exact if_pos h
  | integer h => exact if_pos h
  | byteSize h => exact if_pos h
  | unit hrange h =>
    rw [CmdNumbers.cmdParseByteSize, if_neg hrange]
    split_ifs with hlong
    · rfl
    · rw [((unit_refused n _).mp h).resolve_left hlong]
      rfl
  | bitFlags hv h => exact hv.yields _ _ _ (cmdParseBitFlags_error.mpr ⟨_, _, h, rfl⟩)

theorem IsValidator.fails (hv : IsValidator n v) (h : v str name = .error e) :
    (∃ f, FailsValue n v str name f ∧ e = f.error) ∨ e.message.length ≤ 127 := by
  cases hv with
  | string => cases h
  | boolean =>
    obtain ⟨hnot, rfl⟩ := cmdParseBoolean_error h
    exact .inl ⟨_, .boolean hnot, rfl⟩
  | double =>
    rw [CmdNumbers.cmdParseDouble] at h
    split at h
    · rename_i hinvalid
      exact .inl ⟨_, .double hinvalid, (Except.error.inj h).symm⟩
    · cases h
  | integer =>
    rw [CmdNumbers.cmdParseInteger] at h
    split at h
    · rename_i hinvalid
      exact .inl ⟨_, .integer hinvalid, (Except.error.inj h).symm⟩
    · cases h
  | byteSize =>
    rw [CmdNumbers.cmdParseByteSize] at h
    split at h
    · rename_i hrange
      exact .inl ⟨_, .byteSize hrange, (Except.error.inj h).symm⟩
    · rename_i hrange
      split at h
      · rename_i hlong
        exact .inl ⟨_, .unit hrange ((unit_refused n 0).mpr (.inl hlong)), (Except.error.inj h).symm⟩
      · split at h
        · rename_i hnone
          exact .inl ⟨_, .unit hrange ((unit_refused n _).mpr (.inr hnone)), (Except.error.inj h).symm⟩
        · cases h
  | @bitFlags bitFlags _ hv =>
    by_cases hstuck : Stuck bitFlags str
    · rw [hv.stuck str name hstuck] at h
      obtain rfl := Except.error.inj h
      exact .inr (by decide)
    · obtain ⟨res, hres⟩ := @exists_yields bitFlags name 0 str hstuck
      have hyields : Yields (cmdParseBitFlags bitFlags str name) (.error e) := by
        have hmap := hres.map fun r : Except CmdError U32 => r.map fun value => CmdFlagValue.cmdNumber value.toNat
        rw [← h, hv.yields str name _ hmap]
        exact hmap
      obtain ⟨w, t, hbad, rfl⟩ := cmdParseBitFlags_error.mp hyields
      exact .inl ⟨_, .bitFlags hv hbad, rfl⟩
  | other hv => exact .inr (hv str name e h)

/-! ### Arguments -/

namespace CmdState

/-- The validators of a table. -/
def validators (s : CmdState) : List CmdValidator :=
  s.flags.filterMap CmdFlag.validator ++ s.pos.filterMap CmdPositional.validator

/-- The first argument that a check fails for; those before it are taken. -/
inductive FailsArgs (n : CmdNumbers) : CmdState → Nat → List Text → CmdFailure → Prop
  | unrecognized {s : CmdState} {npos : Nat} {arg : Text} {val : Option Text} {argv : List Text} (harg : IsFlag arg)
      (hflag : s.flagOf arg = (none, val)) : FailsArgs n s npos (arg :: argv) (.unrecognized arg)
  | noValue {s : CmdState} {npos i : Nat} {arg : Text} {flag : CmdFlag} {v : CmdValidator} (harg : IsFlag arg)
      (hflag : s.flagOf arg = (some (i, flag), none)) (hvalidator : flag.validator = some v) :
      FailsArgs n s npos [arg] (.noValue flag.name)
  | unexpectedValue {s : CmdState} {npos i : Nat} {arg val : Text} {flag : CmdFlag} {argv : List Text} (harg : IsFlag arg)
      (hflag : s.flagOf arg = (some (i, flag), some val)) (hvalidator : flag.validator = none) :
      FailsArgs n s npos (arg :: argv) (.unexpectedValue flag.name)
  | inside {s : CmdState} {npos i : Nat} {arg val : Text} {flag : CmdFlag} {v : CmdValidator} {argv : List Text}
      {f : CmdFailure} (harg : IsFlag arg) (hflag : s.flagOf arg = (some (i, flag), some val))
      (hvalidator : flag.validator = some v) (hval : FailsValue n v val flag.name f) : FailsArgs n s npos (arg :: argv) f
  | behind {s : CmdState} {npos i : Nat} {arg val : Text} {flag : CmdFlag} {v : CmdValidator} {argv : List Text}
      {f : CmdFailure} (harg : IsFlag arg) (hflag : s.flagOf arg = (some (i, flag), none))
      (hvalidator : flag.validator = some v) (hval : FailsValue n v val flag.name f) :
      FailsArgs n s npos (arg :: val :: argv) f
  | extraPositional {s : CmdState} {npos : Nat} {arg : Text} {argv : List Text} (harg : ¬IsFlag arg)
      (hignore : cmdIsIgnoreArguments arg = false) (hpos : s.pos.length ≤ npos) :
      FailsArgs n s npos (arg :: argv) (.extraPositional s.pos.length)
  | positional {s : CmdState} {npos : Nat} {arg : Text} {pos : CmdPositional} {v : CmdValidator} {argv : List Text}
      {f : CmdFailure} (harg : ¬IsFlag arg) (hignore : cmdIsIgnoreArguments arg = false) (hpos : s.pos[npos]? = some pos)
      (hvalidator : pos.validator = some v) (hval : FailsValue n v arg pos.name f) : FailsArgs n s npos (arg :: argv) f
  | next {s s₁ : CmdState} {npos npos₁ : Nat} {item : CmdItem} {argv : List Text} {f : CmdFailure}
      (hitem : Takes s npos item s₁ npos₁) (h : FailsArgs n s₁ npos₁ argv f) : FailsArgs n s npos (item.words ++ argv) f

variable {s s₁ s' : CmdState} {npos npos₁ : Nat} {arg : Text} {argv left : List Text} {item : CmdItem}

theorem FailsArgs.error (h : FailsArgs n s npos argv f) : cmdParseCommandArguments s npos argv = .error f.error := by
  induction h with
  | unrecognized harg hflag =>
    rw [parse_flag harg, hflag]
    rfl
  | noValue harg hflag hvalidator =>
    rw [parse_flag harg, hflag]
    simp only [useFlag, hvalidator]
    rfl
  | unexpectedValue harg hflag hvalidator =>
    rw [parse_flag harg, hflag]
    simp only [useFlag, hvalidator]
    rfl
  | inside harg hflag hvalidator hval =>
    rw [parse_flag harg, hflag]
    simp only [useFlag, hvalidator, hval.error]
    rfl
  | behind harg hflag hvalidator hval =>
    rw [parse_flag harg, hflag]
    simp only [useFlag, hvalidator, hval.error]
    rfl
  | extraPositional harg hignore hpos =>
    rw [parse_positional harg hignore, List.getElem?_eq_none hpos]
    rfl
  | positional harg hignore hpos hvalidator hval =>
    rw [parse_positional harg hignore, hpos]
    simp only [CmdPositional.parse, hvalidator, hval.error]
    rfl
  | next hitem _ ih => rw [hitem.parse, ih]

theorem filterMap_modify {α β : Type} {g : α → Option β} (h : α → α) (hkeeps : ∀ a, g (h a) = g a) (l : List α) (i : Nat) :
    (l.modify i h).filterMap g = l.filterMap g := by
  induction l generalizing i with
  | nil => rw [List.modify_nil]
  | cons a l ih =>
    cases i with
    | zero => rw [List.modify_zero_cons, List.filterMap_cons, List.filterMap_cons, hkeeps]
    | succ i => rw [List.modify_succ_cons, List.filterMap_cons, List.filterMap_cons, ih]

/-- The values change, but no validator does. -/
theorem Takes.validators (h : Takes s npos item s₁ npos₁) : s₁.validators = s.validators := by
  have hflag (i : Nat) (x : CmdFlagValue) : (s.setFlag i x).validators = s.validators := by
    have hkeeps (l : List CmdFlag) (i : Nat) :
        (l.modify i ({ · with val := x })).filterMap CmdFlag.validator = l.filterMap CmdFlag.validator := by
      refine filterMap_modify _ (fun flag => ?_) l i
      rfl
    simp only [CmdState.validators, flags, setFlag, List.filterMap_append]
    split_ifs
    · exact congrArg (· ++ _ ++ _) (hkeeps s.globals i)
    · exact congrArg (_ ++ · ++ _) (hkeeps s.args _)
  cases h with
  | switch => exact hflag _ _
  | inside => exact hflag _ _
  | behind => exact hflag _ _
  | @positional arg pos x =>
    have hkeeps : (s.setPos npos x).pos.filterMap CmdPositional.validator = s.pos.filterMap CmdPositional.validator := by
      refine filterMap_modify _ (fun pos => ?_) s.pos npos
      rfl
    exact congrArg (_ ++ ·) hkeeps

theorem mem_validators {i : Nat} {flag : CmdFlag} {val : Option Text} (hflag : s.flagOf arg = (some (i, flag), val))
    (hvalidator : flag.validator = some v) : v ∈ s.validators := by
  refine List.mem_append_left _ (List.mem_filterMap.mpr ⟨flag, ?_, hvalidator⟩)
  obtain ⟨j, -, hj⟩ := Option.bind_eq_some_iff.mp (Prod.mk.inj hflag).1
  obtain ⟨flag', hget, heq⟩ := Option.map_eq_some_iff.mp hj
  obtain rfl := (Prod.mk.inj heq).2
  exact List.mem_of_getElem? hget

theorem useFlag_error {flag : CmdFlag} {val : Option Text} (h : useFlag flag val argv = .error e) :
    (flag.validator = none ∧ (∃ w, val = some w) ∧ e = (CmdFailure.unexpectedValue flag.name).error) ∨
    ∃ v, flag.validator = some v ∧ ((val = none ∧ argv = [] ∧ e = (CmdFailure.noValue flag.name).error) ∨
      ∃ w, (val = some w ∨ val = none ∧ ∃ left, argv = w :: left) ∧ v w flag.name = .error e) := by
  cases hvalidator : flag.validator with
  | none =>
    cases val with
    | none =>
      simp only [useFlag, hvalidator] at h
      cases h
    | some w =>
      simp only [useFlag, hvalidator] at h
      exact .inl ⟨rfl, ⟨w, rfl⟩, (Except.error.inj h).symm⟩
  | some v =>
    refine .inr ⟨v, rfl, ?_⟩
    cases val with
    | some w =>
      simp only [useFlag, hvalidator] at h
      exact .inr ⟨w, .inl rfl, map_eq_error.mp h⟩
    | none =>
      cases argv with
      | nil =>
        simp only [useFlag, hvalidator] at h
        exact .inl ⟨rfl, rfl, (Except.error.inj h).symm⟩
      | cons w left =>
        simp only [useFlag, hvalidator] at h
        exact .inr ⟨w, .inr ⟨rfl, left, rfl⟩, map_eq_error.mp h⟩

/-- A pass with an error fails a check, or takes an item and has the error behind it. -/
theorem parse_error_step (hs : ∀ v ∈ s.validators, IsValidator n v)
    (h : cmdParseCommandArguments s npos (arg :: argv) = .error e) (hignore : cmdIsIgnoreArguments arg = false) :
    ((∃ f, FailsArgs n s npos (arg :: argv) f ∧ e = f.error) ∨ e.message.length ≤ 127) ∨
    ∃ item s₁ npos₁ argv₁, arg :: argv = item.words ++ argv₁ ∧ Takes s npos item s₁ npos₁ ∧
      cmdParseCommandArguments s₁ npos₁ argv₁ = .error e := by
  by_cases harg : IsFlag arg
  · rw [parse_flag harg] at h
    rcases hflag : s.flagOf arg with ⟨_ | ⟨i, flag⟩, val⟩
    · rw [hflag] at h
      exact .inl (.inl ⟨_, .unrecognized harg hflag, (Except.error.inj h).symm⟩)
    · rw [hflag] at h
      rcases bind_eq_error h with huse | ⟨⟨x, argv₁⟩, huse, hrest⟩
      · refine .inl ?_
        rcases useFlag_error huse with ⟨hvalidator, ⟨w, rfl⟩, rfl⟩ | ⟨v, hvalidator, ⟨rfl, rfl, rfl⟩ | ⟨w, hw, hval⟩⟩
        · exact .inl ⟨_, .unexpectedValue harg hflag hvalidator, rfl⟩
        · exact .inl ⟨_, .noValue harg hflag hvalidator, rfl⟩
        · refine ((hs v (mem_validators hflag hvalidator)).fails hval).imp_left ?_
          rintro ⟨f, hf, rfl⟩
          rcases hw with rfl | ⟨rfl, left, rfl⟩
          · exact ⟨f, .inside harg hflag hvalidator hf, rfl⟩
          · exact ⟨f, .behind harg hflag hvalidator hf, rfl⟩
      · obtain ⟨item, hwords, hitem⟩ := @useFlag_takes _ npos _ _ _ _ _ _ _ harg hflag huse
        exact .inr ⟨item, _, _, argv₁, hwords, hitem, hrest⟩
  · rw [parse_positional harg hignore] at h
    cases hpos : s.pos[npos]? with
    | none =>
      rw [hpos] at h
      exact .inl (.inl ⟨_, .extraPositional harg hignore (List.getElem?_eq_none_iff.mp hpos), (Except.error.inj h).symm⟩)
    | some pos =>
      rw [hpos] at h
      rcases bind_eq_error h with hval | ⟨x, hval, hrest⟩
      · refine .inl ?_
        cases hvalidator : pos.validator with
        | none =>
          rw [CmdPositional.parse, hvalidator] at hval
          cases hval
        | some v =>
          rw [CmdPositional.parse, hvalidator] at hval
          have hmem : v ∈ s.validators :=
            List.mem_append_right _ (List.mem_filterMap.mpr ⟨pos, List.mem_of_getElem? hpos, hvalidator⟩)
          refine ((hs v hmem).fails hval).imp_left ?_
          rintro ⟨f, hf, rfl⟩
          exact ⟨f, .positional harg hignore hpos hvalidator hf, rfl⟩
      · exact .inr ⟨.positional arg, _, _, argv, rfl, .positional harg hignore hpos hval, hrest⟩

theorem FailsArgs.of_error (hs : ∀ v ∈ s.validators, IsValidator n v) (h : cmdParseCommandArguments s npos argv = .error e) :
    (∃ f, FailsArgs n s npos argv f ∧ e = f.error) ∨ e.message.length ≤ 127 := by
  induction s, npos, argv using items_induction with
  | _ s npos argv ih =>
    cases argv with
    | nil =>
      rw [cmdParseCommandArguments] at h
      cases h
    | cons arg argv =>
      cases hignore : cmdIsIgnoreArguments arg with
      | true =>
        rw [parse_separator hignore] at h
        cases h
      | false =>
        rcases parse_error_step hs h hignore with hfails | ⟨item, s₁, npos₁, argv₁, hwords, hitem, hrest⟩
        · exact hfails
        · refine (ih item s₁ npos₁ argv₁ hwords hitem (hitem.validators ▸ hs) hrest).imp_left ?_
          rintro ⟨f, hf, rfl⟩
          rw [hwords]
          exact ⟨f, .next hitem hf, rfl⟩

/-- All arguments up to a `--` are taken. -/
inductive Accepts : CmdState → Nat → List Text → CmdState → Prop
  | nil {s : CmdState} {npos : Nat} : Accepts s npos [] s
  | dashes {s : CmdState} {npos : Nat} {arg : Text} {argv : List Text} (hignore : cmdIsIgnoreArguments arg = true) :
      Accepts s npos (arg :: argv) s
  | next {s s₁ s' : CmdState} {npos npos₁ : Nat} {item : CmdItem} {argv : List Text} (hitem : Takes s npos item s₁ npos₁)
      (h : Accepts s₁ npos₁ argv s') : Accepts s npos (item.words ++ argv) s'

theorem Accepts.parse (h : Accepts s npos argv s') : ∃ left, cmdParseCommandArguments s npos argv = .ok (s', left) := by
  induction h with
  | nil => exact ⟨_, cmdParseCommandArguments.eq_1 ..⟩
  | dashes hignore => exact ⟨_, parse_separator hignore⟩
  | next hitem _ ih => rwa [hitem.parse]

theorem Accepts.of_ok (h : cmdParseCommandArguments s npos argv = .ok (s', left)) : Accepts s npos argv s' := by
  induction s, npos, argv using items_induction with
  | _ s npos argv ih =>
    cases argv with
    | nil =>
      rw [cmdParseCommandArguments, Except.ok.injEq, Prod.mk.injEq] at h
      exact h.1 ▸ .nil
    | cons arg argv =>
      cases hignore : cmdIsIgnoreArguments arg with
      | true =>
        rw [parse_separator hignore, Except.ok.injEq, Prod.mk.injEq] at h
        exact h.1 ▸ .dashes hignore
      | false =>
        obtain ⟨item, s₁, npos₁, argv₁, hwords, hitem, hrest⟩ := parse_step h hignore
        rw [hwords]
        exact .next hitem (ih item s₁ npos₁ argv₁ hwords hitem hrest)

theorem Accepts.validators (h : Accepts s npos argv s') : s'.validators = s.validators := by
  induction h with
  | nil => rfl
  | dashes => rfl
  | next hitem _ ih => exact ih.trans hitem.validators

/-! ### Flags and positionals without a value -/

/-- A value is missing, or the default for it does not pass the check. -/
inductive FailsDefault (n : CmdNumbers) (val : CmdFlagValue) (validator : Option CmdValidator) (default name : Option Text)
    (missing : CmdFailure) : CmdFailure → Prop
  | missing {v : CmdValidator} (hval : val = .cmdNoValue) (hvalidator : validator = some v) (hdefault : default = none) :
      FailsDefault n val validator default name missing missing
  | default {v : CmdValidator} {str : Text} {f : CmdFailure} (hval : val = .cmdNoValue) (hvalidator : validator = some v)
      (hdefault : default = some str) (hne : str ≠ []) (h : FailsValue n v str name f) :
      FailsDefault n val validator default name missing f

abbrev FailsFlag (n : CmdNumbers) (cmd : Option Text) (flag : CmdFlag) : CmdFailure → Prop :=
  FailsDefault n flag.val flag.validator flag.default flag.name (.noFlag flag.name cmd)

abbrev FailsPositional (n : CmdNumbers) (cmd : Option Text) (i : Nat) (pos : CmdPositional) : CmdFailure → Prop :=
  FailsDefault n pos.val pos.validator pos.default pos.name (.noPositional i pos.name cmd)

/-- The first of the flags, and then of the positionals, that fails. -/
inductive FailsRequired (n : CmdNumbers) (cmd : Option Text) (s : CmdState) : CmdFailure → Prop
  | flag {before after : List CmdFlag} {flag : CmdFlag} {f : CmdFailure} (hargs : s.args = before ++ flag :: after)
      (hbefore : ∀ b ∈ before, ∃ b', b.require cmd = .ok b') (h : FailsFlag n cmd flag f) : FailsRequired n cmd s f
  | positional {before after : List (CmdPositional × Nat)} {pos : CmdPositional} {i : Nat} {f : CmdFailure}
      (hargs : ∃ args, s.args.mapM (·.require cmd) = .ok args) (hpos : s.pos.zipIdx = before ++ (pos, i) :: after)
      (hbefore : ∀ b ∈ before, ∃ b', b.1.require cmd b.2 = .ok b') (h : FailsPositional n cmd i pos f) :
      FailsRequired n cmd s f

variable {cmd : Option Text} {val optional : CmdFlagValue} {validator : Option CmdValidator} {default : Option Text}
  {missing : CmdFailure}

theorem FailsDefault.error (h : FailsDefault n val validator default name missing f) :
    requireValue val validator default name optional missing.error = .error f.error := by
  cases h with
  | missing hval hvalidator hdefault =>
    rw [requireValue.eq_def, if_neg (not_not.mpr hval)]
    simp only [hvalidator, hdefault]
  | default hval hvalidator hdefault hne h =>
    rw [requireValue.eq_def, if_neg (not_not.mpr hval)]
    simp only [hvalidator, hdefault, if_neg hne, h.error]

theorem FailsDefault.of_error (hv : ∀ v, validator = some v → IsValidator n v)
    (h : requireValue val validator default name optional missing.error = .error e) :
    (∃ f, FailsDefault n val validator default name missing f ∧ e = f.error) ∨ e.message.length ≤ 127 := by
  by_cases hval : val = .cmdNoValue
  · rw [requireValue.eq_def, if_neg (not_not.mpr hval)] at h
    cases validator with
    | none => cases h
    | some v =>
      cases default with
      | none => exact .inl ⟨_, .missing hval rfl rfl, (Except.error.inj h).symm⟩
      | some str =>
        by_cases hne : str = []
        · simp only [if_pos hne] at h
          cases h
        · simp only [if_neg hne] at h
          refine ((hv v rfl).fails h).imp_left ?_
          rintro ⟨f, hf, rfl⟩
          exact ⟨f, .default hval rfl rfl hne hf, rfl⟩
  · rw [requireValue.eq_def, if_pos hval] at h
    cases h

theorem require_flag {flag : CmdFlag} : flag.require cmd = .error e ↔
    requireValue flag.val flag.validator flag.default flag.name (.cmdNumber 0) (CmdFailure.noFlag flag.name cmd).error =
      .error e := map_eq_error

theorem require_positional {pos : CmdPositional} {i : Nat} : pos.require cmd i = .error e ↔
    requireValue pos.val pos.validator pos.default pos.name .cmdNoValue (CmdFailure.noPositional i pos.name cmd).error =
      .error e := map_eq_error

theorem FailsRequired.error (h : FailsRequired n cmd s f) : s.require cmd = .error f.error := by
  cases h with
  | flag hargs hbefore h =>
    have hfails := mapM_eq_error.mpr ⟨_, _, _, hargs, hbefore, require_flag.mpr h.error⟩
    rw [CmdState.require, hfails]
    rfl
  | positional hargs hpos hbefore h =>
    obtain ⟨args, hargs⟩ := hargs
    have hfails : (s.pos.zipIdx.mapM fun p => p.1.require cmd p.2) = .error f.error :=
      mapM_eq_error.mpr ⟨_, _, _, hpos, hbefore, require_positional.mpr h.error⟩
    rw [CmdState.require, hargs, hfails]
    rfl

theorem FailsRequired.of_error (hs : ∀ v ∈ s.validators, IsValidator n v) (h : s.require cmd = .error e) :
    (∃ f, FailsRequired n cmd s f ∧ e = f.error) ∨ e.message.length ≤ 127 := by
  rcases bind_eq_error h with hargs | ⟨args, hargs, h⟩
  · obtain ⟨before, flag, after, hsplit, hbefore, herror⟩ := mapM_eq_error.mp hargs
    have hmem : flag ∈ s.flags := List.mem_append_right _ (hsplit ▸ List.mem_append_right _ List.mem_cons_self)
    refine (FailsDefault.of_error (fun v hv => hs v ?_) (require_flag.mp herror)).imp_left ?_
    · exact List.mem_append_left _ (List.mem_filterMap.mpr ⟨flag, hmem, hv⟩)
    · rintro ⟨f, hf, rfl⟩
      exact ⟨f, .flag hsplit hbefore hf, rfl⟩
  · rcases bind_eq_error h with hpos | ⟨pos, -, h⟩
    · obtain ⟨before, ⟨pos, i⟩, after, hsplit, hbefore, herror⟩ := mapM_eq_error.mp hpos
      have hmem : pos ∈ s.pos := by
        have hzip : (pos, i) ∈ s.pos.zipIdx := hsplit ▸ List.mem_append_right _ List.mem_cons_self
        exact List.fst_mem_of_mem_zipIdx hzip
      refine (FailsDefault.of_error (fun v hv => hs v ?_) (require_positional.mp herror)).imp_left ?_
      · exact List.mem_append_right _ (List.mem_filterMap.mpr ⟨pos, hmem, hv⟩)
      · rintro ⟨f, hf, rfl⟩
        exact ⟨f, .positional ⟨args, hargs⟩ hsplit hbefore hf, rfl⟩
    · cases h

end CmdState

/-! ### The whole parser -/

namespace CmdParser

/-- The validators of a table. -/
def validators (P : CmdParser) : List CmdValidator :=
  P.args.filterMap CmdFlag.validator ++
    P.cmds.flatMap fun cmd => cmd.args.filterMap CmdFlag.validator ++ cmd.pos.filterMap CmdPositional.validator

/-- The flags and positionals for a command. -/
abbrev stateOf (P : CmdParser) (cmd : CmdCommand) : CmdState := ⟨P.args, cmd.args, cmd.pos⟩

/-- The first check that fails: there is no command, an argument of the command is refused, or after its arguments a flag
    or a positional is. -/
inductive FailsCommand (n : CmdNumbers) (P : CmdParser) (argv : List Text) : CmdFailure → Prop
  | noCommand {P₁ : CmdParser} {i : Option Nat} {choseDef : Bool} {left : List Text} (hP : P.prepare = some P₁)
      (hchoose : P₁.chooseCommand argv = (i, choseDef, left)) (hcmd : i.bind (P₁.cmds[·]?) = none) :
      FailsCommand n P argv .noCommand
  | args {P₁ : CmdParser} {i : Option Nat} {choseDef : Bool} {left : List Text} {cmd : CmdCommand} {f : CmdFailure}
      (hP : P.prepare = some P₁) (hchoose : P₁.chooseCommand argv = (i, choseDef, left))
      (hcmd : i.bind (P₁.cmds[·]?) = some cmd) (h : CmdState.FailsArgs n (P₁.stateOf cmd) 0 left f) :
      FailsCommand n P argv f
  | required {P₁ : CmdParser} {i : Option Nat} {choseDef : Bool} {left : List Text} {cmd : CmdCommand} {s : CmdState}
      {f : CmdFailure} (hP : P.prepare = some P₁) (hchoose : P₁.chooseCommand argv = (i, choseDef, left))
      (hcmd : i.bind (P₁.cmds[·]?) = some cmd) (haccepts : CmdState.Accepts (P₁.stateOf cmd) 0 left s)
      (hbuiltins : P₁.cmdHandleBuiltins s cmd.name choseDef = none) (h : CmdState.FailsRequired n cmd.name s f) :
      FailsCommand n P argv f

variable {P P₁ : CmdParser} {argv : List Text} {cmd : CmdCommand} {choseDef : Bool}

theorem FailsCommand.error (h : FailsCommand n P argv f) : P.parseCommandLineArguments_ argv = .error f.error := by
  cases h with
  | noCommand hP hchoose hcmd =>
    simp only [parseCommandLineArguments_, hP, hchoose, hcmd]
    rfl
  | args hP hchoose hcmd h => simp only [parseCommandLineArguments_, hP, hchoose, hcmd, runCommand, h.error]
  | required hP hchoose hcmd haccepts hbuiltins h =>
    obtain ⟨left, hparse⟩ := haccepts.parse
    simp only [parseCommandLineArguments_, hP, hchoose, hcmd, runCommand, hparse, hbuiltins, h.error]

/-- The values are reset, but no validator changes. -/
theorem validators_prepare (hP : P.prepare = some P₁) (hcmd : cmd ∈ P₁.cmds) :
    ∀ v ∈ (P₁.stateOf cmd).validators, v ∈ P.validators := by
  rw [prepare] at hP
  split at hP
  · obtain ⟨cmds, hcmds, hP⟩ := Option.bind_eq_some_iff.mp hP
    obtain rfl := Option.some.inj hP
    obtain ⟨c, hc, hinit⟩ := exists_of_mem_mapM hcmds hcmd
    rw [vmInitializeCommand] at hinit
    split at hinit
    · obtain rfl := Option.some.inj hinit
      have hreset (args : List CmdFlag) :
          (cmdResetFlags args).filterMap CmdFlag.validator = args.filterMap CmdFlag.validator := by
        rw [cmdResetFlags, List.filterMap_map]
        rfl
      have hpos : (c.pos.map ({ · with val := .cmdNoValue })).filterMap CmdPositional.validator =
          c.pos.filterMap CmdPositional.validator := by
        rw [List.filterMap_map]
        rfl
      intro v hv
      simp only [CmdState.validators, CmdState.flags, List.filterMap_append, hreset, hpos] at hv
      rw [List.append_assoc] at hv
      exact List.mem_append.mpr ((List.mem_append.mp hv).imp_right fun hv => List.mem_flatMap.mpr ⟨c, hc, hv⟩)
    · cases hinit
  · cases hP

theorem cmdHandleBuiltins_ne_error {s : CmdState} : P.cmdHandleBuiltins s name choseDef ≠ some (.error e) := by
  rw [cmdHandleBuiltins]
  split_ifs <;> nofun

/-- With a command, the arguments are refused, or they are taken and a flag or a positional is refused after them. -/
theorem runCommand_error {left : List Text} (hs : ∀ v ∈ (P.stateOf cmd).validators, IsValidator n v)
    (h : P.runCommand cmd choseDef left = .error e) :
    (∃ f, CmdState.FailsArgs n (P.stateOf cmd) 0 left f ∧ e = f.error) ∨
    (∃ s f, CmdState.Accepts (P.stateOf cmd) 0 left s ∧ P.cmdHandleBuiltins s cmd.name choseDef = none ∧
      CmdState.FailsRequired n cmd.name s f ∧ e = f.error) ∨ e.message.length ≤ 127 := by
  rw [runCommand] at h
  cases hparse : cmdParseCommandArguments (P.stateOf cmd) 0 left with
  | error e' =>
    simp only [hparse] at h
    obtain rfl := CmdResult.error.inj h
    exact (CmdState.FailsArgs.of_error hs hparse).imp_right .inr
  | ok r =>
    obtain ⟨s, argv'⟩ := r
    have haccepts := CmdState.Accepts.of_ok hparse
    simp only [hparse] at h
    cases hbuiltins : P.cmdHandleBuiltins s cmd.name choseDef with
    | some res =>
      simp only [hbuiltins] at h
      exact absurd (hbuiltins.trans (congrArg some h)) cmdHandleBuiltins_ne_error
    | none =>
      simp only [hbuiltins] at h
      cases hrequire : s.require cmd.name with
      | ok s' =>
        simp only [hrequire] at h
        cases h
      | error e' =>
        simp only [hrequire] at h
        obtain rfl := CmdResult.error.inj h
        refine .inr ((CmdState.FailsRequired.of_error (haccepts.validators ▸ hs) hrequire).imp_left ?_)
        rintro ⟨f, hf, rfl⟩
        exact ⟨s, f, haccepts, hbuiltins, hf, rfl⟩

theorem FailsCommand.of_error (hv : ∀ v ∈ P.validators, IsValidator n v)
    (h : P.parseCommandLineArguments_ argv = .error e) :
    (∃ f, FailsCommand n P argv f ∧ e = f.error) ∨ e.message.length ≤ 127 := by
  rw [parseCommandLineArguments_] at h
  cases hP : P.prepare with
  | none =>
    rw [hP] at h
    cases h
  | some P₁ =>
    simp only [hP] at h
    rcases hchoose : P₁.chooseCommand argv with ⟨i, choseDef, left⟩
    simp only [hchoose] at h
    cases hcmd : i.bind (P₁.cmds[·]?) with
    | none =>
      simp only [hcmd] at h
      exact .inl ⟨_, .noCommand hP hchoose hcmd, (CmdResult.error.inj h).symm⟩
    | some cmd =>
      simp only [hcmd] at h
      obtain ⟨j, -, hj⟩ := Option.bind_eq_some_iff.mp hcmd
      have hs := fun v hmem => hv v (validators_prepare hP (List.mem_of_getElem? hj) v hmem)
      rcases runCommand_error hs h with ⟨f, hf, rfl⟩ | ⟨s, f, haccepts, hbuiltins, hf, rfl⟩ | hfits
      · exact .inl ⟨f, .args hP hchoose hcmd hf, rfl⟩
      · exact .inl ⟨f, .required hP hchoose hcmd haccepts hbuiltins hf, rfl⟩
      · exact .inr hfits

end CmdParser

/-- Whatever a validator, the loop over the arguments or the whole parser is given, its message has at most 127 characters
    if and only if the first check that fails quotes no more than the rest of its message leaves room for. -/
theorem messages_fit_iff (n : CmdNumbers) :
    (∀ v, IsValidator n v → ∀ str name, (∀ e, v str name = .error e → e.message.length ≤ 127) ↔
      ∀ f, FailsValue n v str name f → f.quoted ≤ f.room) ∧
    (∀ bitFlags str name, (∀ e, Yields (cmdParseBitFlags bitFlags str name) (.error e) → e.message.length ≤ 127) ↔
      ∀ w t, Unsupported bitFlags str w t →
        (CmdFailure.notBitFlag (BitVec.ofNat 32 w.length) t name).quoted ≤
          (CmdFailure.notBitFlag (BitVec.ofNat 32 w.length) t name).room) ∧
    (∀ (s : CmdState), (∀ v ∈ s.validators, IsValidator n v) → ∀ npos argv,
      (∀ e, cmdParseCommandArguments s npos argv = .error e → e.message.length ≤ 127) ↔
        ∀ f, CmdState.FailsArgs n s npos argv f → f.quoted ≤ f.room) ∧
    (∀ (P : CmdParser), (∀ v ∈ P.validators, IsValidator n v) → ∀ argv,
      (∀ e, P.parseCommandLineArguments_ argv = .error e → e.message.length ≤ 127) ↔
        ∀ f, CmdParser.FailsCommand n P argv f → f.quoted ≤ f.room) := by
  refine ⟨fun v hv str name => ?_, fun bitFlags str name => ?_, fun s hs npos argv => ?_, fun P hv argv => ?_⟩
  · exact fit_iff_room (fun _ h => h.error) fun _ h => hv.fails h
  · constructor
    · intro h w t hbad
      exact (message_length _).mp (h _ (cmdParseBitFlags_error.mpr ⟨w, t, hbad, rfl⟩))
    · intro h e he
      obtain ⟨w, t, hbad, rfl⟩ := cmdParseBitFlags_error.mp he
      exact (message_length (.notBitFlag (BitVec.ofNat 32 w.length) t name)).mpr (h w t hbad)
  · exact fit_iff_room (fun _ h => h.error) fun _ h => CmdState.FailsArgs.of_error hs h
  · exact fit_iff_room (fun _ h => h.error) fun _ h => CmdParser.FailsCommand.of_error hv h

end

/-- The flags that each parser has, and a default command with some flags. -/
def parserWith (args : List CmdFlag) : CmdParser where
  name := some (ascii ['c', 'y', 'n'])
  version := some (ascii ['1'])
  default := some 0
  cmds := [⟨some (ascii ['r', 'u', 'n']), 0, args, []⟩]
  args := [{ name := some (ascii ['v', 'e', 'r', 's', 'i', 'o', 'n']), sf := chr 'v' },
    { name := some (ascii ['h', 'e', 'l', 'p']), sf := chr 'h' }]

/-- The message for `-tx`, where `t` takes a boolean, fits. -/
theorem messages_fit_iff_boolean : ∃ (n : CmdNumbers) (P : CmdParser) (argv : List Text) (e : CmdError),
    P.parseCommandLineArguments_ argv = .error e ∧ (∀ v ∈ P.validators, IsValidator n v) ∧
      (∀ f, CmdParser.FailsCommand n P argv f → f.quoted ≤ f.room) := by
  let n : CmdNumbers := ⟨fun _ => ⟨0, false, 0⟩, id, id, fun a _ => a, false⟩
  let flag : CmdFlag := { name := some (ascii ['t', 'a', 'g']), sf := chr 't', validator := some cmdParseBoolean }
  have hrun : (parserWith [flag]).parseCommandLineArguments_ [ascii ['-', 't', 'x']] =
      .error (CmdFailure.notBoolean (ascii ['x']) (some (ascii ['t', 'a', 'g']))).error := rfl
  have hv : ∀ v ∈ (parserWith [flag]).validators, IsValidator n v := by
    intro v hv
    obtain rfl : v = cmdParseBoolean := List.mem_singleton.mp hv
    exact .boolean
  refine ⟨n, _, _, _, hrun, hv, ((messages_fit_iff n).2.2.2 _ hv _).mp fun e he => ?_⟩
  obtain rfl := CmdResult.error.inj (hrun.symm.trans he)
  exact (message_length _).mpr (by decide)

/-- An argument of more than 87 characters that no flag has does not fit. -/
theorem not_messages_fit : ∃ (P : CmdParser) (argv : List Text) (e : CmdError),
    P.parseCommandLineArguments_ argv = .error e ∧ 127 < e.message.length := by
  let arg : Text := chr '-' :: chr '-' :: List.replicate 86 (chr 'a')
  have hrun : (parserWith []).parseCommandLineArguments_ [arg] = .error (CmdFailure.unrecognized arg).error := rfl
  refine ⟨_, _, _, hrun, not_le.mp fun hfits => ?_⟩
  have hroom : arg.length ≤ 87 := (message_length (.unrecognized arg)).mp hfits
  exact absurd hroom (by decide)

end Cyntatic
