import Cyntatic.Library.Fallible
import Cyntatic.Util.Args

/-! # Command line arguments are taken apart from left to right

What the loop of `cmdParseCommandArguments` makes of each argument, and which flag a long argument goes to. -/

namespace Cyntatic
open Library

namespace CmdState
variable {s : CmdState} {npos : Nat} {arg : Text} {argv : List Text}

/-! ### One argument -/

/-- What a flag makes of the value in its argument and the arguments after it: its new value, and the arguments that
    are left. -/
def useFlag (flag : CmdFlag) (val : Option Text) (argv : List Text) : Except CmdError (CmdFlagValue × List Text) :=
  match flag.validator, val, argv with
  | some validator, some val, argv => (validator val flag.name).map fun v => (v, argv)
  | some validator, none, val :: argv => (validator val flag.name).map fun v => (v, argv)
  | some _, none, [] => .error ⟨"error: command flag '%s' expects a value\n", [.text flag.name]⟩
  | none, some _, _ => .error ⟨"error: unexpected value passed to flag '%s'\n", [.text flag.name]⟩
  | none, none, argv => .ok (.cmdNumber 1, argv)

/-- A flag takes no value, or the one in its argument, or else the argument after it. -/
theorem useFlag_ok {flag : CmdFlag} {val : Option Text} {v : CmdFlagValue} {left : List Text}
    (h : useFlag flag val argv = .ok (v, left)) :
    (flag.validator = none ∧ val = none ∧ v = .cmdNumber 1 ∧ left = argv) ∨
    (∃ validator w, flag.validator = some validator ∧ val = some w ∧ validator w flag.name = .ok v ∧ left = argv) ∨
    ∃ validator w, flag.validator = some validator ∧ val = none ∧ validator w flag.name = .ok v ∧ argv = w :: left := by
  cases hvalidator : flag.validator with
  | none =>
    cases val with
    | none =>
      simp only [useFlag, hvalidator] at h
      obtain ⟨rfl, rfl⟩ := Prod.mk.inj (Except.ok.inj h)
      exact .inl ⟨rfl, rfl, rfl, rfl⟩
    | some w =>
      simp only [useFlag, hvalidator] at h
      cases h
  | some validator =>
    cases val with
    | some w =>
      simp only [useFlag, hvalidator] at h
      obtain ⟨_, hval, heq⟩ := map_eq_ok h
      obtain ⟨rfl, rfl⟩ := Prod.mk.inj heq
      exact .inr (.inl ⟨validator, w, rfl, rfl, hval, rfl⟩)
    | none =>
      cases argv with
      | nil =>
        simp only [useFlag, hvalidator] at h
        cases h
      | cons w argv =>
        simp only [useFlag, hvalidator] at h
        obtain ⟨_, hval, heq⟩ := map_eq_ok h
        obtain ⟨rfl, rfl⟩ := Prod.mk.inj heq
        exact .inr (.inr ⟨validator, w, rfl, rfl, hval, rfl⟩)

/-- An argument that names a flag. -/
abbrev IsFlag (arg : Text) : Prop := cmdIsShortFlag arg = true ∨ cmdIsLongFlag arg = true

theorem IsFlag.not_ignore (h : IsFlag arg) : cmdIsIgnoreArguments arg = false := by
  rw [cmdIsIgnoreArguments, decide_eq_false_iff_not]
  rintro ⟨-, h1, h2⟩
  rcases h with h | h
  · rw [cmdIsShortFlag, decide_eq_true_iff] at h
    exact h.2.1 h1
  · rw [cmdIsLongFlag, decide_eq_true_iff] at h
    exact h.2.2 h2

theorem parse_flag (h : IsFlag arg) : cmdParseCommandArguments s npos (arg :: argv) =
    match s.flagOf arg with
    | (none, _) => .error ⟨"error: unrecognized command argument '%s'\n", [.text arg]⟩
    | (some (i, flag), val) => (useFlag flag val argv).bind fun r => cmdParseCommandArguments (s.setFlag i r.1) npos r.2 := by
  rw [cmdParseCommandArguments, h.not_ignore, if_neg (by simp), if_pos h]
  rcases s.flagOf arg with ⟨_ | ⟨i, flag⟩, val⟩
  · rfl
  · dsimp only
    cases hv : flag.validator with
    | none => cases val <;> cases argv <;> simp [useFlag, hv, Except.bind]
    | some validator =>
      cases val with
      | some val => cases h : validator val flag.name <;> simp [useFlag, hv, h, Except.bind, Except.map, bind]
      | none =>
        cases argv with
        | nil => simp [useFlag, hv, Except.bind]
        | cons val argv => cases h : validator val flag.name <;> simp [useFlag, hv, h, Except.bind, Except.map, bind]

theorem parse_positional (hflag : ¬IsFlag arg) (hignore : cmdIsIgnoreArguments arg = false) :
    cmdParseCommandArguments s npos (arg :: argv) =
      match s.pos[npos]? with
      | none => .error ⟨"error: unexpected number of positional arguments passed, expecting %u\n", [.number s.pos.length]⟩
      | some pos => (pos.parse arg).bind fun v => cmdParseCommandArguments (s.setPos npos v) (npos + 1) argv := by
  rw [cmdParseCommandArguments, hignore, if_neg (by simp), if_neg hflag]
  rfl

theorem parse_separator (h : cmdIsIgnoreArguments arg = true) :
    cmdParseCommandArguments s npos (arg :: argv) = .ok (s, argv) := by
  rw [cmdParseCommandArguments, if_pos h]

/-! ### The whole of `argv` -/

end CmdState

/-- What the loop takes from `argv` at a time: a flag without a value of its own in `argv`, a flag and the value after
    it, or a positional. -/
inductive CmdItem where
  | flag (arg : Text)
  | valueFlag (arg val : Text)
  | positional (arg : Text)

namespace CmdItem

/-- The first element of an item. -/
def arg : CmdItem → Text
  | flag arg => arg
  | valueFlag arg _ => arg
  | positional arg => arg

/-- The elements of an item. -/
def words : CmdItem → List Text
  | flag arg => [arg]
  | valueFlag arg val => [arg, val]
  | positional arg => [arg]

end CmdItem

namespace CmdState

/-- What an item does: a flag gets a value, or the next positional does. -/
inductive Takes (s : CmdState) (npos : Nat) : CmdItem → CmdState → Nat → Prop
  | switch {arg : Text} {i : Nat} {flag : CmdFlag} (harg : IsFlag arg) (hflag : s.flagOf arg = (some (i, flag), none))
      (hvalidator : flag.validator = none) : Takes s npos (.flag arg) (s.setFlag i (.cmdNumber 1)) npos
  | inside {arg val : Text} {i : Nat} {flag : CmdFlag} {validator : CmdValidator} {v : CmdFlagValue} (harg : IsFlag arg)
      (hflag : s.flagOf arg = (some (i, flag), some val)) (hvalidator : flag.validator = some validator)
      (hval : validator val flag.name = .ok v) : Takes s npos (.flag arg) (s.setFlag i v) npos
  | behind {arg val : Text} {i : Nat} {flag : CmdFlag} {validator : CmdValidator} {v : CmdFlagValue} (harg : IsFlag arg)
      (hflag : s.flagOf arg = (some (i, flag), none)) (hvalidator : flag.validator = some validator)
      (hval : validator val flag.name = .ok v) : Takes s npos (.valueFlag arg val) (s.setFlag i v) npos
  | positional {arg : Text} {pos : CmdPositional} {v : CmdFlagValue} (harg : ¬IsFlag arg)
      (hignore : cmdIsIgnoreArguments arg = false) (hpos : s.pos[npos]? = some pos) (hval : pos.parse arg = .ok v) :
      Takes s npos (.positional arg) (s.setPos npos v) (npos + 1)

/-- What some items do, one after the other. -/
inductive TakesAll : CmdState → Nat → List CmdItem → CmdState → Nat → Prop
  | nil {s : CmdState} {npos : Nat} : TakesAll s npos [] s npos
  | cons {s s₁ s' : CmdState} {npos npos₁ npos' : Nat} {item : CmdItem} {items : List CmdItem}
      (hitem : Takes s npos item s₁ npos₁) (hitems : TakesAll s₁ npos₁ items s' npos') :
      TakesAll s npos (item :: items) s' npos'

variable {s s' : CmdState} {npos npos' : Nat} {arg : Text} {argv left : List Text} {item : CmdItem} {items : List CmdItem}

theorem Takes.not_ignore (h : Takes s npos item s' npos') : cmdIsIgnoreArguments item.arg = false := by
  cases h with
  | switch harg => exact harg.not_ignore
  | inside harg => exact harg.not_ignore
  | behind harg => exact harg.not_ignore
  | positional _ hignore => exact hignore

theorem TakesAll.not_ignore (h : TakesAll s npos items s' npos') :
    ∀ item ∈ items, cmdIsIgnoreArguments item.arg = false := by
  induction h with
  | nil => exact fun _ hmem => absurd hmem List.not_mem_nil
  | cons hitem _ ih => exact List.forall_mem_cons.mpr ⟨hitem.not_ignore, ih⟩

/-- A pass that takes an item goes on behind it. -/
theorem Takes.parse (h : Takes s npos item s' npos') :
    cmdParseCommandArguments s npos (item.words ++ argv) = cmdParseCommandArguments s' npos' argv := by
  cases h with
  | @switch arg i flag harg hflag hvalidator =>
    have huse : useFlag flag none argv = .ok (.cmdNumber 1, argv) := by simp only [useFlag, hvalidator]
    rw [CmdItem.words, List.singleton_append, parse_flag harg, hflag]
    simp only [huse, Except.bind]
  | @inside arg val i flag validator v harg hflag hvalidator hval =>
    have huse : useFlag flag (some val) argv = .ok (v, argv) := by simp only [useFlag, hvalidator, hval, Except.map]
    rw [CmdItem.words, List.singleton_append, parse_flag harg, hflag]
    simp only [huse, Except.bind]
  | @behind arg val i flag validator v harg hflag hvalidator hval =>
    have huse : useFlag flag none (val :: argv) = .ok (v, argv) := by simp only [useFlag, hvalidator, hval, Except.map]
    rw [CmdItem.words, List.cons_append, List.singleton_append, parse_flag harg, hflag]
    simp only [huse, Except.bind]
  | positional harg hignore hpos hval =>
    rw [CmdItem.words, List.singleton_append, parse_positional harg hignore, hpos]
    simp only [hval, Except.bind]

/-- A pass that goes on behind a flag has taken it. -/
theorem useFlag_takes {i : Nat} {flag : CmdFlag} {val : Option Text} {x : CmdFlagValue} (harg : IsFlag arg)
    (hflag : s.flagOf arg = (some (i, flag), val)) (huse : useFlag flag val argv = .ok (x, left)) :
    ∃ item, arg :: argv = item.words ++ left ∧ Takes s npos item (s.setFlag i x) npos := by
  rcases useFlag_ok huse with ⟨hvalidator, rfl, rfl, rfl⟩ | ⟨validator, w, hvalidator, rfl, hval, rfl⟩ |
    ⟨validator, w, hvalidator, rfl, hval, rfl⟩
  · exact ⟨.flag arg, rfl, .switch harg hflag hvalidator⟩
  · exact ⟨.flag arg, rfl, .inside harg hflag hvalidator hval⟩
  · exact ⟨.valueFlag arg w, rfl, .behind harg hflag hvalidator hval⟩

/-- A pass that goes on has taken an item. -/
theorem parse_step (h : cmdParseCommandArguments s npos (arg :: argv) = .ok (s', left))
    (hignore : cmdIsIgnoreArguments arg = false) :
    ∃ item s₁ npos₁ argv₁, arg :: argv = item.words ++ argv₁ ∧ Takes s npos item s₁ npos₁ ∧
      cmdParseCommandArguments s₁ npos₁ argv₁ = .ok (s', left) := by
  by_cases harg : IsFlag arg
  · rw [parse_flag harg] at h
    rcases hflag : s.flagOf arg with ⟨_ | ⟨i, flag⟩, val⟩
    · rw [hflag] at h
      cases h
    · rw [hflag] at h
      obtain ⟨⟨v, argv₁⟩, huse, hrest⟩ := bind_eq_ok h
      obtain ⟨item, hwords, hitem⟩ := @useFlag_takes _ npos _ _ _ _ _ _ _ harg hflag huse
      exact ⟨item, _, _, argv₁, hwords, hitem, hrest⟩
  · rw [parse_positional harg hignore] at h
    cases hpos : s.pos[npos]? with
    | none =>
      rw [hpos] at h
      cases h
    | some pos =>
      rw [hpos] at h
      obtain ⟨v, hval, hrest⟩ := bind_eq_ok h
      exact ⟨.positional arg, _, _, argv, rfl, .positional harg hignore hpos hval, hrest⟩

/-- An item takes one or two elements from `argv`: what holds before it where it holds behind it, holds everywhere. -/
theorem items_induction {C : CmdState → Nat → List Text → Prop}
    (h : ∀ s npos argv, (∀ item s₁ npos₁ argv₁, argv = item.words ++ argv₁ → Takes s npos item s₁ npos₁ → C s₁ npos₁ argv₁) →
      C s npos argv) (s : CmdState) (npos : Nat) (argv : List Text) : C s npos argv := by
  induction hn : argv.length using Nat.strong_induction_on generalizing s npos argv with
  | _ n ih =>
    refine h s npos argv fun item s₁ npos₁ argv₁ hwords _ => ih argv₁.length ?_ s₁ npos₁ argv₁ rfl
    have hlen := congrArg List.length hwords
    rw [List.length_append] at hlen
    have hpos : 0 < item.words.length := by cases item <;> simp [CmdItem.words]
    omega

/-- Where `argv` is accepted, its elements are those of some items, each taken in its turn, and then those that are left
    for the program, behind the first `--` that is not the value of a flag. -/
theorem parse_partition (h : cmdParseCommandArguments s npos argv = .ok (s', left)) :
    ∃ items npos' sep, argv = items.flatMap CmdItem.words ++ sep ++ left ∧ TakesAll s npos items s' npos' ∧
      (∀ item ∈ items, cmdIsIgnoreArguments item.arg = false) ∧
      ((∃ dashes, sep = [dashes] ∧ cmdIsIgnoreArguments dashes = true) ∨ (sep = [] ∧ left = [])) := by
  induction s, npos, argv using items_induction with
  | _ s npos argv ih =>
    cases argv with
    | nil =>
      rw [cmdParseCommandArguments, Except.ok.injEq, Prod.mk.injEq] at h
      obtain ⟨rfl, rfl⟩ := h
      exact ⟨[], npos, [], rfl, .nil, by simp, .inr ⟨rfl, rfl⟩⟩
    | cons arg argv =>
      cases hignore : cmdIsIgnoreArguments arg with
      | true =>
        rw [parse_separator hignore, Except.ok.injEq, Prod.mk.injEq] at h
        obtain ⟨rfl, rfl⟩ := h
        exact ⟨[], npos, [arg], rfl, .nil, by simp, .inl ⟨arg, rfl, hignore⟩⟩
      | false =>
        obtain ⟨item, s₁, npos₁, argv₁, hwords, hitem, hrest⟩ := parse_step h hignore
        obtain ⟨items, npos', sep, hargv₁, hitems, hnot, hsep⟩ := ih item s₁ npos₁ argv₁ hwords hitem hrest
        refine ⟨item :: items, npos', sep, ?_, .cons hitem hitems,
          List.forall_mem_cons.mpr ⟨hitem.not_ignore, hnot⟩, hsep⟩
        rw [hwords, hargv₁, List.flatMap_cons, List.append_assoc, List.append_assoc, List.append_assoc]

/-- A flag whose value is a `--`, a positional, and a `--` before what is left. -/
theorem parse_partition_dashes : ∃ (s s' : CmdState) (argv : List Text),
    cmdParseCommandArguments s 0 argv = .ok (s', [ascii ['x']]) ∧
    argv = [ascii ['-', 'o'], ascii ['-', '-'], ascii ['f'], ascii ['-', '-'], ascii ['x']] ∧
    ∃ items npos' sep, argv = items.flatMap CmdItem.words ++ sep ++ [ascii ['x']] ∧ TakesAll s 0 items s' npos' ∧
      (∀ item ∈ items, cmdIsIgnoreArguments item.arg = false) ∧
      ((∃ dashes, sep = [dashes] ∧ cmdIsIgnoreArguments dashes = true) ∨ (sep = [] ∧ [ascii ['x']] = [])) := by
  let flag : CmdFlag := { name := some (ascii ['o', 'u', 't']), sf := chr 'o', validator := some cmdParseString }
  let pos : CmdPositional := { name := some (ascii ['i', 'n']) }
  have hrun : cmdParseCommandArguments ⟨[], [flag], [pos]⟩ 0
      [ascii ['-', 'o'], ascii ['-', '-'], ascii ['f'], ascii ['-', '-'], ascii ['x']] =
      .ok (⟨[], [{ flag with val := .cmdString (ascii ['-', '-']) }], [{ pos with val := .cmdString (ascii ['f']) }]⟩,
        [ascii ['x']]) := rfl
  exact ⟨_, _, _, hrun, rfl, parse_partition hrun⟩

/-! ### Long flags -/

/-- `--name` or `--name=value`. -/
def longArg (name : Text) (value : Option Text) : Text := chr '-' :: chr '-' :: (name ++ value.elim [] (chr '=' :: ·))

/-- A name with none of the characters that end it in an argument. -/
def Plain (name : Text) : Prop := ∀ c ∈ name, c ≠ 0 ∧ c ≠ chr '=' ∧ isSpace c = false

/-- The number of characters that are compared: those of the name, but one less where a value follows. -/
def comparedLength (name : Text) : Option Text → Nat
  | none => name.length % 2 ^ 32
  | some _ => (name.length + (2 ^ 32 - 1)) % 2 ^ 32

/-- The name of a flag has the characters that are compared. -/
def StartsLike (name : Text) (value : Option Text) (flag : CmdFlag) : Prop :=
  ∃ s, flag.name = some s ∧ s.take (comparedLength name value) =
    ((longArg name value).drop 2).take (comparedLength name value)

instance (name : Text) (value : Option Text) (flag : CmdFlag) : Decidable (StartsLike name value flag) :=
  match hname : flag.name with
  | none => .isFalse fun ⟨_, hs, _⟩ => by rw [hname] at hs; cases hs
  | some s =>
    decidable_of_iff (s.take (comparedLength name value) = ((longArg name value).drop 2).take (comparedLength name value))
      ⟨fun h => ⟨s, hname, h⟩, fun ⟨_, hs, h⟩ => by rw [hname] at hs; cases hs; exact h⟩

variable {name : Text} {value : Option Text}

theorem isFlag_longArg (hname : Plain name) (harg : name ≠ [] ∨ value ≠ none) :
    IsFlag (longArg name value) ∧ cmdIsShortFlag (longArg name value) = false := by
  have hthird : (longArg name value).at 2 ≠ 0 := by
    cases name with
    | cons c name => exact (hname c List.mem_cons_self).1
    | nil =>
      cases value with
      | none => exact absurd rfl (harg.resolve_left (not_not.mpr rfl))
      | some value =>
        change chr '=' ≠ 0
        decide
  refine ⟨.inr ?_, ?_⟩
  · rw [cmdIsLongFlag, decide_eq_true_iff]
    exact ⟨rfl, rfl, hthird⟩
  · rw [cmdIsShortFlag, decide_eq_false_iff_not]
    exact fun h => h.2.1 rfl

/-- Of the flags of the parser and the command, the first one that has the characters. -/
theorem findFlag_byName (s : CmdState) {n : Text} {len : U32} (hn : (longArg name value).drop 2 = n)
    (hlen : len.toNat = comparedLength name value) :
    s.findFlag (cmdFindByName · n len) = s.flags.findIdx? fun flag => StartsLike name value flag := by
  have hpred : (fun flag : CmdFlag => decide (StartsLike name value flag)) =
      fun flag => flag.name.any fun t => strncmpEq t n len := by
    funext flag
    rw [Bool.eq_iff_iff, decide_eq_true_iff, StartsLike, ← hlen, hn]
    cases flag.name <;> simp [strncmpEq]
  rw [hpred, findFlag, flags, List.findIdx?_append, cmdFindByName, cmdFindByName]
  simp only [Nat.add_comm]

theorem nameLength_plain (hname : Plain name) :
    nameLength name = BitVec.ofNat 32 (name.length + (2 ^ 32 - 1)) := by
  have htrim : name.rdropWhile isSpace = name := by
    rw [List.rdropWhile_eq_self_iff]
    intro hne
    simp [(hname _ (List.getLast_mem hne)).2.2]
  rw [nameLength, htrim]
  bv_omega

theorem longFlag_longArg (s : CmdState) (hname : Plain name) (value : Option Text) :
    s.longFlag (longArg name value) =
      (s.flags.findIdx? fun flag => StartsLike name value flag, value.map (·.dropWhile isSpace)) := by
  have hnot : ∀ c ∈ name, (decide (c ≠ chr '=')) = true := fun c hc => decide_eq_true (hname c hc).2.1
  cases value with
  | none =>
    have hdrop : (longArg name none).drop 2 = name := List.append_nil name
    have hfind := s.findFlag_byName hdrop (BitVec.toNat_ofNat name.length 32)
    rw [longFlag, hdrop, List.dropWhile_eq_nil_iff.mpr hnot]
    exact congrArg (·, none) hfind
  | some value =>
    have hdrop : (longArg name (some value)).drop 2 = name ++ chr '=' :: value := rfl
    have hlen : (nameLength name).toNat = comparedLength name (some value) := by
      rw [nameLength_plain hname]
      exact BitVec.toNat_ofNat ..
    have hfind := s.findFlag_byName hdrop hlen
    rw [longFlag, hdrop, List.dropWhile_append_of_pos hnot, List.takeWhile_append_of_pos hnot,
      List.dropWhile_cons_of_neg (by simp), List.takeWhile_cons_of_neg (by simp), List.append_nil]
    exact congrArg (·, some (value.dropWhile isSpace)) hfind

theorem flagOf_longArg (s : CmdState) (hname : Plain name) (harg : name ≠ [] ∨ value ≠ none) :
    s.flagOf (longArg name value) =
      ((s.flags.findIdx? fun flag => StartsLike name value flag).bind fun i => s.flags[i]?.map fun flag => (i, flag),
        value.map (·.dropWhile isSpace)) := by
  rw [flagOf, (isFlag_longArg hname harg).2, if_neg (by simp), longFlag_longArg s hname]

/-- A name has the characters that are compared with it. -/
theorem startsLike_self {flag : CmdFlag} (hflag : flag.name = some name) (hne : name ≠ []) :
    StartsLike name value flag := by
  have hpos := List.length_pos_iff.mpr hne
  have hle : comparedLength name value ≤ name.length := by
    cases value with
    | none => exact Nat.mod_le ..
    | some value =>
      rw [comparedLength, show name.length + (2 ^ 32 - 1) = name.length - 1 + 2 ^ 32 by omega, Nat.add_mod_right]
      exact (Nat.mod_le ..).trans (Nat.sub_le ..)
  exact ⟨name, hflag, (List.take_append_of_le_length hle).symm⟩

/-- For a name of a usual length these are the flags whose name starts with it, or, where a value follows, with all but
    its last character. -/
theorem startsLike_iff {flag : CmdFlag} (hne : name ≠ []) (hlen : name.length < 2 ^ 32) :
    StartsLike name value flag ↔
      ∃ s, flag.name = some s ∧ (if value.isSome then name.dropLast else name) <+: s := by
  have hpos := List.length_pos_iff.mpr hne
  cases value with
  | none =>
    have hcompared : comparedLength name none = name.length := Nat.mod_eq_of_lt hlen
    have htext : ((longArg name none).drop 2).take name.length = name := by
      rw [show (longArg name none).drop 2 = name from List.append_nil name, List.take_length]
    rw [StartsLike, hcompared, htext]
    exact exists_congr fun s => and_congr_right fun _ => eq_comm.trans List.prefix_iff_eq_take.symm
  | some value =>
    have hcompared : comparedLength name (some value) = name.dropLast.length := by
      rw [comparedLength, List.length_dropLast]
      omega
    have htext : ((longArg name (some value)).drop 2).take name.dropLast.length = name.dropLast := by
      have hdrop : (longArg name (some value)).drop 2 = name ++ chr '=' :: value := rfl
      have hle : name.dropLast.length ≤ name.length := by simp
      rw [hdrop, List.take_append_of_le_length hle, List.length_dropLast, List.dropLast_eq_take]
    rw [StartsLike, hcompared, htext]
    exact exists_congr fun s => and_congr_right fun _ => eq_comm.trans List.prefix_iff_eq_take.symm

/-- What the loop makes of a long argument is what the flag makes of its value. That flag is the one with exactly this
    name if and only if no flag before it starts like the name. Where there is no such flag, the argument is not
    recognized if and only if no flag starts like the name. -/
theorem flagOf_exact_iff (s : CmdState) (hname : Plain name) (harg : name ≠ [] ∨ value ≠ none) :
    (∀ npos argv, cmdParseCommandArguments s npos (longArg name value :: argv) =
      match s.flagOf (longArg name value) with
      | (none, _) => .error ⟨"error: unrecognized command argument '%s'\n", [.text (longArg name value)]⟩
      | (some (i, flag), val) =>
        (useFlag flag val argv).bind fun r => cmdParseCommandArguments (s.setFlag i r.1) npos r.2) ∧
    (∀ i flag, s.flags[i]? = some flag → flag.name = some name → name ≠ [] →
      (s.flagOf (longArg name value) = (some (i, flag), value.map (·.dropWhile isSpace)) ↔
        ∀ j < i, ∀ f, s.flags[j]? = some f → ¬StartsLike name value f)) ∧
    ((∀ flag ∈ s.flags, flag.name ≠ some name) →
      ((s.flagOf (longArg name value)).1 = none ↔ ∀ flag ∈ s.flags, ¬StartsLike name value flag)) := by
  refine ⟨fun npos argv => parse_flag (isFlag_longArg hname harg).1, fun i flag hi hflag hne => ?_, fun _ => ?_⟩
  · have hbind (o : Option Nat) :
        (o.bind fun i => s.flags[i]?.map fun flag => (i, flag)) = some (i, flag) ↔ o = some i := by
      cases o with
      | none => simp
      | some k =>
        rw [Option.bind_some, Option.map_eq_some_iff]
        constructor
        · rintro ⟨_, _, heq⟩
          exact congrArg some (Prod.mk.inj heq).1
        · intro heq
          rw [Option.some.inj heq]
          exact ⟨flag, hi, rfl⟩
    obtain ⟨hlt, hget⟩ := List.getElem?_eq_some_iff.mp hi
    rw [flagOf_longArg s hname harg, Prod.mk.injEq, and_iff_left rfl, hbind, List.findIdx?_eq_some_iff_getElem]
    constructor
    · rintro ⟨_, _, hbefore⟩ j hj f hf
      obtain ⟨hjlt, rfl⟩ := List.getElem?_eq_some_iff.mp hf
      simpa using hbefore j hj
    · intro hbefore
      refine ⟨hlt, ?_, fun j hj => ?_⟩
      · rw [hget]
        exact decide_eq_true (startsLike_self hflag hne)
      · simpa using hbefore j hj _ (List.getElem?_eq_getElem (hj.trans hlt))
  · rw [flagOf_longArg s hname harg]
    cases hfind : s.flags.findIdx? fun flag => StartsLike name value flag with
    | none => simpa using List.findIdx?_eq_none_iff.mp hfind
    | some k =>
      obtain ⟨hlt, hlike, -⟩ := List.findIdx?_eq_some_iff_getElem.mp hfind
      refine iff_of_false ?_ fun hnone => hnone _ (List.getElem_mem hlt) (of_decide_eq_true hlike)
      rw [Option.bind_some, List.getElem?_eq_getElem hlt]
      exact Option.some_ne_none _

/-- With the flags `--out` and `--out-dir`, in this order, the value of `--out=x` goes to the first. -/
theorem flagOf_exact_iff_out :
    ∃ (s : CmdState) (flag : CmdFlag), Plain (ascii ['o', 'u', 't']) ∧ s.flags[0]? = some flag ∧
      flag.name = some (ascii ['o', 'u', 't']) ∧
      s.flagOf (longArg (ascii ['o', 'u', 't']) (some (ascii ['x']))) = (some (0, flag), some (ascii ['x'])) := by
  let flag : CmdFlag := { name := some (ascii ['o', 'u', 't']), validator := some cmdParseString }
  let other : CmdFlag := { name := some (ascii ['o', 'u', 't', '-', 'd', 'i', 'r']), validator := some cmdParseString }
  have hplain : Plain (ascii ['o', 'u', 't']) := by
    unfold Plain
    decide
  have hexact := @flagOf_exact_iff (ascii ['o', 'u', 't']) (some (ascii ['x'])) ⟨[], [flag, other], []⟩ hplain (.inl (by decide))
  exact ⟨_, flag, hplain, rfl, rfl, (hexact.2.1 0 flag rfl rfl (by decide)).mpr fun j hj => absurd hj (Nat.not_lt_zero j)⟩

/-- In the other order, the value of `--out=x` goes to `--out-dir`, and so does that of `--ou=x`, which no flag has as
    its name. -/
theorem not_flagOf_exact :
    ∃ s : CmdState, s.flags.map CmdFlag.name = [some (ascii ['o', 'u', 't', '-', 'd', 'i', 'r']), some (ascii ['o', 'u', 't'])] ∧
      (∃ s', cmdParseCommandArguments s 0 [longArg (ascii ['o', 'u', 't']) (some (ascii ['x']))] = .ok (s', []) ∧
        s'.flags.map CmdFlag.val = [.cmdString (ascii ['x']), .cmdNoValue]) ∧
      ∃ s', cmdParseCommandArguments s 0 [longArg (ascii ['o', 'u']) (some (ascii ['x']))] = .ok (s', []) ∧
        s'.flags.map CmdFlag.val = [.cmdString (ascii ['x']), .cmdNoValue] := by
  let flag : CmdFlag := { name := some (ascii ['o', 'u', 't']), validator := some cmdParseString }
  let other : CmdFlag := { name := some (ascii ['o', 'u', 't', '-', 'd', 'i', 'r']), validator := some cmdParseString }
  exact ⟨⟨[], [other, flag], []⟩, rfl, ⟨_, rfl, rfl⟩, ⟨_, rfl, rfl⟩⟩

end CmdState

end Cyntatic
