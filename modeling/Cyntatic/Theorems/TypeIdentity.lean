import Cyntatic.Compiler.Type

/-! # Which types are the same

A type is a base type under some levels, which are pointers and arrays. `Type_is_same` compares the levels, with the
lengths of the arrays, and of the base types the `id`; so it takes all integer types for one, and all float types. -/

namespace Cyntatic
open Library

/-- A level of a type: a pointer, or an array with its length. -/
inductive Level where
  | pointer
  | array (len : BitVec 32)
  deriving DecidableEq

def Level.len? : Level → Option (BitVec 32)
  | .pointer => none
  | .array len => some len

variable {base : BaseType → Ptr} {types types' : TypeMemory} {p q : Ptr} {ls ms : List Level} {x y : BaseType}

/-- At an address there is a type: some levels over a base type. -/
def HoldsType (base : BaseType → Ptr) (types : TypeMemory) (x : BaseType) : Ptr → List Level → Prop
  | p, [] => p = base x ∧ types p = some x.object
  | p, .pointer :: ls => ∃ target, types p = some { id := .pointer, size := 8, align := 8, pointee := target } ∧
      HoldsType base types x target ls
  | p, .array len :: ls => ∃ elem e, types elem = some e ∧
      types p = some { id := .array, size := e.size * len, align := e.align, elem, len } ∧ HoldsType base types x elem ls

theorem HoldsType.mono (h : HoldsType base types x p ls) (hkeep : ∀ q o, types q = some o → types' q = some o) :
    HoldsType base types' x p ls := by
  induction ls generalizing p with
  | nil => exact ⟨h.1, hkeep p _ h.2⟩
  | cons l ls ih =>
    cases l with
    | pointer =>
      obtain ⟨target, hp, htarget⟩ := h
      exact ⟨target, hkeep p _ hp, ih htarget⟩
    | array len =>
      obtain ⟨elem, e, he, hp, helem⟩ := h
      exact ⟨elem, e, hkeep elem _ he, hkeep p _ hp, ih helem⟩

/-- The `id` of the object of a type. -/
def idOf (x : BaseType) : List Level → TypeId
  | [] => x.object.id
  | .pointer :: _ => .pointer
  | .array _ :: _ => .array

theorem HoldsType.exists_object (h : HoldsType base types x p ls) : ∃ o, types p = some o ∧ o.id = idOf x ls := by
  cases ls with
  | nil => exact ⟨_, h.2, rfl⟩
  | cons l ls =>
    cases l with
    | pointer =>
      obtain ⟨target, hp, -⟩ := h
      exact ⟨_, hp, rfl⟩
    | array len =>
      obtain ⟨elem, e, -, hp, -⟩ := h
      exact ⟨_, hp, rfl⟩

theorem HoldsType.idOf_eq (h : HoldsType base types x p ls) (h' : HoldsType base types y p ms) : idOf x ls = idOf y ms := by
  obtain ⟨o, ho, hid⟩ := h.exists_object
  obtain ⟨o', ho', hid'⟩ := h'.exists_object
  obtain rfl := Option.some.inj (ho.symm.trans ho')
  exact hid.symm.trans hid'

theorem id_object_ne (x : BaseType) :
    x.object.id ≠ .pointer ∧ x.object.id ≠ .array ∧ x.object.id ≠ .struct ∧ x.object.id ≠ .func := by
  cases x <;> decide

/-- The type at an address is the only one. -/
theorem HoldsType.unique (hinj : Function.Injective base) (h : HoldsType base types x p ls)
    (h' : HoldsType base types y p ms) : ls = ms ∧ x = y := by
  have hid := h.idOf_eq h'
  induction ls generalizing p ms with
  | nil =>
    cases ms with
    | nil => exact ⟨rfl, hinj (h.1.symm.trans h'.1)⟩
    | cons m ms =>
      cases m with
      | pointer => exact absurd hid (id_object_ne x).1
      | array len => exact absurd hid (id_object_ne x).2.1
  | cons l ls ih =>
    cases l with
    | pointer =>
      obtain ⟨target, hp, htarget⟩ := h
      cases ms with
      | nil => exact absurd hid.symm (id_object_ne y).1
      | cons m ms =>
        cases m with
        | array len => cases hid
        | pointer =>
          obtain ⟨target', hp', htarget'⟩ := h'
          obtain rfl : target = target' := congrArg CType.pointee (Option.some.inj (hp.symm.trans hp'))
          obtain ⟨rfl, rfl⟩ := ih htarget htarget' (htarget.idOf_eq htarget')
          exact ⟨rfl, rfl⟩
    | array len =>
      obtain ⟨elem, e, -, hp, helem⟩ := h
      cases ms with
      | nil => exact absurd hid.symm (id_object_ne y).2.1
      | cons m ms =>
        cases m with
        | pointer => cases hid
        | array len' =>
          obtain ⟨elem', e', -, hp', helem'⟩ := h'
          have hobject := Option.some.inj (hp.symm.trans hp')
          obtain rfl : elem = elem' := congrArg CType.elem hobject
          obtain rfl : len = len' := congrArg CType.len hobject
          obtain ⟨rfl, rfl⟩ := ih helem helem' (helem.idOf_eq helem')
          exact ⟨rfl, rfl⟩

section
variable {l r : CType} {n : Nat}

theorem typeIsSame_other (hne : p ≠ q) (hp : types p = some l) (hq : types q = some r) (hid : l.id ≠ r.id) :
    typeIsSame types p q (n + 1) = some false := by
  rw [typeIsSame, if_neg hne, hp, hq]
  exact if_pos hid

theorem typeIsSame_pointer (hne : p ≠ q) (hp : types p = some l) (hq : types q = some r) (hl : l.id = .pointer)
    (hr : r.id = .pointer) : typeIsSame types p q (n + 1) = typeIsSame types l.pointee r.pointee n := by
  rw [typeIsSame, if_neg hne, hp, hq]
  simp [hl, hr]

theorem typeIsSame_array (hne : p ≠ q) (hp : types p = some l) (hq : types q = some r) (hl : l.id = .array)
    (hr : r.id = .array) : typeIsSame types p q (n + 1) =
      if l.len = r.len then typeIsSame types l.elem r.elem n else some false := by
  rw [typeIsSame, if_neg hne, hp, hq]
  simp [hl, hr]

theorem typeIsSame_base (hne : p ≠ q) (hp : types p = some x.object) (hq : types q = some y.object)
    (hid : x.object.id = y.object.id) : typeIsSame types p q (n + 1) = some true := by
  rw [typeIsSame, if_neg hne, hp, hq]
  simp only [Option.bind_eq_bind, Option.bind_some, hid, ne_eq, not_true_eq_false, if_false]
  cases y <;> rfl

end

theorem typeIsSame_self (hinj : Function.Injective base) (h : HoldsType base types x p ls)
    (h' : HoldsType base types y p ms) :
    Yields (typeIsSame types p p) (decide (ls = ms ∧ x.object.id = y.object.id)) := by
  obtain ⟨rfl, rfl⟩ := h.unique hinj h'
  rw [decide_eq_true ⟨rfl, rfl⟩]
  exact yields_last rfl fun n => if_pos rfl

theorem typeIsSame_idOf_ne (h : HoldsType base types x p ls) (h' : HoldsType base types y q ms)
    (hid : idOf x ls ≠ idOf y ms) :
    Yields (typeIsSame types p q) (decide (ls = ms ∧ x.object.id = y.object.id)) := by
  obtain ⟨o, ho, hoid⟩ := h.exists_object
  obtain ⟨o', ho', hoid'⟩ := h'.exists_object
  have hne : p ≠ q := by
    rintro rfl
    exact hid (h.idOf_eq h')
  have hfalse : ¬(ls = ms ∧ x.object.id = y.object.id) := by
    rintro ⟨rfl, hxy⟩
    rcases ls with - | ⟨- | len, ls⟩
    · exact hid hxy
    · exact hid rfl
    · exact hid rfl
  rw [decide_eq_false hfalse]
  exact yields_last rfl fun n => typeIsSame_other hne ho ho' (by rw [hoid, hoid']; exact hid)

/-- `Type_is_same` compares the levels and the `id` of the base types. -/
theorem typeIsSame_yields (hinj : Function.Injective base) (h : HoldsType base types x p ls)
    (h' : HoldsType base types y q ms) :
    Yields (typeIsSame types p q) (decide (ls = ms ∧ x.object.id = y.object.id)) := by
  induction ls generalizing p q ms with
  | nil =>
    by_cases hid : idOf x [] = idOf y ms
    swap
    · exact typeIsSame_idOf_ne h h' hid
    by_cases hpq : p = q
    · exact hpq ▸ typeIsSame_self hinj h (hpq ▸ h')
    rcases ms with - | ⟨- | len, ms⟩
    · rw [decide_eq_true ⟨rfl, hid⟩]
      exact yields_last rfl fun n => typeIsSame_base hpq h.2 h'.2 hid
    · exact absurd hid (id_object_ne x).1
    · exact absurd hid (id_object_ne x).2.1
  | cons l ls ih =>
    by_cases hid : idOf x (l :: ls) = idOf y ms
    swap
    · exact typeIsSame_idOf_ne h h' hid
    by_cases hpq : p = q
    · exact hpq ▸ typeIsSame_self hinj h (hpq ▸ h')
    rcases l with - | len
    · obtain ⟨target, hp, htarget⟩ := h
      rcases ms with - | ⟨- | len', ms⟩
      · exact absurd hid.symm (id_object_ne y).1
      · obtain ⟨target', hq, htarget'⟩ := h'
        have hrest := ih htarget htarget'
        simp only [List.cons.injEq, true_and]
        exact hrest.pass rfl fun n => typeIsSame_pointer hpq hp hq rfl rfl
      · cases hid
    · obtain ⟨elem, e, -, hp, helem⟩ := h
      rcases ms with - | ⟨- | len', ms⟩
      · exact absurd hid.symm (id_object_ne y).2.1
      · cases hid
      · obtain ⟨elem', e', -, hq, helem'⟩ := h'
        by_cases hlen : len = len'
        · have hrest := ih helem helem'
          simp only [List.cons.injEq, hlen, true_and]
          exact hrest.pass rfl fun n => (typeIsSame_array hpq hp hq rfl rfl).trans (if_pos hlen)
        · have hfalse : ¬(Level.array len :: ls = Level.array len' :: ms ∧ x.object.id = y.object.id) := by
            rintro ⟨heq, -⟩
            exact hlen (Level.array.inj (List.cons.inj heq).1)
          rw [decide_eq_false hfalse]
          exact yields_last rfl fun n => (typeIsSame_array hpq hp hq rfl rfl).trans (if_neg hlen)

/-! ### Runs -/

/-- The memories that calls of `Type_pointer` and `Type_array` give, for the types that there are. -/
inductive Built (base : BaseType → Ptr) : TypeMemory → Prop
  | start (hinj : Function.Injective base) : Built base (staticTypes base)
  | pointer {types : TypeMemory} {p target : Ptr} (h : Built base types) (ht : (types target).isSome)
      (hfresh : types p = none) : Built base (typePointer types p target)
  | array {types types' : TypeMemory} {p elem : Ptr} {len : BitVec 32} (h : Built base types)
      (hfresh : types p = none) (hcall : typeArray types p elem len = some types') : Built base types'

theorem Built.injective (h : Built base types) : Function.Injective base := by
  induction h with
  | start hinj => exact hinj
  | pointer h ht hfresh ih => exact ih
  | array h hfresh hcall ih => exact ih

theorem update_keeps {o : CType} (hfresh : types p = none) (q : Ptr) (o' : CType) (hq : types q = some o') :
    Function.update types p (some o) q = some o' := by
  rw [Function.update_of_ne, hq]
  rintro rfl
  cases hfresh.symm.trans hq

/-- Every object is that of a type. -/
theorem Built.holds (h : Built base types) (hp : (types p).isSome) : ∃ ls x, HoldsType base types x p ls := by
  induction h generalizing p with
  | start hinj =>
    obtain ⟨o, ho⟩ := Option.isSome_iff_exists.mp hp
    obtain ⟨x, hx, rfl⟩ := Option.map_eq_some_iff.mp ho
    have hbase := List.find?_some hx
    exact ⟨[], x, (of_decide_eq_true hbase).symm, ho⟩
  | @pointer types p' target h ht hfresh ih =>
    by_cases hpp : p = p'
    · obtain ⟨ls, x, hx⟩ := ih ht
      exact ⟨.pointer :: ls, x, target, hpp ▸ Function.update_self .., hx.mono (update_keeps hfresh)⟩
    · rw [typePointer, Function.update_of_ne hpp] at hp
      obtain ⟨ls, x, hx⟩ := ih hp
      exact ⟨ls, x, hx.mono (update_keeps hfresh)⟩
  | @array types types' p' elem len h hfresh hcall ih =>
    obtain ⟨e, he, heq⟩ := Option.bind_eq_some_iff.mp hcall
    obtain rfl := Option.some.inj heq
    by_cases hpp : p = p'
    · obtain ⟨ls, x, hx⟩ := ih (Option.isSome_iff_exists.mpr ⟨e, he⟩)
      exact ⟨.array len :: ls, x, elem, e, update_keeps hfresh elem e he, hpp ▸ Function.update_self ..,
        hx.mono (update_keeps hfresh)⟩
    · rw [Function.update_of_ne hpp] at hp
      obtain ⟨ls, x, hx⟩ := ih hp
      exact ⟨ls, x, hx.mono (update_keeps hfresh)⟩

/-- The types that there are. -/
def Types (types : TypeMemory) := { p : Ptr // (types p).isSome }

/-- What `Type_is_same` says of two types. -/
def SameType (types : TypeMemory) (a b : Types types) : Prop := Yields (typeIsSame types a.1 b.1) true

theorem Built.same_iff (h : Built base types) {a b : Types types} (ha : HoldsType base types x a.1 ls)
    (hb : HoldsType base types y b.1 ms) : SameType types a b ↔ ls = ms ∧ x.object.id = y.object.id := by
  have hyields := typeIsSame_yields h.injective ha hb
  constructor
  · intro hsame
    exact of_decide_eq_true (hyields.unique hsame)
  · intro heq
    rwa [decide_eq_true heq] at hyields

theorem Built.same_equivalence (h : Built base types) : Equivalence (SameType types) where
  refl a := by
    obtain ⟨ls, x, ha⟩ := h.holds a.2
    exact (h.same_iff ha ha).mpr ⟨rfl, rfl⟩
  symm {a b} hab := by
    obtain ⟨ls, x, ha⟩ := h.holds a.2
    obtain ⟨ms, y, hb⟩ := h.holds b.2
    obtain ⟨hls, hid⟩ := (h.same_iff ha hb).mp hab
    exact (h.same_iff hb ha).mpr ⟨hls.symm, hid.symm⟩
  trans {a b c} hab hbc := by
    obtain ⟨ls, x, ha⟩ := h.holds a.2
    obtain ⟨ms, y, hb⟩ := h.holds b.2
    obtain ⟨ns, z, hc⟩ := h.holds c.2
    obtain ⟨hls, hid⟩ := (h.same_iff ha hb).mp hab
    obtain ⟨hms, hid'⟩ := (h.same_iff hb hc).mp hbc
    exact (h.same_iff ha hc).mpr ⟨hls.trans hms, hid.trans hid'⟩

/-- Two types agree in size, in the lengths of their arrays, and in the width and the sign of their base types. -/
structure Agree (types : TypeMemory) (p q : Ptr) (ls ms : List Level) (x y : BaseType) : Prop where
  size : (types p).map CType.size = (types q).map CType.size
  lengths : ls.map Level.len? = ms.map Level.len?
  width : x.object.size = y.object.size
  isSigned : x.object.isSigned = y.object.isSigned

/-- The size of a type with some levels over a base type. -/
def sizeOver (x : BaseType) : List Level → BitVec 32
  | [] => x.object.size
  | .pointer :: _ => 8
  | .array len :: ls => sizeOver x ls * len

theorem HoldsType.size (h : HoldsType base types x p ls) : (types p).map CType.size = some (sizeOver x ls) := by
  induction ls generalizing p with
  | nil =>
    rw [h.2]
    rfl
  | cons l ls ih =>
    rcases l with - | len
    · obtain ⟨target, hp, -⟩ := h
      rw [hp]
      rfl
    · obtain ⟨elem, e, he, hp, helem⟩ := h
      have hsize := ih helem
      rw [he] at hsize
      rw [hp, Option.map_some, sizeOver, ← Option.some.inj hsize]

/-- Of the base types with one `id` no two have the same width and sign. -/
theorem baseType_eq {x y : BaseType} (hid : x.object.id = y.object.id) (hsize : x.object.size = y.object.size)
    (hsigned : x.object.isSigned = y.object.isSigned) : x = y := by
  revert hid hsize hsigned
  cases x <;> cases y <;> decide

/-- `Type_is_same` always comes to a result and is an equivalence. The types that it takes for one agree exactly when,
    where they have the same levels, their base types are not two integer types or two float types. -/
theorem run_type_identity (h : Built base types) :
    (∀ a b : Types types, ∃ r, Yields (typeIsSame types a.1 b.1) r) ∧ Equivalence (SameType types) ∧
      ∀ (a b : Types types) ls ms x y, HoldsType base types x a.1 ls → HoldsType base types y b.1 ms →
        ((SameType types a b → Agree types a.1 b.1 ls ms x y) ↔ (ls = ms → x.object.id = y.object.id → x = y)) := by
  refine ⟨fun a b => ?_, h.same_equivalence, fun a b ls ms x y ha hb => ⟨fun hall hls hid => ?_, fun hcond hsame => ?_⟩⟩
  · obtain ⟨ls, x, ha⟩ := h.holds a.2
    obtain ⟨ms, y, hb⟩ := h.holds b.2
    exact ⟨_, typeIsSame_yields h.injective ha hb⟩
  · have hagree := hall ((h.same_iff ha hb).mpr ⟨hls, hid⟩)
    exact baseType_eq hid hagree.width hagree.isSigned
  · obtain ⟨rfl, hid⟩ := (h.same_iff ha hb).mp hsame
    obtain rfl := hcond rfl hid
    exact ⟨ha.size.trans hb.size.symm, rfl, rfl, rfl⟩

/-- Static objects in a row. -/
def inRow (x : BaseType) : Ptr := BitVec.ofNat 64 (16 * (BaseType.all.idxOf x + 1))

theorem inRow_injective : Function.Injective inRow := by
  have hall : ∀ x ∈ BaseType.all, ∀ y ∈ BaseType.all, inRow x = inRow y → x = y := by decide
  have hmem (x : BaseType) : x ∈ BaseType.all := by cases x <;> decide
  exact fun x y => hall x (hmem x) y (hmem y)

/-- Two pointers to `i32`. -/
theorem run_type_identity_pointers : ∃ types, Built inRow types ∧
    Yields (typeIsSame types 4096 8192) true ∧ Agree types 4096 8192 [.pointer] [.pointer] .i32Type .i32Type := by
  let types := typePointer (typePointer (staticTypes inRow) 4096 (inRow .i32Type)) 8192 (inRow .i32Type)
  have hbuilt : Built inRow types := ((Built.start inRow_injective).pointer (by decide) (by decide)).pointer (by decide) (by decide)
  have h1 : HoldsType inRow types .i32Type 4096 [.pointer] := ⟨inRow .i32Type, by decide, rfl, by decide⟩
  have h2 : HoldsType inRow types .i32Type 8192 [.pointer] := ⟨inRow .i32Type, by decide, rfl, by decide⟩
  have hsame := typeIsSame_yields inRow_injective h1 h2
  exact ⟨types, hbuilt, hsame, ((run_type_identity hbuilt).2.2 ⟨4096, by decide⟩ ⟨8192, by decide⟩ _ _ _ _ h1 h2).mpr
    (fun _ _ => rfl) hsame⟩

/-- `Type_is_same` takes `i8` and `u64` for one. -/
theorem not_type_identity : ¬ ∀ base types, Built base types → ∀ (a b : Types types) ls ms x y,
    HoldsType base types x a.1 ls → HoldsType base types y b.1 ms → SameType types a b → Agree types a.1 b.1 ls ms x y := by
  intro hall
  have h1 : HoldsType inRow (staticTypes inRow) .i8Type (inRow .i8Type) [] := ⟨rfl, by decide⟩
  have h2 : HoldsType inRow (staticTypes inRow) .u64Type (inRow .u64Type) [] := ⟨rfl, by decide⟩
  have hagree := hall _ _ (.start inRow_injective) ⟨inRow .i8Type, by decide⟩ ⟨inRow .u64Type, by decide⟩ _ _ _ _ h1 h2
    (typeIsSame_yields inRow_injective h1 h2)
  exact absurd hagree.width (by decide)

end Cyntatic
