import Mathlib.Tactic.Common

/-! # Computations that may fail

What `bind`, `map` and a pass over a list come to in `Except` and in `Option`. -/

namespace Library

variable {ε α β : Type}

section Except
variable {x : Except ε α} {e : ε} {b : β}

theorem bind_eq_ok {f : α → Except ε β} (h : x.bind f = .ok b) : ∃ a, x = .ok a ∧ f a = .ok b := by
  cases x with
  | error e => cases h
  | ok a => exact ⟨a, rfl, h⟩

theorem bind_eq_error {f : α → Except ε β} (h : x.bind f = .error e) : x = .error e ∨ ∃ a, x = .ok a ∧ f a = .error e := by
  cases x with
  | error e' => exact .inl (congrArg _ (Except.error.inj h))
  | ok a => exact .inr ⟨a, rfl, h⟩

theorem map_eq_ok {f : α → β} (h : x.map f = .ok b) : ∃ a, x = .ok a ∧ f a = b := by
  cases x with
  | error e => cases h
  | ok a => exact ⟨a, rfl, Except.ok.inj h⟩

theorem map_eq_error {f : α → β} : x.map f = .error e ↔ x = .error e := by
  cases x with
  | error e' => exact ⟨fun h => congrArg _ (Except.error.inj h), fun h => congrArg _ (Except.error.inj h)⟩
  | ok a => exact iff_of_false nofun nofun

theorem mapM_cons_eq_error {f : α → Except ε β} {a : α} {l : List α} :
    (a :: l).mapM f = .error e ↔ f a = .error e ∨ ∃ c, f a = .ok c ∧ l.mapM f = .error e := by
  rw [List.mapM_cons]
  cases f a with
  | error e' =>
    refine ⟨fun h => .inl (congrArg _ (Except.error.inj h)), fun h => ?_⟩
    rcases h with h | ⟨_, h, -⟩
    · exact congrArg _ (Except.error.inj h)
    · cases h
  | ok c =>
    have hrest : (l.mapM f).map (c :: ·) = .error e ↔ l.mapM f = .error e := map_eq_error
    exact hrest.trans ⟨fun h => .inr ⟨c, rfl, h⟩, fun h => h.elim nofun fun ⟨_, _, h⟩ => h⟩

/-- A pass over a list fails at the first element that does. -/
theorem mapM_eq_error {f : α → Except ε β} {l : List α} :
    l.mapM f = .error e ↔ ∃ before a after, l = before ++ a :: after ∧ (∀ b ∈ before, ∃ c, f b = .ok c) ∧ f a = .error e := by
  constructor
  · intro h
    induction l with
    | nil => cases h
    | cons a l ih =>
      rcases mapM_cons_eq_error.mp h with ha | ⟨c, hc, hl⟩
      · exact ⟨[], a, l, rfl, nofun, ha⟩
      · obtain ⟨before, b, after, rfl, hbefore, hb⟩ := ih hl
        exact ⟨a :: before, b, after, rfl, List.forall_mem_cons.mpr ⟨⟨c, hc⟩, hbefore⟩, hb⟩
  · rintro ⟨before, a, after, rfl, hbefore, ha⟩
    induction before with
    | nil => exact mapM_cons_eq_error.mpr (.inl ha)
    | cons b before ih =>
      obtain ⟨⟨c, hc⟩, hbefore⟩ := List.forall_mem_cons.mp hbefore
      exact mapM_cons_eq_error.mpr (.inr ⟨c, hc, ih hbefore⟩)

end Except

section Option
variable {f : α → Option β} {l : List α} {l' : List β}

theorem mapM_eq_some {g : α → β} (h : ∀ a ∈ l, f a = some (g a)) : l.mapM f = some (l.map g) := by
  induction l with
  | nil => rfl
  | cons a l ih =>
    rw [List.mapM_cons, h a List.mem_cons_self, ih fun b hb => h b (List.mem_cons_of_mem _ hb)]
    rfl

/-- What a pass over a list gives comes from its elements. -/
theorem exists_of_mem_mapM {b : β} (h : l.mapM f = some l') (hb : b ∈ l') : ∃ a ∈ l, f a = some b := by
  induction l generalizing l' with
  | nil =>
    obtain rfl : [] = l' := Option.some.inj h
    cases hb
  | cons a l ih =>
    rw [List.mapM_cons, Option.bind_eq_bind, Option.bind_eq_some_iff] at h
    obtain ⟨c, hc, h⟩ := h
    rw [Option.bind_eq_bind, Option.bind_eq_some_iff] at h
    obtain ⟨cs, hcs, h⟩ := h
    obtain rfl : c :: cs = l' := Option.some.inj h
    rcases List.mem_cons.mp hb with rfl | hb
    · exact ⟨a, List.mem_cons_self, hc⟩
    · obtain ⟨a', ha', hfa⟩ := ih hcs hb
      exact ⟨a', List.mem_cons_of_mem _ ha', hfa⟩

end Option

end Library
