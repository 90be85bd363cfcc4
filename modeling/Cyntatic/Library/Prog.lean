import Mathlib.Data.BitVec
import Mathlib.Algebra.Order.Ring.Nat
import Mathlib.Tactic.Common

/-! # Programs over a state

Computations that read and change a state of type `σ`, may stop for a reason of type `ε`, and leave a list of
events of type `τ`. The rules for `Returns` take a sequence of steps apart, those for `Always` say that a
property holds of every event, also of those before a stop. -/

namespace Library

/-- How a computation ends, and the state it leaves. -/
inductive Outcome (ε σ α : Type) where
  | ok (a : α) (s : σ)
  | stop (e : ε) (s : σ)
  deriving DecidableEq

/-- Computations on states `σ`, with their events. -/
def Prog (τ ε σ α : Type) : Type := σ → List τ × Outcome ε σ α

namespace Prog

variable {τ ε σ α β : Type}

protected def pure (a : α) : Prog τ ε σ α := fun s => ([], .ok a s)

protected def bind (m : Prog τ ε σ α) (f : α → Prog τ ε σ β) : Prog τ ε σ β := fun s =>
  match m s with
  | (t, .ok a s) => (t ++ (f a s).1, (f a s).2)
  | (t, .stop e s) => (t, .stop e s)

instance : Monad (Prog τ ε σ) where
  pure := Prog.pure
  bind := Prog.bind

/-- The state. -/
def get : Prog τ ε σ σ := fun s => ([], .ok s s)

/-- A change of the state. -/
def modify (f : σ → σ) : Prog τ ε σ Unit := fun s => ([], .ok () (f s))

/-- The end of the computation. -/
def stop (e : ε) : Prog τ ε σ α := fun s => ([], .stop e s)

/-- The end of the computation if a condition holds. -/
def stopIf (c : Prop) [Decidable c] (e : ε) : Prog τ ε σ Unit := if c then stop e else Pure.pure ()

/-- An event. -/
def emit (t : τ) : Prog τ ε σ Unit := fun s => ([t], .ok () s)

/-- A step outside the program, which leaves no events. -/
def lift (f : σ → Outcome ε σ α) : Prog τ ε σ α := fun s => ([], f s)

/-- The value that is there, or the end of the computation. -/
def ofOption (e : ε) : Option α → Prog τ ε σ α
  | some a => Pure.pure a
  | none => stop e

/-- `h` takes over where `m` stops for a reason in `p`. -/
def tryCatch (p : ε → Bool) (m h : Prog τ ε σ α) : Prog τ ε σ α := fun s =>
  match m s with
  | (t, .stop e s) => if p e then (t ++ (h s).1, (h s).2) else (t, .stop e s)
  | (t, .ok a s) => (t, .ok a s)

/-- `m` returns `a` and leaves `s'`. -/
def Returns (m : Prog τ ε σ α) (s : σ) (a : α) (s' : σ) : Prop := (m s).2 = .ok a s'

/-- `Q` holds of what `m` returns. -/
def Gives (Q : α → Prop) (m : Prog τ ε σ α) : Prop := ∀ s a s', Returns m s a s' → Q a

/-- The states before and after `m` are related: by `R` where it returns, and by `S` where it stops. -/
def Relates (R : σ → σ → Prop) (S : ε → σ → σ → Prop) (m : Prog τ ε σ α) : Prop :=
  ∀ s, match (m s).2 with
    | .ok _ s' => R s s'
    | .stop e s' => S e s s'

/-- `P` holds of every event of `m`. -/
def Always (P : τ → Prop) (m : Prog τ ε σ α) (s : σ) : Prop := ∀ e ∈ (m s).1, P e

/-- Whether `m` returns with a result that passes a test. -/
def passes (p : α → σ → Bool) (m : Prog τ ε σ α) (s : σ) : Bool :=
  match (m s).2 with
  | .ok a s' => p a s'
  | .stop _ _ => false

/-- `m` and `m'` end alike, and leave the same events of a kind. -/
structure Same (kind : τ → Bool) (m m' : Prog τ ε σ α) (s : σ) : Prop where
  outcome : (m s).2 = (m' s).2
  events : (m s).1.filter kind = (m' s).1.filter kind

/-- The first event of a kind. -/
def First (kind : τ → Bool) (m : Prog τ ε σ α) (s : σ) (t : τ) : Prop := ((m s).1.filter kind).head? = some t

/-- `m` returns with `Q` if there is a value, and does not return if there is none. -/
def Settles (m : Prog τ ε σ α) (s : σ) (x : Option β) (Q : β → α → σ → Prop) : Prop :=
  match x with
  | some b => ∃ a s', Returns m s a s' ∧ Q b a s'
  | none => ∀ a s', ¬Returns m s a s'

/-- `m` returns with `Q`, or stops for a reason in `E`. -/
def Ends (E : ε → Prop) (Q : α → σ → Prop) (m : Prog τ ε σ α) (s : σ) : Prop :=
  match (m s).2 with
  | .ok a s' => Q a s'
  | .stop e _ => E e

/-- `m` does what `m'` does, as long as `m'` does not give up, and then has left the same events. -/
def Tracks (m : Prog τ ε σ α) (m' : Prog τ ε σ (Option α)) (s : σ) : Prop :=
  match m' s with
  | (t, .ok (some a) s') => m s = (t, .ok a s')
  | (t, .ok none _) => t <+: (m s).1
  | (t, .stop e s') => m s = (t, .stop e s')

/-! ### What a computation returns -/

variable {s s' : σ} {a : α} {b : β} {m : Prog τ ε σ α} {f : α → Prog τ ε σ β}

@[simp] theorem returns_pure {a' : α} : Returns (Pure.pure a : Prog τ ε σ α) s a' s' ↔ a' = a ∧ s' = s := by
  change Outcome.ok a s = .ok a' s' ↔ _
  rw [Outcome.ok.injEq]
  tauto

@[simp] theorem returns_bind : Returns (m >>= f) s b s' ↔ ∃ a t, Returns m s a t ∧ Returns (f a) t b s' := by
  change (Prog.bind m f s).2 = _ ↔ ∃ a t, (m s).2 = _ ∧ (f a t).2 = _
  unfold Prog.bind
  rcases m s with ⟨t, a | e⟩ <;> simp

/-- A step that returns in one way, if at all. -/
theorem returns_bind_of_iff {P : Prop} {a₀ : α} {s₀ : σ} (h : ∀ a t, Returns m s a t ↔ P ∧ a = a₀ ∧ t = s₀) :
    Returns (m >>= f) s b s' ↔ P ∧ Returns (f a₀) s₀ b s' := by
  rw [returns_bind]
  constructor
  · rintro ⟨a, t, hm, hf⟩
    obtain ⟨hP, rfl, rfl⟩ := (h a t).mp hm
    exact ⟨hP, hf⟩
  · rintro ⟨hP, hf⟩
    exact ⟨a₀, s₀, (h a₀ s₀).mpr ⟨hP, rfl, rfl⟩, hf⟩

/-- A step of which the result is known. -/
theorem returns_bind_of_returns {t : σ} (h : Returns m s a t) : Returns (m >>= f) s b s' ↔ Returns (f a) t b s' := by
  rw [returns_bind]
  constructor
  · rintro ⟨a', u, hm, hf⟩
    obtain ⟨heq, rfl⟩ := Outcome.ok.inj (h.symm.trans hm)
    exact heq ▸ hf
  · exact fun hf => ⟨a, t, h, hf⟩

@[simp] theorem returns_map {g : α → β} : Returns (g <$> m) s b s' ↔ ∃ a, Returns m s a s' ∧ b = g a := by
  change Returns (m >>= fun a => Pure.pure (g a)) s b s' ↔ _
  simp only [returns_bind, returns_pure]
  constructor
  · rintro ⟨a, t, h, rfl, rfl⟩
    exact ⟨a, h, rfl⟩
  · rintro ⟨a, h, rfl⟩
    exact ⟨a, s', h, rfl, rfl⟩

@[simp] theorem returns_get {a : σ} : Returns (get : Prog τ ε σ σ) s a s' ↔ a = s ∧ s' = s := by
  change Outcome.ok s s = .ok a s' ↔ _
  rw [Outcome.ok.injEq]
  tauto

@[simp] theorem returns_modify {g : σ → σ} {u : Unit} : Returns (modify g : Prog τ ε σ Unit) s u s' ↔ s' = g s := by
  change Outcome.ok () (g s) = .ok u s' ↔ _
  rw [Outcome.ok.injEq]
  tauto

@[simp] theorem returns_stop {e : ε} : ¬Returns (stop e : Prog τ ε σ α) s a s' := nofun

@[simp] theorem returns_stopIf {c : Prop} [Decidable c] {e : ε} {u : Unit} :
    Returns (stopIf c e : Prog τ ε σ Unit) s u s' ↔ ¬c ∧ s' = s := by
  unfold stopIf
  split
  · rename_i h
    exact iff_of_false returns_stop (by simp [h])
  · rename_i h
    exact returns_pure.trans (by simp [h])

@[simp] theorem returns_lift {f : σ → Outcome ε σ α} : Returns (lift f : Prog τ ε σ α) s a s' ↔ f s = .ok a s' := Iff.rfl

@[simp] theorem returns_emit {t : τ} {u : Unit} : Returns (emit t : Prog τ ε σ Unit) s u s' ↔ s' = s := by
  change Outcome.ok () s = .ok u s' ↔ _
  rw [Outcome.ok.injEq]
  tauto

@[simp] theorem returns_ofOption {e : ε} {x : Option α} :
    Returns (ofOption e x : Prog τ ε σ α) s a s' ↔ x = some a ∧ s' = s := by
  cases x with
  | none => simp [ofOption, Returns, stop]
  | some a' =>
    change Outcome.ok a' s = .ok a s' ↔ _
    simp only [Outcome.ok.injEq, Option.some.injEq]
    tauto

/-- A computation returns in one way only. -/
theorem Returns.unique {a' : α} {t : σ} (h : Returns m s a s') (h' : Returns m s a' t) : a' = a ∧ t = s' := by
  unfold Returns at h h'
  rw [h, Outcome.ok.injEq] at h'
  exact ⟨h'.1.symm, h'.2.symm⟩

theorem exists_of_passes {p : α → σ → Bool} (h : passes p m s = true) : ∃ a s', Returns m s a s' ∧ p a s' = true := by
  unfold passes at h
  split at h
  · rename_i a s' hm
    exact ⟨a, s', hm, h⟩
  · cases h

theorem returns_tryCatch {p : ε → Bool} {h : Prog τ ε σ α} :
    Returns (tryCatch p m h) s a s' ↔ Returns m s a s' ∨ ∃ e u, (m s).2 = .stop e u ∧ p e ∧ Returns h u a s' := by
  unfold Returns tryCatch
  rcases m s with ⟨t, ⟨b, u⟩ | ⟨e, u⟩⟩
  · simp
  · simp only [reduceCtorEq, false_or, Outcome.stop.injEq]
    split
    · rename_i hp
      exact ⟨fun hr => ⟨e, u, ⟨rfl, rfl⟩, hp, hr⟩, fun ⟨_, _, ⟨rfl, rfl⟩, _, hr⟩ => hr⟩
    · rename_i hp
      exact ⟨nofun, fun ⟨_, _, ⟨rfl, rfl⟩, hp', _⟩ => absurd hp' hp⟩

/-! ### What holds of every result -/

section Gives
variable {Q : β → Prop}

theorem gives_pure {b : β} (h : Q b) : Gives Q (Pure.pure b : Prog τ ε σ β) := by
  rintro s b' s' hr
  obtain ⟨rfl, rfl⟩ := returns_pure.mp hr
  exact h

theorem gives_bind (hf : ∀ a, Gives Q (f a)) : Gives Q (m >>= f) := by
  rintro s b s' hr
  obtain ⟨a, t, -, hb⟩ := returns_bind.mp hr
  exact hf a t b s' hb

/-- What the first step returns carries over to the rest. -/
theorem gives_bind_of {P : α → Prop} (hm : Gives P m) (hf : ∀ a, P a → Gives Q (f a)) : Gives Q (m >>= f) := by
  rintro s b s' hr
  obtain ⟨a, t, ha, hb⟩ := returns_bind.mp hr
  exact hf a (hm s a t ha) t b s' hb

theorem gives_ite {c : Prop} [Decidable c] {n n' : Prog τ ε σ β} (hn : Gives Q n) (hn' : Gives Q n') :
    Gives Q (if c then n else n') := by
  split
  · exact hn
  · exact hn'

end Gives

/-! ### The states before and after a computation -/

/-- What makes a relation between states one for sequences of steps. -/
structure Composes (R : σ → σ → Prop) (S : ε → σ → σ → Prop) : Prop where
  refl : ∀ s, R s s
  trans : ∀ {s t u}, R s t → R t u → R s u
  stop : ∀ {e s t u}, R s t → S e t u → S e s u

section Relates
variable {R : σ → σ → Prop} {S : ε → σ → σ → Prop}

theorem Relates.of_returns (hm : Relates R S m) (h : Returns m s a s') : R s s' := by
  have hs := hm s
  rw [show (m s).2 = _ from h] at hs
  exact hs

theorem Relates.of_stop {e : ε} (hm : Relates R S m) (h : (m s).2 = .stop e s') : S e s s' := by
  have hs := hm s
  rw [h] at hs
  exact hs

/-- A relation that says nothing about a stop. -/
theorem relates_of_returns (h : ∀ s a s', Returns m s a s' → R s s') : Relates R (fun _ _ _ => True) m := by
  intro s
  rcases hs : (m s).2 with ⟨a, s'⟩ | ⟨e, s'⟩
  · exact h s a s' hs
  · trivial

theorem relates_pure (hc : Composes R S) : Relates R S (Pure.pure a : Prog τ ε σ α) := hc.refl

theorem relates_get (hc : Composes R S) : Relates R S (get : Prog τ ε σ σ) := hc.refl

theorem relates_emit (hc : Composes R S) {t : τ} : Relates R S (emit t : Prog τ ε σ Unit) := hc.refl

theorem relates_modify {g : σ → σ} (h : ∀ s, R s (g s)) : Relates R S (modify g : Prog τ ε σ Unit) := h

theorem relates_stop {e : ε} (h : ∀ s, S e s s) : Relates R S (stop e : Prog τ ε σ α) := h

theorem relates_stopIf (hc : Composes R S) {c : Prop} [Decidable c] {e : ε} (h : ∀ s, S e s s) :
    Relates R S (stopIf c e : Prog τ ε σ Unit) := by
  unfold stopIf
  split
  · exact relates_stop h
  · exact relates_pure hc

theorem relates_ofOption (hc : Composes R S) {e : ε} {x : Option α} (h : ∀ s, S e s s) :
    Relates R S (ofOption e x : Prog τ ε σ α) := by
  cases x
  · exact relates_stop h
  · exact relates_pure hc

theorem relates_bind (hc : Composes R S) (hm : Relates R S m) (hf : ∀ a, Relates R S (f a)) : Relates R S (m >>= f) := by
  intro s
  have hs := hm s
  change match (Prog.bind m f s).2 with | .ok _ s' => R s s' | .stop e s' => S e s s'
  unfold Prog.bind
  rcases hms : m s with ⟨t, ⟨a, u⟩ | ⟨e, u⟩⟩
  · rw [hms] at hs
    have hu := hf a u
    change match (f a u).2 with | .ok _ s' => R s s' | .stop e s' => S e s s'
    rcases hfu : f a u with ⟨t', ⟨b, v⟩ | ⟨e, v⟩⟩
    · rw [hfu] at hu
      exact hc.trans hs hu
    · rw [hfu] at hu
      exact hc.stop hs hu
  · rw [hms] at hs
    exact hs

theorem relates_ite {c : Prop} [Decidable c] {n : Prog τ ε σ α} (hm : Relates R S m) (hn : Relates R S n) :
    Relates R S (if c then m else n) := by
  split
  · exact hm
  · exact hn

theorem relates_tryCatch (hc : Composes R S) {p : ε → Bool} {h : Prog τ ε σ α} (hm : Relates R S m)
    (hh : Relates R S h) (hp : ∀ {e s t}, p e → S e s t → R s t) : Relates R S (tryCatch p m h) := by
  intro s
  have hs := hm s
  unfold tryCatch
  rcases hms : m s with ⟨t, ⟨a, u⟩ | ⟨e, u⟩⟩
  · rw [hms] at hs
    exact hs
  · rw [hms] at hs
    by_cases hpe : p e = true
    · simp only [if_pos hpe]
      have hu := hh u
      rcases hhu : h u with ⟨t', ⟨b, v⟩ | ⟨e', v⟩⟩
      · rw [hhu] at hu
        exact hc.trans (hp hpe hs) hu
      · rw [hhu] at hu
        exact hc.stop (hp hpe hs) hu
    · simp only [if_neg hpe]
      exact hs

end Relates

/-! ### The events of a computation -/

variable {P : τ → Prop}

@[simp] theorem always_pure : Always P (Pure.pure a : Prog τ ε σ α) s := nofun

@[simp] theorem always_get : Always P (get : Prog τ ε σ σ) s := nofun

@[simp] theorem always_modify {g : σ → σ} : Always P (modify g : Prog τ ε σ Unit) s := nofun

@[simp] theorem always_stop {e : ε} : Always P (stop e : Prog τ ε σ α) s := nofun

@[simp] theorem always_stopIf {c : Prop} [Decidable c] {e : ε} : Always P (stopIf c e : Prog τ ε σ Unit) s := by
  unfold stopIf
  split <;> nofun

@[simp] theorem always_lift {f : σ → Outcome ε σ α} : Always P (lift f : Prog τ ε σ α) s := nofun

@[simp] theorem always_emit {t : τ} : Always P (emit t : Prog τ ε σ Unit) s ↔ P t := by
  simp [Always, emit]

@[simp] theorem always_ofOption {e : ε} {x : Option α} : Always P (ofOption e x : Prog τ ε σ α) s := by
  cases x <;> nofun

@[simp] theorem always_bind :
    Always P (m >>= f) s ↔ Always P m s ∧ ∀ a t, Returns m s a t → Always P (f a) t := by
  change (∀ e ∈ (Prog.bind m f s).1, P e) ↔ (∀ e ∈ (m s).1, P e) ∧ ∀ a t, (m s).2 = _ → ∀ e ∈ (f a t).1, P e
  unfold Prog.bind
  rcases m s with ⟨l, a | e⟩
  · simp only [List.mem_append, Outcome.ok.injEq]
    constructor
    · rintro h
      refine ⟨fun e he => h e (.inl he), ?_⟩
      rintro a' t ⟨rfl, rfl⟩ e he
      exact h e (.inr he)
    · rintro ⟨h1, h2⟩ e (he | he)
      · exact h1 e he
      · exact h2 _ _ ⟨rfl, rfl⟩ e he
  · simp

/-- After a step that returns, the events are those of the step and of the rest. -/
theorem always_bind_of_returns (h : Returns m s a s') :
    Always P (m >>= f) s ↔ Always P m s ∧ Always P (f a) s' := by
  rw [always_bind]
  refine and_congr_right fun _ => ⟨fun hf => hf a s' h, fun hf a' t h' => ?_⟩
  obtain ⟨rfl, rfl⟩ := h.unique h'
  exact hf

/-! ### Computations that leave the same events -/

variable {kind : τ → Bool} {m' : Prog τ ε σ α} {f' : α → Prog τ ε σ β} {t : τ}

theorem same_refl : Same kind m m s := ⟨rfl, rfl⟩

theorem Same.symm (h : Same kind m m' s) : Same kind m' m s := ⟨h.outcome.symm, h.events.symm⟩

theorem Same.trans {m'' : Prog τ ε σ α} (h : Same kind m m' s) (h' : Same kind m' m'' s) : Same kind m m'' s :=
  ⟨h.outcome.trans h'.outcome, h.events.trans h'.events⟩

theorem same_bind (hm : Same kind m m' s) (hf : ∀ a t, Returns m s a t → Same kind (f a) (f' a) t) :
    Same kind (m >>= f) (m' >>= f') s := by
  obtain ⟨ho, he⟩ := hm
  change Same kind (Prog.bind m f) (Prog.bind m' f') s
  rcases hx : m s with ⟨l, ⟨a, u⟩ | ⟨e, u⟩⟩ <;> rcases hy : m' s with ⟨l', ⟨a', u'⟩ | ⟨e', u'⟩⟩ <;>
    rw [hx, hy] at ho he <;> cases ho <;> constructor <;> unfold Prog.bind <;> rw [hx, hy]
  · exact (hf a u (congrArg Prod.snd hx)).outcome
  · change (l ++ (f a u).1).filter kind = (l' ++ (f' a u).1).filter kind
    rw [List.filter_append, List.filter_append, (hf a u (congrArg Prod.snd hx)).events]
    exact congrArg (· ++ _) he
  · exact he

/-- What follows a step that returns. -/
theorem Same.of_bind (h : Same kind (m >>= f) (m >>= f') s) (hr : Returns m s a s') : Same kind (f a) (f' a) s' := by
  obtain ⟨ho, he⟩ := h
  change (Prog.bind m f s).2 = (Prog.bind m f' s).2 at ho
  change (Prog.bind m f s).1.filter kind = (Prog.bind m f' s).1.filter kind at he
  unfold Returns at hr
  unfold Prog.bind at ho he
  rcases hm : m s with ⟨l, o⟩
  rw [hm] at ho he hr
  change o = _ at hr
  subst hr
  refine ⟨ho, ?_⟩
  change (l ++ (f a s').1).filter kind = (l ++ (f' a s').1).filter kind at he
  rw [List.filter_append, List.filter_append] at he
  exact List.append_cancel_left he

/-- A step that returns without an event of the kind. -/
theorem same_pure (hr : Returns m s a s) (hq : Always (fun e => kind e = false) m s) : Same kind (Pure.pure a) m s where
  outcome := Eq.symm hr
  events := Eq.symm (List.filter_eq_nil_iff.mpr fun e he => by rw [hq e he]; decide)

/-- Computations that are the same have the same first event. -/
theorem Same.first (h : Same kind m m' s) (hm : First kind m s t) : First kind m' s t := by
  rw [First, ← h.events]
  exact hm

theorem First.unique {t' : τ} (h : First kind m s t) (h' : First kind m s t') : t' = t :=
  Option.some.inj (h'.symm.trans h)

theorem first_bind_left (h : First kind m s t) : First kind (m >>= f) s t := by
  change ((Prog.bind m f s).1.filter kind).head? = some t
  unfold First at h
  unfold Prog.bind
  rcases hm : m s with ⟨l, ⟨a, u⟩ | ⟨e, u⟩⟩ <;> rw [hm] at h
  · change ((l ++ (f a u).1).filter kind).head? = some t
    rw [List.filter_append, List.head?_append, h, Option.some_or]
  · exact h

/-- A step that returns without an event of the kind, and then the rest. -/
theorem first_bind_right (hr : Returns m s a s') (hq : Always (fun e => kind e = false) m s) (h : First kind (f a) s' t) :
    First kind (m >>= f) s t := by
  change ((Prog.bind m f s).1.filter kind).head? = some t
  unfold Returns at hr
  unfold Always at hq
  unfold Prog.bind
  rcases hm : m s with ⟨l, o⟩
  rw [hm] at hr hq
  change o = _ at hr
  subst hr
  change ((l ++ (f a s').1).filter kind).head? = some t
  have hnil : l.filter kind = [] := List.filter_eq_nil_iff.mpr fun e he => by rw [hq e he]; decide
  rw [List.filter_append, hnil, List.nil_append]
  exact h

/-! ### How a computation ends -/

variable {E : ε → Prop} {Q : β → σ → Prop}

theorem ends_of_returns {Q : α → σ → Prop} (h : Returns m s a s') (hQ : Q a s') : Ends E Q m s := by
  unfold Ends
  rw [show (m s).2 = .ok a s' from h]
  exact hQ

theorem Ends.of_returns {Q : α → σ → Prop} (h : Ends E Q m s) (hm : Returns m s a s') : Q a s' := by
  unfold Ends at h
  rw [show (m s).2 = .ok a s' from hm] at h
  exact h

theorem Ends.mono {Q Q' : α → σ → Prop} (h : Ends E Q m s) (hQ : ∀ a t, Q a t → Q' a t) : Ends E Q' m s := by
  unfold Ends at h ⊢
  rcases hm : (m s).2 with ⟨a, t⟩ | ⟨e, t⟩
  · rw [hm] at h
    exact hQ a t h
  · rw [hm] at h
    exact h

theorem ends_bind : Ends E Q (m >>= f) s ↔ Ends E (fun a t => Ends E Q (f a) t) m s := by
  change (match (Prog.bind m f s).2 with | .ok b t => Q b t | .stop e _ => E e) ↔ _
  unfold Prog.bind Ends
  rcases m s with ⟨t, a | e⟩ <;> exact Iff.rfl

theorem Ends.imp {E' : ε → Prop} {Q Q' : α → σ → Prop} (h : Ends E Q m s) (hE : ∀ e, E e → E' e)
    (hQ : ∀ a t, Q a t → Q' a t) : Ends E' Q' m s := by
  unfold Ends at h ⊢
  rcases hm : (m s).2 with ⟨a, t⟩ | ⟨e, t⟩
  · rw [hm] at h
    exact hQ a t h
  · rw [hm] at h
    exact hE e h

/-- A step that returns, and then the rest. -/
theorem Ends.and {E' : ε → Prop} {Q Q' : α → σ → Prop} (h : Ends E Q m s) (h' : Ends E' Q' m s) :
    Ends (fun e => E e ∧ E' e) (fun a t => Q a t ∧ Q' a t) m s := by
  unfold Ends at *
  split
  · rename_i heq
    rw [heq] at h h'
    exact ⟨h, h'⟩
  · rename_i heq
    rw [heq] at h h'
    exact ⟨h, h'⟩

/-- A program comes to something. -/
theorem Ends.elim {P : Prop} (h : Ends (fun _ => P) (fun _ _ => P) m s) : P := by
  unfold Ends at h
  split at h
  · exact h
  · exact h

/-- A program that has no reason to stop returns. -/
theorem Ends.returns {Q : α → σ → Prop} (h : Ends (fun _ => False) Q m s) : ∃ a t, Returns m s a t ∧ Q a t := by
  unfold Ends at h
  split at h
  · rename_i a t hm
    exact ⟨a, t, hm, h⟩
  · exact h.elim

theorem ends_bind_of_returns (h : Returns m s a s') (hf : Ends E Q (f a) s') : Ends E Q (m >>= f) s :=
  ends_bind.mpr (ends_of_returns h hf)

/-- A computation and what takes over from it. -/
theorem ends_tryCatch {p : ε → Bool} {h : Prog τ ε σ α} {Q : α → σ → Prop} (hok : ∀ a t, (m s).2 = .ok a t → Q a t)
    (hcatch : ∀ e t, (m s).2 = .stop e t → p e = true → Ends E Q h t)
    (hstop : ∀ e t, (m s).2 = .stop e t → p e = false → E e) : Ends E Q (tryCatch p m h) s := by
  unfold Ends tryCatch
  rcases hm : m s with ⟨l, ⟨a, t⟩ | ⟨e, t⟩⟩
  · exact hok a t (congrArg Prod.snd hm)
  · dsimp only
    cases hp : p e with
    | true =>
      simp only [↓reduceIte]
      exact hcatch e t (congrArg Prod.snd hm) hp
    | false =>
      simp only [Bool.false_eq_true, ↓reduceIte]
      exact hstop e t (congrArg Prod.snd hm) hp

/-- Where the reasons to stop are known, only what a computation returns matters. -/
theorem Ends.iff_returns {Q : α → σ → Prop} (hm : Ends E (fun _ _ => True) m s) :
    Ends E Q m s ↔ ∀ a t, Returns m s a t → Q a t := by
  unfold Ends at hm ⊢
  rcases hms : (m s).2 with ⟨a, t⟩ | ⟨e, t⟩
  · refine ⟨fun hQ a' t' hr => ?_, fun hall => hall a t hms⟩
    obtain ⟨rfl, rfl⟩ := Returns.unique hms hr
    exact hQ
  · rw [hms] at hm
    refine iff_of_true hm fun a t hr => ?_
    exact absurd (hms.symm.trans hr) (by simp)

@[simp] theorem ends_pure {Q : α → σ → Prop} : Ends E Q (Pure.pure a : Prog τ ε σ α) s ↔ Q a s := Iff.rfl

@[simp] theorem ends_get {Q : σ → σ → Prop} : Ends E Q (get : Prog τ ε σ σ) s ↔ Q s s := Iff.rfl

@[simp] theorem ends_modify {g : σ → σ} {Q : Unit → σ → Prop} : Ends E Q (modify g : Prog τ ε σ Unit) s ↔ Q () (g s) := Iff.rfl

@[simp] theorem ends_emit {t : τ} {Q : Unit → σ → Prop} : Ends E Q (emit t : Prog τ ε σ Unit) s ↔ Q () s := Iff.rfl

@[simp] theorem ends_stop {e : ε} {Q : α → σ → Prop} : Ends E Q (stop e : Prog τ ε σ α) s ↔ E e := Iff.rfl

theorem ends_lift {g : σ → Outcome ε σ α} {Q : α → σ → Prop} (hQ : ∀ a t, g s = .ok a t → Q a t)
    (hE : ∀ e t, g s = .stop e t → E e) : Ends E Q (lift g : Prog τ ε σ α) s := by
  unfold Ends lift
  dsimp only
  split
  · rename_i a t hg
    exact hQ a t hg
  · rename_i e t hg
    exact hE e t hg

@[simp] theorem ends_ite {c : Prop} [Decidable c] {m' : Prog τ ε σ α} {Q : α → σ → Prop} :
    Ends E Q (if c then m else m') s ↔ if c then Ends E Q m s else Ends E Q m' s := by
  split <;> exact Iff.rfl

theorem ends_stopIf {c : Prop} [Decidable c] {e : ε} {Q : Unit → σ → Prop} (hE : c → E e) (hQ : ¬c → Q () s) :
    Ends E Q (stopIf c e : Prog τ ε σ Unit) s := by
  unfold stopIf
  split
  · rename_i h
    exact hE h
  · rename_i h
    exact hQ h

/-! ### Values that a computation depends on -/

section Settles
variable {γ δ : Type} {x : Option γ} {Q : γ → α → σ → Prop}

theorem settles_of_returns {c : γ} (h : Returns m s a s') (hQ : Q c a s') : Settles m s (some c) Q := ⟨a, s', h, hQ⟩

theorem Settles.mono {Q' : γ → α → σ → Prop} (h : Settles m s x Q) (hQ : ∀ c a t, x = some c → Q c a t → Q' c a t) :
    Settles m s x Q' := by
  cases x with
  | none => exact h
  | some c =>
    obtain ⟨a, t, hr, hq⟩ := h
    exact ⟨a, t, hr, hQ c a t rfl hq⟩

theorem Settles.bind {g : γ → Option δ} {Q' : δ → β → σ → Prop} (h : Settles m s x Q)
    (hf : ∀ c a t, x = some c → Q c a t → Settles (f a) t (g c) Q') : Settles (m >>= f) s (x.bind g) Q' := by
  cases x with
  | none =>
    rintro b t hr
    obtain ⟨a, u, hm, -⟩ := returns_bind.mp hr
    exact h a u hm
  | some c =>
    obtain ⟨a, t, hr, hq⟩ := h
    have hnext := hf c a t rfl hq
    change Settles (m >>= f) s (g c) Q'
    cases hg : g c with
    | none =>
      rw [hg] at hnext
      rintro b u hru
      obtain ⟨a', t', hm, hb⟩ := returns_bind.mp hru
      obtain ⟨rfl, rfl⟩ := hr.unique hm
      exact hnext b u hb
    | some d =>
      rw [hg] at hnext
      obtain ⟨b, u, hb, hq'⟩ := hnext
      exact ⟨b, u, returns_bind.mpr ⟨a, t, hr, hb⟩, hq'⟩

theorem Settles.map {g : γ → δ} {Q' : δ → α → σ → Prop} (h : Settles m s x fun c => Q' (g c)) : Settles m s (x.map g) Q' := by
  cases x with
  | none => exact h
  | some c => exact h

/-- A step that returns, and then the rest. -/
theorem settles_bind_of_returns {Q : γ → β → σ → Prop} (hr : Returns m s a s') (h : Settles (f a) s' x Q) :
    Settles (m >>= f) s x Q := by
  cases x with
  | none =>
    intro b u hru
    obtain ⟨a', t, hm, hb⟩ := returns_bind.mp hru
    obtain ⟨rfl, rfl⟩ := hr.unique hm
    exact h b u hb
  | some c =>
    obtain ⟨b, u, hb, hq⟩ := h
    exact ⟨b, u, returns_bind.mpr ⟨a, s', hr, hb⟩, hq⟩

theorem Settles.congr {m' : Prog τ ε σ α} {t : σ} (hm : ∀ a u, Returns m' t a u ↔ Returns m s a u) (h : Settles m s x Q) :
    Settles m' t x Q := by
  cases x with
  | none => exact fun a u hr => h a u ((hm a u).mp hr)
  | some c =>
    obtain ⟨a, u, hr, hq⟩ := h
    exact ⟨a, u, (hm a u).mpr hr, hq⟩

/-- What holds after a computation that settles, if it returns at all. -/
theorem Settles.of_returns (h : Settles m s x Q) (hr : Returns m s a s') : ∃ c, x = some c ∧ Q c a s' := by
  cases x with
  | none => exact absurd hr (h a s')
  | some c =>
    obtain ⟨b, t, hb, hq⟩ := h
    obtain ⟨rfl, rfl⟩ := hb.unique hr
    exact ⟨c, rfl, hq⟩

end Settles

/-! ### Computations that follow others -/

theorem pure_then : (Pure.pure a >>= f : Prog τ ε σ β) = f a := rfl

theorem bind_then {γ : Type} {g : β → Prog τ ε σ γ} : m >>= f >>= g = m >>= fun a => f a >>= g := by
  funext s
  change Prog.bind (Prog.bind m f) g s = Prog.bind m (fun a => Prog.bind (f a) g) s
  unfold Prog.bind
  rcases m s with ⟨t, ⟨a, u⟩ | ⟨e, u⟩⟩
  · dsimp only
    rcases f a u with ⟨t', ⟨b, v⟩ | ⟨e, v⟩⟩
    · exact congrArg (·, _) (List.append_assoc ..)
    · rfl
  · rfl

/-- After a step that returns without events, there is only the rest. -/
theorem bind_of_returns (h : Returns m s a s') (hq : Always (fun _ => False) m s) : (m >>= f) s = f a s' := by
  change Prog.bind m f s = f a s'
  unfold Returns at h
  unfold Always at hq
  unfold Prog.bind
  rcases hm : m s with ⟨t, o⟩
  rw [hm] at h hq
  obtain rfl : t = [] := List.eq_nil_iff_forall_not_mem.mpr hq
  change o = _ at h
  subst h
  rfl

section Tracks
variable {m₀ p : Prog τ ε σ α} {m' q : Prog τ ε σ (Option α)} {f' : α → Prog τ ε σ (Option β)}

theorem tracks_pure : Tracks (Pure.pure a : Prog τ ε σ α) (Pure.pure (some a)) s := rfl

theorem tracks_none : Tracks m (Pure.pure none) s := List.nil_prefix

theorem tracks_congr (h : m s = p s) (h' : m' s = q s) (ht : Tracks p q s) : Tracks m m' s := by
  unfold Tracks at *
  rwa [h, h']

theorem tracks_bind (h : m s = m₀ s) (hf : ∀ a t, Returns m s a t → Tracks (f a) (f' a) t) :
    Tracks (m >>= f) (m₀ >>= f') s := by
  unfold Tracks
  change match Prog.bind m₀ f' s with
    | (t, .ok (some b) s') => Prog.bind m f s = (t, .ok b s')
    | (t, .ok none _) => t <+: (Prog.bind m f s).1
    | (t, .stop e s') => Prog.bind m f s = (t, .stop e s')
  unfold Prog.bind
  rw [← h]
  rcases hm : m s with ⟨t, ⟨a, u⟩ | ⟨e, u⟩⟩
  · have hau := hf a u (congrArg Prod.snd hm)
    unfold Tracks at hau
    dsimp only
    rcases hf' : f' a u with ⟨t', ⟨b | b, v⟩ | ⟨e, v⟩⟩ <;> rw [hf'] at hau
    · exact List.prefix_append_right_inj t |>.mpr hau
    · exact congrArg (fun x => (t ++ x.1, x.2)) hau
    · exact congrArg (fun x => (t ++ x.1, x.2)) hau
  · rfl

/-- The two do the same where nothing is given up. -/
theorem Tracks.eq (h : Tracks m m' s) (hne : ∀ t, ¬Returns m' s none t) : m' s = (some <$> m) s := by
  unfold Tracks at h
  change m' s = Prog.bind m (fun a => Prog.pure (some a)) s
  unfold Prog.bind
  rcases hm' : m' s with ⟨t, ⟨a | a, u⟩ | ⟨e, u⟩⟩ <;> rw [hm'] at h
  · exact absurd (congrArg Prod.snd hm') (hne u)
  · rw [h]
    exact congrArg (·, _) (List.append_nil t).symm
  · rw [h]

end Tracks

end Prog

end Library
