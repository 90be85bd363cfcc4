import Mathlib.Data.BitVec
import Mathlib.Algebra.Order.Ring.Nat
import Mathlib.Tactic.Common
import Cyntatic.Library.Prog

/-! # Loops of programs

A loop is its pass, which says whether there is another one. The passes that it may make are a number; a program that
runs out of them stops for a reason of its own. -/

namespace Library

/-- What a pass of a loop ends in. -/
inductive Pass (β α : Type) where
  | again (b : β)
  | done (a : α)
  deriving DecidableEq

/-- What holds after a pass. -/
def Pass.Ensures {β α : Type} (I : β → Prop) (Q : α → Prop) : Pass β α → Prop
  | .again b => I b
  | .done a => Q a

namespace Prog

variable {τ ε σ α β γ : Type} {e : ε} {s s' : σ} {a : α} {b : β}

/-- A loop that carries a value from pass to pass. -/
def iterate (e : ε) (body : β → Prog τ ε σ (Pass β α)) : Nat → β → Prog τ ε σ α
  | 0, _ => stop e
  | n + 1, b => do
    match ← body b with
    | .again b => iterate e body n b
    | .done a => return a

theorem ends_iterate_done {E : ε → Prop} {Q : α → σ → Prop} {body : β → Prog τ ε σ (Pass β α)} {n : Nat}
    (h : Returns (body b) s (.done a) s') (hQ : Q a s') : Ends E Q (iterate e body (n + 1) b) s :=
  ends_bind_of_returns h hQ

theorem ends_iterate_again {E : ε → Prop} {Q : α → σ → Prop} {body : β → Prog τ ε σ (Pass β α)} {b' : β} {n : Nat}
    (h : Returns (body b) s (.again b') s') (hrest : Ends E Q (iterate e body n b') s') : Ends E Q (iterate e body (n + 1) b) s :=
  ends_bind_of_returns h hrest

/-! ### What every pass keeps -/

theorem relates_iterate {R : σ → σ → Prop} {S : ε → σ → σ → Prop} (hc : Composes R S) (hS : ∀ s, S e s s)
    {body : β → Prog τ ε σ (Pass β α)} (hbody : ∀ b, Relates R S (body b)) (n : Nat) (b : β) :
    Relates R S (iterate e body n b) := by
  induction n generalizing b with
  | zero => exact relates_stop hS
  | succ n ih =>
    refine relates_bind hc (hbody b) fun x => ?_
    cases x with
    | again b => exact ih b
    | done a => exact relates_pure hc

/-- An invariant of the carried value and the state. -/
theorem returns_iterate {I : β → σ → Prop} {Q : α → σ → Prop} {body : β → Prog τ ε σ (Pass β α)}
    (hbody : ∀ b s x s', I b s → Returns (body b) s x s' → x.Ensures (I · s') (Q · s')) {n : Nat} (hI : I b s) (h : Returns (iterate e body n b) s a s') : Q a s' := by
  induction n generalizing b s with
  | zero => exact absurd h returns_stop
  | succ n ih =>
    obtain ⟨x, t, hx, hrest⟩ := returns_bind.mp h
    have hstep := hbody b s x t hI hx
    cases x with
    | again b' => exact ih hstep hrest
    | done a' =>
      obtain ⟨rfl, rfl⟩ := returns_pure.mp hrest
      exact hstep

/-! ### Loops that end -/

/-- A loop ends if a measure goes down with each pass that is not the last. -/
theorem ends_iterate {E : ε → Prop} {Q : α → σ → Prop} {I : β → σ → Prop} (μ : β → σ → Nat)
    {body : β → Prog τ ε σ (Pass β α)}
    (hbody : ∀ b s, I b s →
      Ends E (fun x s' => x.Ensures (fun b' => I b' s' ∧ μ b' s' < μ b s) (Q · s')) (body b) s) {n : Nat} (hI : I b s) (hn : μ b s < n) : Ends E Q (iterate e body n b) s := by
  induction n generalizing b s with
  | zero => omega
  | succ n ih =>
    refine ends_bind.mpr ((hbody b s hI).mono fun x t hx => ?_)
    cases x with
    | again b' => exact ih hx.1 (by have := hx.2; omega)
    | done a => exact ends_of_returns (returns_pure.mpr ⟨rfl, rfl⟩) hx

/-- A loop of which every pass is followed by another one runs out of them. -/
theorem ends_iterate_forever {I : β → σ → Prop} {Q : α → σ → Prop} {body : β → Prog τ ε σ (Pass β α)}
    (hbody : ∀ b s, I b s → ∃ b' s', Returns (body b) s (.again b') s' ∧ I b' s') {n : Nat} (hI : I b s) :
    Ends (· = e) Q (iterate e body n b) s := by
  induction n generalizing b s with
  | zero => exact ends_stop.mpr rfl
  | succ n ih =>
    obtain ⟨b', t, hb, ht⟩ := hbody b s hI
    exact ends_iterate_again hb (ih ht)

end Prog

end Library
