import Mathlib.Tactic.Common

/-! # Blocks that catch exceptions

Code with `try`, `catch` and `finally`, and what it means. The exception that was thrown last is kept beside the
state, as it is where exceptions are one global variable, and blocks nest up to a limit. -/

namespace Library

/-- How an action ends: with a throw `τ`, say. -/
inductive Effect (τ σ : Type) where
  | done (s : σ)
  | throws (x : τ) (s : σ)
  | aborts (s : σ)

mutual

/-- Code over a state `σ`, where `κ` are the kinds of exceptions that a clause names. A block that is nested too
    deep throws `deep`. -/
inductive TryCode (κ τ σ : Type) where
  | act (f : σ → Effect τ σ)
  | seq (a b : TryCode κ τ σ)
  | ifElse (p : σ → Bool) (a b : TryCode κ τ σ)
  | attempt (deep : τ) (body : TryCode κ τ σ) (clauses : TryClauses κ τ σ)

/-- The clauses after a `try`. -/
inductive TryClauses (κ τ σ : Type) where
  | done
  | catchAs (k : κ) (handler : TryCode κ τ σ) (rest : TryClauses κ τ σ)
  | finally (block : TryCode κ τ σ)

end

/-- Which exception a throw makes, which ones a clause names, and how deep blocks may nest. -/
structure Handling (κ τ ε : Type) where
  raise : τ → ε
  isInstance : ε → κ → Bool
  limit : Nat

/-- How code ends, with the exception that was thrown last. -/
inductive Ending (ε σ : Type) where
  | normal (last : ε) (s : σ)
  | thrown (last : ε) (s : σ)
  | aborts (last : ε) (s : σ)
  deriving DecidableEq

namespace Ending
variable {ε σ : Type}

/-- What follows where nothing was thrown. -/
def bind (r : Ending ε σ) (f : ε → σ → Ending ε σ) : Ending ε σ :=
  match r with
  | normal last s => f last s
  | r => r

/-- What follows where an exception was thrown. -/
def handle (r : Ending ε σ) (f : ε → σ → Ending ε σ) : Ending ε σ :=
  match r with
  | thrown last s => f last s
  | r => r

/-- What follows in both cases. An exception is thrown on after it. -/
def andFinally (r : Ending ε σ) (f : ε → σ → Ending ε σ) : Ending ε σ :=
  match r with
  | normal last s => f last s
  | thrown last s => (f last s).bind thrown
  | aborts last s => aborts last s

end Ending

variable {κ τ ε σ : Type} (H : Handling κ τ ε)

mutual

/-- What code does inside of `depth` blocks. -/
def TryCode.eval : TryCode κ τ σ → (depth : Nat) → ε → σ → Ending ε σ
  | .act f, _, last, s =>
    match f s with
    | .done s => .normal last s
    | .throws x s => .thrown (H.raise x) s
    | .aborts s => .aborts last s
  | .seq a b, depth, last, s => (a.eval depth last s).bind fun last s => b.eval depth last s
  | .ifElse p a b, depth, last, s => if p s then a.eval depth last s else b.eval depth last s
  | .attempt deep body clauses, depth, last, s =>
    if H.limit ≤ depth then .thrown (H.raise deep) s
    else
      ((body.eval (depth + 1) last s).handle fun last s => clauses.handler (depth + 1) last s).andFinally fun last s =>
        clauses.finish (depth + 1) last s

/-- The first clause that names the exception. -/
def TryClauses.handler : TryClauses κ τ σ → (depth : Nat) → ε → σ → Ending ε σ
  | .catchAs k handler rest, depth, last, s =>
    if H.isInstance last k then handler.eval depth last s else rest.handler depth last s
  | .done, _, last, s => .thrown last s
  | .finally _, _, last, s => .thrown last s

/-- The `finally` clause. -/
def TryClauses.finish : TryClauses κ τ σ → (depth : Nat) → ε → σ → Ending ε σ
  | .done, _, last, s => .normal last s
  | .catchAs _ _ rest, depth, last, s => rest.finish depth last s
  | .finally block, depth, last, s => block.eval depth last s

end

end Library
