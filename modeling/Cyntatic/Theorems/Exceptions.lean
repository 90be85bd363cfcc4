import Mathlib.Logic.Relation
import Cyntatic.Util.Exceptions
import Cyntatic.Theorems.AsmProgram
import Cyntatic.Theorems.Progress

/-! # Exceptions

The frames and jumps of `e4c.c` do what code with `try`, `catch` and `finally` means. -/

namespace Cyntatic
open Library

/-! ### Types of exceptions -/

namespace ExceptionTypes
variable {T : Type} (types : ExceptionTypes T)

/-- A type that is not a root, and its supertype. -/
def Parent (child parent : T) : Prop := types.supertype child = some parent ∧ parent ≠ child

/-- An exception is one of a type, or of one below it. -/
def Instance (err : E4cException T) (type : T) : Prop :=
  ∃ t, err.type = some t ∧ Relation.ReflTransGen types.Parent t type

variable [DecidableEq T] {types} {parent : T}

theorem extendsLoop_iff {n : Nat} {child : T} (h : types.rank child < n) :
    types.extendsLoop parent n (some child) = true ↔ Relation.TransGen types.Parent child parent := by
  induction n generalizing child with
  | zero => exact absurd h (Nat.not_lt_zero _)
  | succ n ih =>
    rw [extendsLoop, Relation.TransGen.head'_iff]
    rcases hs : types.supertype child with _ | t
    · cases n <;> simp [Parent, hs, extendsLoop]
    · by_cases hself : t = child
      · simp [Parent, hs, hself]
      have hlt : types.rank t < n := by have := types.rank_lt hs hself; omega
      have hstep : (∃ u, types.Parent child u ∧ Relation.ReflTransGen types.Parent u parent) ↔
          Relation.ReflTransGen types.Parent t parent := by
        simp [Parent, hs, hself]
      rw [hstep, if_neg (by simpa using hself), Relation.reflTransGen_iff_eq_or_transGen, ← ih hlt]
      by_cases ht : t = parent
      · simp [ht]
      · simp [ht, Ne.symm ht]

/-- `E4C_IS_INSTANCE_OF` goes up from the type of an exception. -/
theorem isInstanceOf_iff {err : E4cException T} {type : T} :
    types.isInstanceOf err type = true ↔ types.Instance err type := by
  unfold isInstanceOf e4cExtends Instance
  rcases err.type with _ | t
  · simp [extendsLoop]
  · have h : types.rank t < ((some t).map types.rank).getD 0 + 1 := Nat.lt_succ_self _
    rw [Bool.or_eq_true, decide_eq_true_iff, extendsLoop_iff h]
    simp [Relation.reflTransGen_iff_eq_or_transGen, eq_comm]

end ExceptionTypes

/-! ### Contexts -/

namespace E4cContext
variable {T σ : Type} {types : ExceptionTypes T} {id : Nat} {a b c : E4cContext T} {f : E4cFrame} {s : σ}

@[simp] theorem top_setTop : (c.setTop f).top = f := Function.update_self ..
@[simp] theorem frames_setTop : (c.setTop f).frames = c.frames := rfl
@[simp] theorem jump_setTop : (c.setTop f).jump = c.jump := rfl
@[simp] theorem err_setTop : (c.setTop f).err = c.err := rfl
@[simp] theorem setTop_setTop {g : E4cFrame} : (c.setTop f).setTop g = c.setTop g := by
  simp [setTop]

theorem frame_setTop {i : Int} (h : i < c.frames) : (c.setTop f).frame i = c.frame i :=
  Function.update_of_ne (by omega) ..

/-- The frames and jumps of the blocks around are the same. -/
structure Kept (a b : E4cContext T) : Prop where
  frames : b.frames = a.frames
  frame : ∀ i < a.frames, b.frame i = a.frame i
  jump : ∀ i < a.frames, b.jump i = a.jump i

theorem Kept.refl (a : E4cContext T) : Kept a a := ⟨rfl, fun _ _ => rfl, fun _ _ => rfl⟩

theorem Kept.trans (h : Kept a b) (h' : Kept b c) : Kept a c where
  frames := h'.frames.trans h.frames
  frame i hi := (h'.frame i (h.frames ▸ hi)).trans (h.frame i hi)
  jump i hi := (h'.jump i (h.frames ▸ hi)).trans (h.jump i hi)

theorem kept_setTop : Kept a (a.setTop f) := ⟨rfl, fun _ hi => frame_setTop hi, fun _ _ => rfl⟩

theorem Kept.inFrames (h : Kept a b) (ha : a.InFrames) : b.InFrames := by
  unfold InFrames at ha ⊢
  rw [h.frames]
  exact ha

/-- `b` is inside of the block that the `setjmp` with number `id` started in `a`. -/
structure Inside (id : Nat) (a b : E4cContext T) : Prop where
  frames : b.frames = a.frames + 1
  frame : ∀ i ≤ a.frames, b.frame i = a.frame i
  jump : ∀ i < a.frames, b.jump i = a.jump i
  own : b.jump a.frames = id

theorem top_enter : a.enter.setjmp.top = ⟨e4cBeginning, false⟩ := Function.update_self ..

theorem inside_enter : Inside a.setjmps a a.enter.setjmp where
  frames := rfl
  frame i hi := Function.update_of_ne (by change i ≠ a.frames + 1; omega) ..
  jump i hi := Function.update_of_ne (by change i ≠ a.frames + 1 - 1; omega) ..
  own := by
    change Function.update a.jump (a.frames + 1 - 1) _ a.frames = _
    rw [show a.frames + 1 - 1 = a.frames by omega, Function.update_self]
    rfl

theorem Inside.kept (h : Inside id a b) (h' : Kept b c) : Inside id a c where
  frames := h'.frames.trans h.frames
  frame i hi := (h'.frame i (by rw [h.frames]; omega)).trans (h.frame i hi)
  jump i hi := (h'.jump i (by rw [h.frames]; omega)).trans (h.jump i hi)
  own := (h'.jump _ (by rw [h.frames]; omega)).trans h.own

theorem Inside.setTop (h : Inside id a b) : Inside id a (b.setTop f) := h.kept kept_setTop

theorem Inside.inFrames (h : Inside id a b) (ha : a.InFrames) (hlt : a.frames < maxFrames) : b.InFrames := by
  unfold InFrames at ha ⊢
  rw [h.frames]
  omega

/-- The context after the block. -/
theorem Inside.left (h : Inside id a b) : Kept a b.leave where
  frames := by
    change b.frames - 1 = a.frames
    rw [h.frames]
    omega
  frame i hi := h.frame i hi.le
  jump i hi := h.jump i hi

theorem Inside.top_leave (h : Inside id a b) : b.leave.top = a.top := by
  change b.frame (b.frames - 1) = a.frame a.frames
  rw [h.frames, show a.frames + 1 - 1 = a.frames by omega, h.frame _ le_rfl]

/-! ### Where control goes -/

theorem propagate_pos (h : c.InFrames) (hpos : 0 < c.frames) :
    c.propagate types s = .jumps (c.jump (c.frames - 1)) (c.setTop { c.top with uncaught := true }) s := by
  rw [propagate, if_pos h]
  exact if_pos hpos

theorem propagate_zero {type : T} (h : c.InFrames) (hzero : c.frames = 0) (htype : c.err.type = some type) :
    c.propagate types s = .exits (types.uncaughtText c.err type) (c.setTop { c.top with uncaught := true }) s := by
  rw [propagate, if_pos h]
  simp [hzero, htype]

theorem propagate_then {f : E4cContext T → σ → Flow T σ} :
    (match c.propagate types s with
      | .ends c s => f c s
      | flow => flow) = c.propagate types s := by
  unfold propagate
  grind

/-- A throw inside of a block goes to the block. -/
theorem Inside.propagate (h : Inside id a b) (ha : a.InFrames) (hlt : a.frames < maxFrames) :
    b.propagate types s = .jumps id (b.setTop { b.top with uncaught := true }) s := by
  have hframes := h.frames
  have ha0 := ha.1
  rw [propagate_pos (h.inFrames ha hlt) (by omega), show b.frames - 1 = a.frames by omega, h.own]

/-- Control goes on in the loop of a block. -/
def Comes (id : Nat) (flow : Flow T σ) (c : E4cContext T) (s : σ) : Prop := flow = .ends c s ∨ flow = .jumps id c s

theorem tryLoop_comes {round : E4cContext T → σ → Flow T σ} {n : Nat} {s' : σ} (hhook : a.hook types s = .inr (true, b))
    (h : Comes id (round b s) c s') : tryLoop types id round (n + 1) a s = tryLoop types id round n c s' := by
  rw [tryLoop, hhook]
  rcases h with h | h <;> simp [h]

theorem tryLoop_aborts {round : E4cContext T → σ → Flow T σ} {n : Nat} {s' : σ} (hhook : a.hook types s = .inr (true, b))
    (h : round b s = .aborts c s') : tryLoop types id round (n + 1) a s = .aborts c s' := by
  rw [tryLoop, hhook]
  simp [h]

theorem hook_next {stage : U8} {u : Bool} (h : c.InFrames) (htop : c.top = ⟨stage, u⟩)
    (hnext : nextStage ⟨stage, u⟩ < e4cDone) : c.hook types s = .inr (true, c.setTop ⟨nextStage ⟨stage, u⟩, u⟩) := by
  rw [hook, if_pos h]
  simp [htop, hnext]

theorem hook_done {stage : U8} {u : Bool} (h : c.InFrames) (htop : c.top = ⟨stage, u⟩)
    (hnext : ¬nextStage ⟨stage, u⟩ < e4cDone) :
    c.hook types s =
      if u then .inl ((c.setTop ⟨nextStage ⟨stage, u⟩, u⟩).leave.propagate types s)
      else .inr (false, (c.setTop ⟨nextStage ⟨stage, u⟩, u⟩).leave) := by
  rw [hook, if_pos h]
  simp [htop, hnext]

end E4cContext

/-! ### What code means -/

/-- What the exceptions of the macros are. -/
noncomputable def ExceptionTypes.handling {T : Type} (types : ExceptionTypes T) :
    Handling T (ThrowArgs T) (E4cException T) where
  raise := types.raise
  isInstance err type := @decide (types.Instance err type) (Classical.dec _)
  limit := maxFrames.toNat

namespace E4cContext
variable {T σ : Type} {types : ExceptionTypes T} {a b c : E4cContext T} {s : σ}

/-- Control goes where code that ends in some way takes it. -/
def Agrees (types : ExceptionTypes T) (a : E4cContext T) (flow : Flow T σ) : Ending (E4cException T) σ → Prop
  | .normal last s => ∃ b, flow = .ends b s ∧ b.err = last ∧ Kept a b ∧ b.top = a.top
  | .thrown last s => ∃ b, flow = b.propagate types s ∧ b.err = last ∧ Kept a b ∧ b.top.stage = a.top.stage
  | .aborts last s => ∃ b, flow = .aborts b s ∧ b.err = last

theorem agrees_throw {x : ThrowArgs T} : Agrees types a (a.throw types x s) (.thrown (types.raise x) s) :=
  ⟨{ a with err := types.raise x }, rfl, rfl, ⟨rfl, fun _ _ => rfl, fun _ _ => rfl⟩, rfl⟩

theorem Agrees.of_kept {flow : Flow T σ} {r : Ending (E4cException T) σ} (h : Kept a b) (htop : b.top = a.top)
    (hb : Agrees types b flow r) : Agrees types a flow r := by
  cases r with
  | normal last s =>
    obtain ⟨c, hflow, herr, hk, ht⟩ := hb
    exact ⟨c, hflow, herr, h.trans hk, ht.trans htop⟩
  | thrown last s =>
    obtain ⟨c, hflow, herr, hk, ht⟩ := hb
    exact ⟨c, hflow, herr, h.trans hk, ht.trans (by rw [htop])⟩
  | aborts last s => exact hb

/-- The end of a round of the loop of a block, where `stage` is that of the round, and `uncaught` what its frame has
    if nothing is thrown. -/
def Round (id : Nat) (a : E4cContext T) (stage : U8) (uncaught : Bool) (flow : Flow T σ) :
    Ending (E4cException T) σ → Prop
  | .normal last s => ∃ b, Comes id flow b s ∧ b.err = last ∧ Inside id a b ∧ b.top = ⟨stage, uncaught⟩
  | .thrown last s => ∃ b, Comes id flow b s ∧ b.err = last ∧ Inside id a b ∧ b.top = ⟨stage, true⟩
  | .aborts last s => ∃ b, flow = .aborts b s ∧ b.err = last

section
variable {id n : Nat} {stage : U8} {u : Bool} {flow : Flow T σ} {r : Ending (E4cException T) σ}
  {body : E4cContext T → σ → Flow T σ} {finish : E4cException T → σ → Ending (E4cException T) σ}

theorem Agrees.round (h : Agrees types b flow r) (ha : a.InFrames) (hlt : a.frames < maxFrames) (hb : Inside id a b)
    (htop : b.top = ⟨stage, u⟩) : Round id a stage u flow r := by
  cases r with
  | normal last s =>
    obtain ⟨c, hflow, herr, hk, ht⟩ := h
    exact ⟨c, .inl hflow, herr, hb.kept hk, ht.trans htop⟩
  | thrown last s =>
    obtain ⟨c, hflow, herr, hk, ht⟩ := h
    have hc := hb.kept hk
    refine ⟨_, .inr (hflow.trans (hc.propagate ha hlt)), herr, hc.setTop, ?_⟩
    rw [top_setTop]
    change E4cFrame.mk c.top.stage true = _
    rw [ht, htop]
  | aborts last s => exact h

/-- After the last round, an exception that is not caught is thrown on. -/
theorem loop_done (ha : a.InFrames) (hlt : a.frames < maxFrames) (hb : Inside id a b) (htop : b.top = ⟨e4cFinalizing, u⟩) :
    Agrees types a (tryLoop types id body (n + 1) b s) (if u then .thrown b.err s else .normal b.err s) := by
  have hin : Inside id a (b.setTop ⟨e4cDone, u⟩) := hb.setTop
  rw [tryLoop, hook_done (hb.inFrames ha hlt) htop (by cases u <;> decide)]
  cases u with
  | true => exact ⟨_, rfl, rfl, hin.left, congrArg E4cFrame.stage hin.top_leave⟩
  | false => exact ⟨_, rfl, rfl, hin.left, hin.top_leave⟩

/-- The last two rounds: the `finally` clause, and what follows. -/
theorem loop_finish (ha : a.InFrames) (hlt : a.frames < maxFrames) (hb : Inside id a b) (htop : b.top = ⟨stage, u⟩)
    (hnext : nextStage ⟨stage, u⟩ = e4cFinalizing)
    (hbody : ∀ c s, Inside id a c → c.top = ⟨e4cFinalizing, u⟩ → Round id a e4cFinalizing u (body c s) (finish c.err s)) :
    Agrees types a (tryLoop types id body (n + 2) b s) (if u then (finish b.err s).bind .thrown else finish b.err s) := by
  have hhook := @hook_next _ _ types _ s _ _ (hb.inFrames ha hlt) htop (by rw [hnext]; decide)
  rw [hnext] at hhook
  have hr := hbody _ s hb.setTop top_setTop
  rw [err_setTop] at hr
  cases hf : finish b.err s with
  | normal last s' =>
    rw [hf] at hr
    obtain ⟨c, hcomes, rfl, hc, ht⟩ := hr
    rw [tryLoop_comes hhook hcomes]
    exact loop_done ha hlt hc ht
  | thrown last s' =>
    rw [hf] at hr
    obtain ⟨c, hcomes, rfl, hc, ht⟩ := hr
    rw [tryLoop_comes hhook hcomes]
    have hdone : Agrees types a (tryLoop types id body (n + 1) c s') _ := loop_done ha hlt hc ht
    simpa [Ending.bind] using hdone
  | aborts last s' =>
    rw [hf] at hr
    obtain ⟨c, hcomes, rfl⟩ := hr
    rw [tryLoop_aborts hhook hcomes]
    cases u <;> exact ⟨c, rfl, rfl⟩

/-- The last three rounds, after an exception: the `catch` clauses come first. -/
theorem loop_caught {handler : E4cException T → σ → Ending (E4cException T) σ} (ha : a.InFrames)
    (hlt : a.frames < maxFrames) (hb : Inside id a b) (htop : b.top = ⟨e4cTrying, true⟩)
    (hcatch : ∀ c s, Inside id a c → c.top = ⟨e4cCatching, true⟩ →
      Round id a e4cCatching false (body c s) (handler c.err s))
    (hbody : ∀ u c s, Inside id a c → c.top = ⟨e4cFinalizing, u⟩ →
      Round id a e4cFinalizing u (body c s) (finish c.err s)) :
    Agrees types a (tryLoop types id body 3 b s) ((handler b.err s).andFinally finish) := by
  have hhook := @hook_next _ _ types _ s _ _ (hb.inFrames ha hlt) htop (by decide)
  have hr := hcatch (b.setTop ⟨e4cCatching, true⟩) s hb.setTop top_setTop
  rw [err_setTop] at hr
  cases hf : handler b.err s with
  | normal last s' =>
    rw [hf] at hr
    obtain ⟨c, hcomes, rfl, hc, ht⟩ := hr
    rw [tryLoop_comes hhook hcomes]
    exact loop_finish ha hlt hc ht rfl (hbody false)
  | thrown last s' =>
    rw [hf] at hr
    obtain ⟨c, hcomes, rfl, hc, ht⟩ := hr
    rw [tryLoop_comes hhook hcomes]
    exact loop_finish ha hlt hc ht rfl (hbody true)
  | aborts last s' =>
    rw [hf] at hr
    obtain ⟨c, hcomes, rfl⟩ := hr
    exact ⟨c, tryLoop_aborts hhook hcomes, rfl⟩

end

/-- What is thrown has a type. -/
def Typed : Ending (E4cException T) σ → Bool → Prop
  | .normal last _, before => before = true → last.type.isSome = true
  | .thrown last _, _ => last.type.isSome = true
  | .aborts _ _, _ => True

section
variable {r : Ending (E4cException T) σ} {f : E4cException T → σ → Ending (E4cException T) σ} {before before' : Bool}

theorem Typed.mono (h : Typed r before) (hb : before' = true → before = true) : Typed r before' := by
  cases r with
  | normal last s => exact fun hb' => h (hb hb')
  | thrown last s => exact h
  | aborts last s => trivial

theorem Typed.bind (h : Typed r before) (hf : ∀ last s, Typed (f last s) last.type.isSome) : Typed (r.bind f) before := by
  cases r with
  | normal last s => exact (hf last s).mono h
  | thrown last s => exact h
  | aborts last s => trivial

theorem Typed.handle (h : Typed r before) (hf : ∀ last s, last.type.isSome = true → Typed (f last s) true) :
    Typed (r.handle f) before := by
  cases r with
  | normal last s => exact h
  | thrown last s => exact (hf last s h).mono fun _ => rfl
  | aborts last s => trivial

theorem Typed.andFinally (h : Typed r before) (hf : ∀ last s, Typed (f last s) last.type.isSome) :
    Typed (r.andFinally f) before := by
  cases r with
  | normal last s => exact (hf last s).mono h
  | thrown last s =>
    have hl : Typed (f last s) true := (hf last s).mono fun _ => h
    change Typed ((f last s).bind .thrown) before
    cases hfs : f last s with
    | normal last' s' => exact (hfs ▸ hl : Typed (.normal last' s') true) rfl
    | thrown last' s' => exact (hfs ▸ hl : Typed (.thrown last' s') true)
    | aborts last' s' => trivial
  | aborts last s => trivial

end

mutual

theorem typed_eval (code : TryCode T (ThrowArgs T) σ) (depth : Nat) (last : E4cException T) (s : σ) :
    Typed (code.eval types.handling depth last s) last.type.isSome := by
  match code with
  | .act f =>
    rw [TryCode.eval]
    cases f s with
    | done s => exact id
    | throws x s => rfl
    | aborts s => trivial
  | .seq x y =>
    rw [TryCode.eval]
    exact (typed_eval x depth last s).bind (typed_eval y depth)
  | .ifElse p x y =>
    rw [TryCode.eval]
    split
    · exact typed_eval x depth last s
    · exact typed_eval y depth last s
  | .attempt deep body clauses =>
    rw [TryCode.eval]
    split
    · exact rfl
    · exact ((typed_eval body (depth + 1) last s).handle (typed_handler clauses (depth + 1))).andFinally
        (typed_finish clauses (depth + 1))

theorem typed_handler (clauses : TryClauses T (ThrowArgs T) σ) (depth : Nat) (last : E4cException T) (s : σ)
    (h : last.type.isSome = true) : Typed (clauses.handler types.handling depth last s) true := by
  match clauses with
  | .done => exact h
  | .catchAs type handler rest =>
    rw [TryClauses.handler]
    split
    · exact (typed_eval handler depth last s).mono fun _ => h
    · exact typed_handler rest depth last s h
  | .finally block => exact h

theorem typed_finish (clauses : TryClauses T (ThrowArgs T) σ) (depth : Nat) (last : E4cException T) (s : σ) :
    Typed (clauses.finish types.handling depth last s) last.type.isSome := by
  match clauses with
  | .done => exact id
  | .catchAs type handler rest => exact typed_finish rest depth last s
  | .finally block => exact typed_eval block depth last s

end

variable [DecidableEq T]

mutual

theorem exec_agrees (code : TryCode T (ThrowArgs T) σ) (a : E4cContext T) (ha : a.InFrames) (s : σ) :
    Agrees types a (exec types code a s) (code.eval types.handling a.frames.toNat a.err s) := by
  match code with
  | .act f =>
    rw [exec, TryCode.eval]
    cases f s with
    | done s => exact ⟨a, rfl, rfl, .refl a, rfl⟩
    | throws x s => exact agrees_throw
    | aborts s => exact ⟨a, rfl, rfl⟩
  | .seq x y =>
    have hx := exec_agrees x a ha s
    rw [exec, TryCode.eval]
    cases hr : x.eval types.handling a.frames.toNat a.err s with
    | normal last s' =>
      rw [hr] at hx
      obtain ⟨b, hflow, rfl, hk, htop⟩ := hx
      rw [hflow]
      have hy := exec_agrees y b (hk.inFrames ha) s'
      rw [hk.frames] at hy
      exact hy.of_kept hk htop
    | thrown last s' =>
      rw [hr] at hx
      obtain ⟨b, hflow, herr, hk, htop⟩ := hx
      refine ⟨b, ?_, herr, hk, htop⟩
      rw [hflow]
      exact propagate_then
    | aborts last s' =>
      rw [hr] at hx
      obtain ⟨b, hflow, herr⟩ := hx
      exact ⟨b, by rw [hflow], herr⟩
  | .ifElse p x y =>
    rw [exec, TryCode.eval]
    split
    · exact exec_agrees x a ha s
    · exact exec_agrees y a ha s
  | .attempt deep body clauses =>
    rw [exec, TryCode.eval]
    have hlimit : types.handling.limit ≤ a.frames.toNat ↔ maxFrames ≤ a.frames := by
      have := ha.1
      change maxFrames.toNat ≤ a.frames.toNat ↔ _
      unfold maxFrames
      omega
    by_cases hlt : maxFrames ≤ a.frames
    · rw [if_pos hlt, if_pos (hlimit.mpr hlt)]
      exact agrees_throw
    rw [if_neg hlt, if_neg (mt hlimit.mp hlt)]
    replace hlt := not_le.mp hlt
    have hdepth {c : E4cContext T} (hc : Inside a.setjmps a c) : c.frames.toNat = a.frames.toNat + 1 := by
      have := ha.1
      rw [hc.frames]
      omega
    have hin := inside_enter (a := a)
    have hhook : hook types a.enter.setjmp s = .inr (true, a.enter.setjmp.setTop ⟨e4cTrying, false⟩) :=
      hook_next (hin.inFrames ha hlt) top_enter (by decide)
    have hstage : (a.enter.setjmp.setTop ⟨e4cTrying, false⟩).top.stage = e4cTrying := by rw [top_setTop]
    have hbody := exec_agrees body (a.enter.setjmp.setTop ⟨e4cTrying, false⟩) (hin.setTop.inFrames ha hlt) s
    have hround := hbody.round ha hlt hin.setTop top_setTop
    rw [hdepth hin.setTop] at hround
    have hcatch (c : E4cContext T) (s : σ) (hc : Inside a.setjmps a c) (ht : c.top = ⟨e4cCatching, true⟩) :
        Round a.setjmps a e4cCatching false
          (if c.top.stage = e4cTrying then exec types body c s else execClauses types clauses c s)
          (clauses.handler types.handling (a.frames.toNat + 1) c.err s) := by
      rw [ht, if_neg (by decide), ← hdepth hc]
      exact handler_round clauses ha hlt hc ht s
    have hfinish (u : Bool) (c : E4cContext T) (s : σ) (hc : Inside a.setjmps a c) (ht : c.top = ⟨e4cFinalizing, u⟩) :
        Round a.setjmps a e4cFinalizing u
          (if c.top.stage = e4cTrying then exec types body c s else execClauses types clauses c s)
          (clauses.finish types.handling (a.frames.toNat + 1) c.err s) := by
      rw [ht, if_neg (by change ¬e4cFinalizing = e4cTrying; decide), ← hdepth hc]
      exact finish_round clauses ha hlt hc ht s
    change Round _ _ _ _ _ (body.eval types.handling (a.frames.toNat + 1) a.err s) at hround
    cases hr : body.eval types.handling (a.frames.toNat + 1) a.err s with
    | normal last s' =>
      rw [hr] at hround
      obtain ⟨c, hcomes, rfl, hc, ht⟩ := hround
      rw [tryLoop_comes hhook (by rwa [if_pos hstage])]
      exact loop_finish ha hlt hc ht rfl (hfinish false)
    | thrown last s' =>
      rw [hr] at hround
      obtain ⟨c, hcomes, rfl, hc, ht⟩ := hround
      rw [tryLoop_comes hhook (by rwa [if_pos hstage])]
      exact loop_caught ha hlt hc ht hcatch hfinish
    | aborts last s' =>
      rw [hr] at hround
      obtain ⟨c, hcomes, herr⟩ := hround
      exact ⟨c, tryLoop_aborts hhook (by rwa [if_pos hstage]), herr⟩

theorem handler_round (clauses : TryClauses T (ThrowArgs T) σ) {id : Nat} {a b : E4cContext T} (ha : a.InFrames)
    (hlt : a.frames < maxFrames) (hb : Inside id a b) (htop : b.top = ⟨e4cCatching, true⟩) (s : σ) :
    Round id a e4cCatching false (execClauses types clauses b s)
      (clauses.handler types.handling b.frames.toNat b.err s) := by
  match clauses with
  | .done => exact ⟨b, .inl rfl, rfl, hb, htop⟩
  | .catchAs type handler rest =>
    rw [execClauses, TryClauses.handler]
    by_cases hi : types.isInstanceOf b.err type = true
    · rw [if_pos ⟨by rw [htop], hi⟩, if_pos (by simpa [ExceptionTypes.handling] using ExceptionTypes.isInstanceOf_iff.mp hi)]
      have h := exec_agrees handler b.hookCatch (hb.setTop.inFrames ha hlt) s
      exact h.round ha hlt hb.setTop (by rw [hookCatch, top_setTop, htop])
    · rw [if_neg (fun h => hi h.2),
        if_neg (by simpa [ExceptionTypes.handling] using fun h => hi (ExceptionTypes.isInstanceOf_iff.mpr h))]
      exact handler_round rest ha hlt hb htop s
  | .finally block =>
    rw [execClauses, htop]
    exact ⟨b, .inl rfl, rfl, hb, htop⟩

theorem finish_round (clauses : TryClauses T (ThrowArgs T) σ) {id : Nat} {a b : E4cContext T} (ha : a.InFrames)
    (hlt : a.frames < maxFrames) (hb : Inside id a b) {u : Bool} (htop : b.top = ⟨e4cFinalizing, u⟩) (s : σ) :
    Round id a e4cFinalizing u (execClauses types clauses b s)
      (clauses.finish types.handling b.frames.toNat b.err s) := by
  match clauses with
  | .done => exact ⟨b, .inl rfl, rfl, hb, htop⟩
  | .catchAs type handler rest =>
    rw [execClauses, TryClauses.finish, 
      if_neg (by rw [htop]; exact fun h => absurd h.1 (by change ¬e4cFinalizing = e4cCatching; decide))]
    exact finish_round rest ha hlt hb htop s
  | .finally block =>
    rw [execClauses, TryClauses.finish, if_pos (by rw [htop])]
    exact (exec_agrees block b (hb.inFrames ha hlt) s).round ha hlt hb htop

end

/-- Code with blocks, in any context of the frames, goes where its meaning as `try`, `catch` and `finally` says: it ends
    in the same frame, or it jumps to the block around it, or, where there is none, the exit with the text of the
    exception. The frames and jumps of the blocks around are as before. -/
theorem exec_structured (types : ExceptionTypes T) (code : TryCode T (ThrowArgs T) σ) (e4c : E4cContext T)
    (h : e4c.InFrames) (s : σ) :
    match code.eval types.handling e4c.frames.toNat e4c.err s with
    | .normal last s' => ∃ e4c', exec types code e4c s = .ends e4c' s' ∧ e4c'.err = last ∧ Kept e4c e4c' ∧
        e4c'.top = e4c.top
    | .thrown last s' => ∃ e4c', e4c'.err = last ∧ Kept e4c e4c' ∧ e4c'.top = ⟨e4c.top.stage, true⟩ ∧
        (0 < e4c.frames → exec types code e4c s = .jumps (e4c.jump (e4c.frames - 1)) e4c' s') ∧
        (e4c.frames = 0 → ∃ type, last.type = some type ∧
          exec types code e4c s = .exits (types.uncaughtText last type) e4c' s')
    | .aborts last s' => ∃ e4c', exec types code e4c s = .aborts e4c' s' ∧ e4c'.err = last := by
  have hagrees : Agrees types e4c (exec types code e4c s) _ := exec_agrees code e4c h s
  have htyped : Typed (code.eval types.handling e4c.frames.toNat e4c.err s) _ := typed_eval code _ _ s
  cases hr : code.eval types.handling e4c.frames.toNat e4c.err s with
  | normal last s' =>
    rw [hr] at hagrees
    exact hagrees
  | thrown last s' =>
    rw [hr] at hagrees htyped
    obtain ⟨c, hflow, rfl, hk, hstage⟩ := hagrees
    refine ⟨c.setTop { c.top with uncaught := true }, rfl, hk.trans kept_setTop, ?_, fun hpos => ?_, fun hzero => ?_⟩
    · rw [top_setTop, ← hstage]
    · rw [hflow, propagate_pos (hk.inFrames h) (hk.frames ▸ hpos), hk.frames, hk.jump _ (by omega)]
    · obtain ⟨type, htype⟩ := Option.isSome_iff_exists.mp htyped
      refine ⟨type, htype, ?_⟩
      rw [hflow, propagate_zero (hk.inFrames h) (hk.frames.trans hzero) htype]
  | aborts last s' =>
    rw [hr] at hagrees
    exact hagrees

/-- A `finally` clause inside of a block that catches the exception. -/
def nestedBlocks : TryCode ExceptionType (ThrowArgs ExceptionType) Nat :=
  .attempt (tooMany exceptionTypes none 1)
    (.attempt (tooMany exceptionTypes none 2)
      (.act fun s => .throws ⟨some .itpException, none, 3, some []⟩ s)
      (.finally (.act fun s => .done (s + 1))))
    (.catchAs .runtimeException (.act fun s => .done (s + 10)) .done)

theorem exec_structured_nested : ∃ e4c : E4cContext ExceptionType,
    exec exceptionTypes nestedBlocks {} 0 = .ends e4c 11 ∧ e4c.frames = 0 := by
  have h := exec_structured exceptionTypes nestedBlocks {} (by decide) 0
  have hinst : exceptionTypes.Instance (exceptionTypes.raise ⟨some .itpException, none, 3, some []⟩) .runtimeException :=
    ⟨.itpException, rfl, .single ⟨rfl, by decide⟩⟩
  have heval : nestedBlocks.eval exceptionTypes.handling ({} : E4cContext ExceptionType).frames.toNat {} 0 =
      .normal (exceptionTypes.raise ⟨some .itpException, none, 3, some []⟩) 11 := by
    simp [nestedBlocks, TryCode.eval, TryClauses.handler, TryClauses.finish, ExceptionTypes.handling, hinst,
      Ending.handle, Ending.andFinally, Ending.bind, maxFrames]
  rw [heval] at h
  obtain ⟨e4c, hexec, -, hk, -⟩ := h
  exact ⟨e4c, hexec, hk.frames⟩

end E4cContext

/-! ### The loop of the assembler -/

namespace AsmM
open Prog E4cContext

/-- A step of the assembler, where `place` is that of `E4C_THROW`. -/
def effect (place : AssemblerCtx → Option (List U8) × Nat) (m : AsmM Unit) (as : AssemblerCtx) :
    Effect (ThrowArgs ExceptionType) AssemblerCtx :=
  match (m as).2 with
  | .ok _ as => .done as
  | .stop .exception as => .throws ⟨some .itpException, (place as).1, (place as).2, some []⟩ as
  | .stop _ as => .aborts as

/-- The loop of `Assembler_assemble` with its macros, whose rounds `fuel` bounds. -/
def assembleLoop (place : AssemblerCtx → Option (List U8) × Nat) (deep : ThrowArgs ExceptionType) :
    (fuel : Nat) → TryCode ExceptionType (ThrowArgs ExceptionType) AssemblerCtx
  | 0 => .act .done
  | fuel + 1 =>
    .ifElse (·.itp.eof) (.act .done)
      (.seq
        (.attempt deep (.act (effect place parseStatement))
          (.catchAs .itpException (.act (effect place do synchronize (← get).itp.toks.length)) .done))
        (assembleLoop place deep fuel))

variable {place : AssemblerCtx → Option (List U8) × Nat} {deep : ThrowArgs ExceptionType} {as : AssemblerCtx}

/-- Code ends as the assembler does: with an assertion that stops it, where it is stopped, but never with an
    exception. -/
def Follows (r : Ending (E4cException ExceptionType) AssemblerCtx) (o : Outcome AsmStop AssemblerCtx Unit) : Prop :=
  match o with
  | .ok _ as => ∃ last, r = .normal last as
  | .stop e as => e ≠ .exception ∧ ∃ last, r = .aborts last as

theorem bind_outcome {m : AsmM Unit} {f : Unit → AsmM Unit} :
    ((m >>= f) as).2 = match (m as).2 with
      | .ok u as => (f u as).2
      | .stop e as => .stop e as := by
  change (Prog.bind m f as).2 = _
  unfold Prog.bind
  rcases m as with ⟨t, u | e⟩ <;> rfl

theorem instance_itpException {x : ThrowArgs ExceptionType} (h : x.type = some .itpException) :
    exceptionTypes.Instance (exceptionTypes.raise x) .itpException :=
  ⟨.itpException, by simp [ExceptionTypes.raise, h], .refl⟩

/-- One round of the loop. -/
theorem eval_pass {depth : Nat} (hdepth : depth < maxFrames.toNat) (last : E4cException ExceptionType) :
    Follows (TryCode.eval exceptionTypes.handling
      (.attempt deep (.act (effect place parseStatement))
        (.catchAs .itpException (.act (effect place do synchronize (← get).itp.toks.length)) .done)) depth last as)
      (parsePass as).2 := by
  have hlimit : ¬exceptionTypes.handling.limit ≤ depth := not_le.mpr hdepth
  simp only [TryCode.eval, TryClauses.handler, TryClauses.finish, if_neg hlimit, parsePass, Prog.tryCatch, effect]
  rcases hm : parseStatement as with ⟨t, ⟨u, as'⟩ | ⟨e, as'⟩⟩
  · exact ⟨_, rfl⟩
  · cases e with
    | exception =>
      obtain ⟨as'', hsync, -, -⟩ := synchronize_returns (le_refl as'.itp.toks.length)
      have hrun : ((do synchronize (← get).itp.toks.length : AsmM Unit) as').2 = .ok () as'' :=
        returns_bind.mpr ⟨_, _, returns_get.mpr ⟨rfl, rfl⟩, hsync⟩
      have hinst := instance_itpException (x := ⟨some .itpException, (place as').1, (place as').2, some []⟩) rfl
      simp only [Ending.handle, ExceptionTypes.handling, hinst, decide_true, if_true, hrun]
      exact ⟨_, rfl⟩
    | assertion => exact ⟨nofun, _, rfl⟩
    | overflow => exact ⟨nofun, _, rfl⟩

theorem eval_assembleLoop {depth : Nat} (hdepth : depth < maxFrames.toNat) (fuel : Nat)
    (last : E4cException ExceptionType) (as : AssemblerCtx) :
    Follows ((assembleLoop place deep fuel).eval exceptionTypes.handling depth last as) (parseStatements fuel as).2 := by
  induction fuel generalizing last as with
  | zero => exact ⟨last, rfl⟩
  | succ fuel ih =>
    rw [assembleLoop, TryCode.eval, parseStatements_succ]
    change Follows _ ((if as.itp.eof = true then pure () else parsePass >>= fun _ => parseStatements fuel) as).2
    split
    · exact ⟨last, rfl⟩
    · rw [TryCode.eval, bind_outcome]
      have hpass := @eval_pass place deep as _ hdepth last
      rcases hm : (parsePass as).2 with ⟨u, as'⟩ | ⟨e, as'⟩
      · rw [hm] at hpass
        obtain ⟨last', hr⟩ := hpass
        rw [hr]
        exact ih last' as'
      · rw [hm] at hpass
        obtain ⟨he, last', hr⟩ := hpass
        rw [hr]
        exact ⟨he, last', rfl⟩

/-- The loop of the assembler on the frames of the exceptions: however many statements fail, it ends as the loop that
    goes on after each of them, in the frame in which it began. No exception gets out of it. -/
theorem assembleLoop_exec (place : AssemblerCtx → Option (List U8) × Nat) (deep : ThrowArgs ExceptionType) (fuel : Nat)
    (e4c : E4cContext ExceptionType) (h : e4c.InFrames) (hlt : e4c.frames < maxFrames) (as : AssemblerCtx) :
    match (parseStatements fuel as).2 with
    | .ok _ as' => ∃ e4c', exec exceptionTypes (assembleLoop place deep fuel) e4c as = .ends e4c' as' ∧ Kept e4c e4c' ∧
        e4c'.top = e4c.top
    | .stop e as' => e ≠ .exception ∧ ∃ e4c', exec exceptionTypes (assembleLoop place deep fuel) e4c as = .aborts e4c' as' := by
  have hdepth : e4c.frames.toNat < maxFrames.toNat := by
    have := h.1
    unfold maxFrames at hlt ⊢
    omega
  have hagrees : Agrees exceptionTypes e4c (exec exceptionTypes (assembleLoop place deep fuel) e4c as) _ := exec_agrees _ e4c h as
  have hfollows := @eval_assembleLoop place deep _ hdepth fuel e4c.err as
  rcases ho : (parseStatements fuel as).2 with ⟨u, as'⟩ | ⟨e, as'⟩
  · rw [ho] at hfollows
    obtain ⟨last, hr⟩ := hfollows
    rw [hr] at hagrees
    obtain ⟨b, hflow, -, hk, htop⟩ := hagrees
    exact ⟨b, hflow, hk, htop⟩
  · rw [ho] at hfollows
    obtain ⟨he, last, hr⟩ := hfollows
    rw [hr] at hagrees
    obtain ⟨b, hflow, -⟩ := hagrees
    exact ⟨he, b, hflow⟩

/-- A statement that fails, and one that does not. -/
theorem assembleLoop_exec_error : ∃ (e4c : E4cContext ExceptionType) (as : AssemblerCtx),
    exec exceptionTypes (assembleLoop (fun _ => (none, 0)) (tooMany exceptionTypes none 0) 3) {}
      (.init [wordToken .tokInteger ['7'] (.int 7), wordToken .tokNl ['\n'], wordToken .tokNl ['\n']] endRange [] fun _ => 0) =
        .ends e4c as ∧ e4c.frames = 0 ∧ as.errors = 1 := by
  obtain ⟨u, as', hret, herr⟩ := exists_of_passes (m := parseStatements 3)
    (s := .init [wordToken .tokInteger ['7'] (.int 7), wordToken .tokNl ['\n'], wordToken .tokNl ['\n']] endRange [] fun _ => 0)
    (p := fun _ as' => as'.errors == 1) (by decide)
  have h := assembleLoop_exec (fun _ => (none, 0)) (tooMany exceptionTypes none 0) 3 {} (by decide) (by decide)
    (.init [wordToken .tokInteger ['7'] (.int 7), wordToken .tokNl ['\n'], wordToken .tokNl ['\n']] endRange [] fun _ => 0)
  rw [show (parseStatements 3 _).2 = _ from hret] at h
  obtain ⟨e4c, hexec, hk, -⟩ := h
  exact ⟨e4c, as', hexec, hk.frames, beq_iff_eq.mp herr⟩

end AsmM

end Cyntatic
