import Mathlib.Data.BitVec
import Mathlib.Algebra.Order.Ring.Nat
import Mathlib.Data.List.Basic
import Mathlib.Data.List.TakeWhile
import Mathlib.Logic.Function.Basic
import Mathlib.Tactic.Common

/-! Singly linked chains: a map from each node to its successor, and the list of nodes met when it is
    followed. A loop over a chain is a `scan` with a trailing pointer, and linking a node in or out
    redirects that pointer (`relink`). -/

namespace Library

variable {κ : Type*} {next next' : κ → Option κ} {a b c : Option κ} {l m : List κ}

/-- Following `next` from `a` meets the nodes of `l` in order and arrives at `b`. -/
def Chain (next : κ → Option κ) : Option κ → List κ → Option κ → Prop
  | a, [], b => a = b
  | a, k :: l, b => a = some k ∧ Chain next (next k) l b

@[simp] theorem chain_nil : Chain next a [] b ↔ a = b := Iff.rfl

@[simp] theorem chain_cons {k : κ} : Chain next a (k :: l) b ↔ a = some k ∧ Chain next (next k) l b := Iff.rfl

theorem chain_append : Chain next a (l ++ m) b ↔ ∃ c, Chain next a l c ∧ Chain next c m b := by
  induction l generalizing a with
  | nil => simp
  | cons k l ih => simp [ih, and_assoc]

/-- A chain is read through the successors of its nodes only. -/
theorem Chain.congr (h : Chain next a l b) (hl : ∀ k ∈ l, next' k = next k) : Chain next' a l b := by
  induction l generalizing a with
  | nil => exact h
  | cons k l ih =>
    obtain ⟨ha, h⟩ := h
    refine ⟨ha, ?_⟩
    rw [hl k (List.mem_cons_self ..)]
    exact ih h fun x hx => hl x (List.mem_cons_of_mem _ hx)

/-- The first node, when the chain ends. -/
theorem Chain.eq_head? (h : Chain next a l none) : a = l.head? := by
  cases l with
  | nil => exact h
  | cons k l => exact h.1

theorem Chain.next_of_cons {k : κ} (h : Chain next a (k :: l) none) : next k = l.head? := h.2.eq_head?

/-- The nodes met from `a` on, at most `fuel` of them. -/
def walk (next : κ → Option κ) : (fuel : Nat) → Option κ → List κ
  | _, none => []
  | 0, some _ => []
  | fuel + 1, some k => k :: walk next fuel (next k)

theorem Chain.walk_eq (h : Chain next a l none) {fuel : Nat} (hf : l.length ≤ fuel) : walk next fuel a = l := by
  induction l generalizing a fuel with
  | nil =>
    cases h
    cases fuel <;> rfl
  | cons k l ih =>
    obtain ⟨rfl, h⟩ := h
    obtain ⟨fuel, rfl⟩ : ∃ n, fuel = n + 1 := ⟨fuel - 1, by simp only [List.length_cons] at hf; omega⟩
    rw [walk, ih h (by simpa using hf)]

/-! ### Loops over a chain -/

/-- The loop `while (ptr != NULL) { if (test ptr) break; prev = ptr; ptr = ptr->next; }`: the trailing
    pointer and the pointer where it stops. It gives up after `fuel` nodes. -/
def scan (next : κ → Option κ) (test : κ → Bool) : (fuel : Nat) → (prev ptr : Option κ) → Option (Option κ × Option κ)
  | _, prev, none => some (prev, none)
  | 0, _, some _ => none
  | fuel + 1, prev, some k => if test k then some (prev, some k) else scan next test fuel (some k) (next k)

/-- A loop over a chain that carries records stops at the first record that passes the test. -/
theorem scan_map {β : Type*} {f : β → κ} {test : κ → Bool} {T : β → Bool} {bs : List β} {fuel : Nat} {prev : Option κ}
    (h : Chain next a (bs.map f) none) (hf : bs.length ≤ fuel) (ht : ∀ b ∈ bs, test (f b) = T b) :
    scan next test fuel prev a =
      some ((((bs.takeWhile fun b => !T b).map f).getLast?).or prev, ((bs.dropWhile fun b => !T b).map f).head?) := by
  induction bs generalizing a fuel prev with
  | nil =>
    cases h
    simp [scan]
  | cons b bs ih =>
    obtain ⟨rfl, h⟩ := h
    obtain ⟨fuel, rfl⟩ : ∃ n, fuel = n + 1 := ⟨fuel - 1, by simp only [List.length_cons] at hf; omega⟩
    rw [List.forall_mem_cons] at ht
    by_cases hb : T b
    · simp [scan, ht.1, hb]
    · rw [scan, ht.1, if_neg hb, ih h (by simpa using hf) ht.2]
      simp only [hb, Bool.not_false, List.takeWhile_cons_of_pos, List.dropWhile_cons_of_pos, List.map_cons,
        List.getLast?_cons]
      cases ((bs.takeWhile fun b => !T b).map f).getLast? <;> rfl

/-! ### Redirecting a pointer -/

section Relink
variable [DecidableEq κ]

/-- `if (prev) prev->next = x; else head = x;` -/
def relink (next : κ → Option κ) (head prev x : Option κ) : (κ → Option κ) × Option κ :=
  match prev with
  | none => (next, x)
  | some p => (Function.update next p x, head)

/-- Redirecting the last pointer of a chain. -/
theorem Chain.relink (h : Chain next a l b) (hn : l.Nodup) (x : Option κ) :
    Chain (relink next a l.getLast? x).1 (relink next a l.getLast? x).2 l x := by
  rcases List.eq_nil_or_concat' l with rfl | ⟨l, p, rfl⟩
  · rfl
  · obtain ⟨c, hl, hp⟩ := chain_append.mp h
    have hnot : p ∉ l := by
      rw [List.nodup_append] at hn
      exact fun hm => hn.2.2 p hm p (List.mem_singleton_self p) rfl
    rw [List.getLast?_concat]
    refine chain_append.mpr ⟨c, hl.congr fun k hk => ?_, hp.1, ?_⟩
    · refine Function.update_of_ne ?_ _ _
      rintro rfl
      exact hnot hk
    · simp [Library.relink]

theorem relink_of_notMem {k : κ} (hk : k ∉ l) (x : Option κ) : (relink next a l.getLast? x).1 k = next k := by
  rcases List.eq_nil_or_concat' l with rfl | ⟨l, p, rfl⟩
  · rfl
  · rw [List.getLast?_concat]
    exact Function.update_of_ne (fun e => hk (by simp [e])) _ _

/-- Linking a node in between the last node of `l` and the first of `m`. -/
theorem Chain.insert {k : κ} (h : Chain next a (l ++ m) none) (hn : (l ++ m).Nodup) (hk : k ∉ l ++ m) :
    Chain (Function.update (Library.relink next a l.getLast? (some k)).1 k m.head?)
      (Library.relink next a l.getLast? (some k)).2 (l ++ k :: m) none := by
  obtain ⟨c, hl, hm⟩ := chain_append.mp h
  obtain ⟨nl, -, disj⟩ := List.nodup_append.mp hn
  simp only [List.mem_append, not_or] at hk
  refine chain_append.mpr ⟨some k, (hl.relink nl (some k)).congr fun x hx => ?_, rfl, ?_⟩
  · refine Function.update_of_ne ?_ _ _
    rintro rfl
    exact hk.1 hx
  · rw [Function.update_self, ← hm.eq_head?]
    refine hm.congr fun x hx => ?_
    have hxk : x ≠ k := by
      rintro rfl
      exact hk.2 hx
    rw [Function.update_of_ne hxk, relink_of_notMem fun hx' => disj x hx' x hx rfl]

/-- Linking a node out. -/
theorem Chain.remove {k : κ} (h : Chain next a (l ++ k :: m) none) (hn : (l ++ k :: m).Nodup) :
    Chain (Library.relink next a l.getLast? (next k)).1 (Library.relink next a l.getLast? (next k)).2 (l ++ m) none := by
  obtain ⟨c, hl, -, hm⟩ := chain_append.mp h
  obtain ⟨nl, -, disj⟩ := List.nodup_append.mp hn
  refine chain_append.mpr ⟨next k, hl.relink nl _, hm.congr fun x hx => ?_⟩
  exact relink_of_notMem (fun hx' => disj x hx' x (List.mem_cons_of_mem _ hx) rfl) _

end Relink

end Library
