import Cyntatic.Theorems.Steps

/-! # Calls and returns

A call leaves the caller's `bp`, the return address and the number of arguments where the callee's `bp` points
to. A callee that keeps all of that, and the nested calls in it, which do, can return: the arguments are
replaced by the results and their number. -/

namespace Cyntatic
open Library

/-! ### Words in memory -/

namespace Memory

variable {ram ram' : Memory} {off off' i j n k : Nat} {bs : List U8} {v : U64}

/-- The word at an offset. -/
def word (ram : Memory) (off : Nat) : U64 := leSigned 64 8 (ram.slice off 8)

/-- Some words from an offset on. -/
def words (ram : Memory) (off : Nat) : (k : Nat) → List U64
  | 0 => []
  | k + 1 => ram.word off :: ram.words (off + 8) k

theorem length_slice : (ram.slice off n).length = n := by simp [slice]

theorem getElem?_slice : (ram.slice off n)[i]? = if i < n then some (ram.bytes (off + i)) else none := by
  simp only [slice, List.getElem?_map]
  split
  · rename_i h
    rw [List.getElem?_range h, Option.map_some]
  · rename_i h
    rw [List.getElem?_eq_none (by simpa using h), Option.map_none]

theorem slice_congr (h : ∀ i < n, ram'.bytes (off' + i) = ram.bytes (off + i)) : ram'.slice off' n = ram.slice off n :=
  List.map_congr_left fun i hi => h i (List.mem_range.mp hi)

theorem bytes_store_of_lt (h : i < off) : (ram.store off bs).bytes i = ram.bytes i := if_neg (by omega)

theorem bytes_store_of_le (h : off + bs.length ≤ i) : (ram.store off bs).bytes i = ram.bytes i := by
  refine (if_pos (by omega)).trans ?_
  rw [List.getD_eq_getElem?_getD, List.getElem?_eq_none (by omega), Option.getD_none]

theorem bytes_store (h : i < bs.length) : (ram.store off bs).bytes (off + i) = bs[i] := by
  refine (if_pos (by omega)).trans ?_
  rw [Nat.add_sub_cancel_left, List.getD_eq_getElem?_getD, List.getElem?_eq_getElem h, Option.getD_some]

variable (ram off bs) in
theorem slice_store : (ram.store off bs).slice off bs.length = bs := by
  refine List.ext_getElem? fun i => ?_
  rw [getElem?_slice]
  split
  · rename_i h
    rw [bytes_store h, List.getElem?_eq_getElem h]
  · rename_i h
    rw [List.getElem?_eq_none (by omega)]

theorem word_congr (h : ∀ i < 8, ram'.bytes (off' + i) = ram.bytes (off + i)) : ram'.word off' = ram.word off := by
  rw [word, slice_congr h, word]

theorem words_congr (h : ∀ i < 8 * k, ram'.bytes (off' + i) = ram.bytes (off + i)) :
    ram'.words off' k = ram.words off k := by
  induction k generalizing off off' with
  | zero => rfl
  | succ k ih =>
    rw [words, words, word_congr fun i hi => h i (by omega), ih fun i hi => ?_]
    rw [Nat.add_assoc, Nat.add_assoc]
    exact h (8 + i) (by omega)

@[simp] theorem word_store : (ram.store off (leBytes 8 v)).word off = v := by
  have h := slice_store ram off (leBytes 8 v)
  rw [length_leBytes] at h
  rw [word, h, leSigned_leBytes, signTrunc_full rfl]

theorem slice_add : ram.slice off (n + k) = ram.slice off n ++ ram.slice (off + n) k := by
  refine List.ext_getElem? fun i => ?_
  rw [List.getElem?_append, length_slice, getElem?_slice, getElem?_slice, getElem?_slice]
  split <;> split <;> try omega
  · rfl
  · split
    · rename_i h1 h2 h3
      rw [show off + n + (i - n) = off + i by omega]
    · omega
  · split
    · omega
    · rfl

theorem length_wordBytes (vals : List U64) : (wordBytes vals).length = 8 * vals.length := by
  induction vals with
  | nil => rfl
  | cons v vals ih =>
    rw [wordBytes, List.flatMap_cons, List.length_append, length_leBytes, ← wordBytes, ih, List.length_cons]
    omega

theorem words_of_slice {vals : List U64} (h : ram.slice off (8 * vals.length) = wordBytes vals) :
    ram.words off vals.length = vals := by
  induction vals generalizing off with
  | nil => rfl
  | cons v vals ih =>
    rw [List.length_cons, Nat.mul_succ, Nat.add_comm, slice_add, wordBytes, List.flatMap_cons] at h
    obtain ⟨hv, hvals⟩ := List.append_inj h (by rw [length_slice, length_leBytes])
    rw [List.length_cons, words, ih hvals, word, hv, leSigned_leBytes, signTrunc_full rfl]

/-- Words that were stored one after the other. -/
theorem words_store {vals : List U64} : (ram.store off (wordBytes vals)).words off vals.length = vals := by
  have h := slice_store ram off (wordBytes vals)
  rw [length_wordBytes] at h
  exact words_of_slice h

/-- Words that were copied. -/
theorem words_store_slice (hk : n = 8 * k) : (ram'.store off' (ram.slice off n)).words off' k = ram.words off k := by
  subst hk
  refine words_congr fun i hi => ?_
  rw [bytes_store (by rw [length_slice]; exact hi)]
  simp [slice]

end Memory

/-! ### Pushing -/

/-- The stack lies in memory above its limit, and `bp` in or above it. -/
structure Vm.StackOk (vm : Vm) : Prop where
  sb_lt : vm.ram.sb.toNat < (vm.reg .sp).toNat
  sp_le : (vm.reg .sp).toNat ≤ (vm.reg .bp).toNat
  bp_le : (vm.reg .bp).toNat ≤ vm.ram.size.toNat

/-- The stack pointers and the memory are the same. -/
structure SameStack (a b : Vm) : Prop where
  sp : b.reg .sp = a.reg .sp
  bp : b.reg .bp = a.reg .bp
  ram : b.ram = a.ram

/-- Values are pushed one after the other, with steps in between that leave the stack alone. -/
inductive PushRun : List U64 → Vm → Vm → Prop
  | done {a b : Vm} (h : SameStack a b) : PushRun [] a b
  | push {a b c d : Vm} {v : U64} {vs : List U64} (h : SameStack a b) (hp : (VmM.push (pure v)).Returns b () c)
      (hr : PushRun vs c d) : PushRun (v :: vs) a d

/-- The stack of `b` is that of `a` with `w` more bytes on top. -/
structure Grows (a b : Vm) (w : Nat) : Prop where
  sp : (b.reg .sp).toNat + w = (a.reg .sp).toNat
  bp : b.reg .bp = a.reg .bp
  size : b.ram.size = a.ram.size
  sb : b.ram.sb = a.ram.sb
  bytes : ∀ i, (a.reg .sp).toNat ≤ i → b.ram.bytes i = a.ram.bytes i

variable {a b c d : Vm} {v : U64} {w u : Nat}

theorem Grows.trans (h : Grows a b w) (h' : Grows b c u) : Grows a c (w + u) where
  sp := by
    have h1 := h.sp
    have h2 := h'.sp
    omega
  bp := h'.bp.trans h.bp
  size := h'.size.trans h.size
  sb := h'.sb.trans h.sb
  bytes i hi := (h'.bytes i (Nat.le_trans (Nat.le_of_add_right_le h.sp.le) hi)).trans (h.bytes i hi)

theorem SameStack.grows (h : SameStack a b) : Grows a b 0 where
  sp := by rw [h.sp, Nat.add_zero]
  bp := h.bp
  size := by rw [h.ram]
  sb := by rw [h.ram]
  bytes i _ := by rw [h.ram]

theorem toNat_pushed_sp {sp : U64} {size : U32} (h8 : 8 ≤ sp.toNat) (hs : sp.toNat ≤ size.toNat) :
    (sp - 8).toNat = sp.toNat - 8 ∧ ((sp - 8).setWidth 32).toNat = sp.toNat - 8 := by
  have hsize := size.isLt
  have h8' : (8 : U64).toNat = 8 := rfl
  rw [BitVec.toNat_setWidth, BitVec.toNat_sub, h8']
  omega

theorem Vm.CanPush.le_sp {sp : U64} (h : a.CanPush sp) : 8 ≤ sp.toNat := by
  have h2 := h.2
  have hsize := a.ram.size.isLt
  have h8 : (8 : U64).toNat = 8 := rfl
  rw [BitVec.toNat_setWidth, BitVec.toNat_sub, h8] at h2
  omega

theorem grows_pushed (h8 : 8 ≤ (a.reg .sp).toNat) (hs : (a.reg .sp).toNat ≤ a.ram.size.toNat) :
    Grows a (a.pushed v) 8 ∧ (a.pushed v).ram.word ((a.pushed v).reg .sp).toNat = v := by
  obtain ⟨hsp, hoff⟩ := toNat_pushed_sp h8 hs
  have hreg : (a.pushed v).reg .sp = a.reg .sp - 8 := by rw [Vm.pushed, Vm.reg_setBytes, Vm.reg_setReg]
  have hram : (a.pushed v).ram = a.ram.store ((a.reg .sp).toNat - 8) (leBytes 8 v) := by rw [← hoff]; rfl
  refine ⟨⟨?_, ?_, rfl, rfl, fun i hi => ?_⟩, ?_⟩
  · rw [hreg, hsp]
    omega
  · rw [Vm.pushed, Vm.reg_setBytes, Vm.reg_setReg_of_ne _ _ (by decide)]
  · rw [hram, Memory.bytes_store_of_le (by rw [length_leBytes]; omega)]
  · rw [hreg, hsp, hram, Memory.word_store]

theorem PushRun.grows {vs : List U64} (h : PushRun vs a d) (hs : (a.reg .sp).toNat ≤ a.ram.size.toNat) :
    Grows a d (8 * vs.length) := by
  induction h with
  | done h => exact h.grows
  | @push a b c d v vs h hp _ ih =>
    obtain ⟨hcan, rfl⟩ := VmM.push_pure_returns.mp hp
    have hb := h.grows
    have hsb : (b.reg .sp).toNat ≤ b.ram.size.toNat := by rw [h.sp, h.ram]; exact hs
    have hpush := (grows_pushed (v := v) hcan.le_sp hsb).1
    have htail := ih (by have := hpush.sp; rw [hpush.size]; omega)
    have hall := (hb.trans hpush).trans htail
    rwa [Nat.zero_add, Nat.add_comm, ← Nat.mul_succ] at hall

/-- The value pushed last is on top. -/
theorem PushRun.top {vs : List U64} (h : PushRun (vs ++ [v]) a d) (hs : (a.reg .sp).toNat ≤ a.ram.size.toNat) :
    d.ram.word (d.reg .sp).toNat = v := by
  generalize hl : vs ++ [v] = l at h
  induction h generalizing vs with
  | done => simp at hl
  | @push a b c d x xs h hp hr ih =>
    obtain ⟨hcan, rfl⟩ := VmM.push_pure_returns.mp hp
    have hsb : (b.reg .sp).toNat ≤ b.ram.size.toNat := by rw [h.sp, h.ram]; exact hs
    obtain ⟨hpush, htop⟩ := grows_pushed (v := x) hcan.le_sp hsb
    cases vs with
    | nil =>
      obtain ⟨rfl, rfl⟩ := List.cons.inj hl
      cases hr with
      | done hd => rw [hd.ram, hd.sp, htop]
    | cons y vs =>
      obtain ⟨rfl, htl⟩ := List.cons.inj hl
      exact ih (by have := hpush.sp; rw [hpush.size]; omega) htl

/-! ### Entering a callee -/

/-- A native function that does nothing. -/
def Host.idle : Host := ⟨fun _ _ _ vm => .ok () vm⟩

/-- `b` is the machine at the start of the callee of a `call` or an `ncall` that `a` executes. -/
def Enters (a b : Vm) : Prop :=
  ∃ instr iip, (instr.op = some .call ∨ instr.op = some .ncall) ∧ (VmM.execute .idle instr iip).Returns a () b

/-- The frame of a call: what lies at `bp` and above, for a caller that was at `a` before it pushed `n` arguments. -/
structure FrameAt (a : Vm) (ip : U64) (n : Nat) (b : Vm) : Prop where
  bp : (b.reg .bp).toNat + 24 + 8 * n = (a.reg .sp).toNat
  savedBp : b.ram.word (b.reg .bp).toNat = a.reg .bp
  savedIp : b.ram.word ((b.reg .bp).toNat + 8) = ip
  nargs : b.ram.word ((b.reg .bp).toNat + 16) = BitVec.ofNat 64 n
  size : b.ram.size = a.ram.size
  sb : b.ram.sb = a.ram.sb
  bytes : ∀ i, (a.reg .sp).toNat ≤ i → i < a.ram.size.toNat → b.ram.bytes i = a.ram.bytes i

/-- The machine after the return address and `bp` are pushed. -/
def Vm.entered (vm : Vm) : Vm :=
  let vm' := (vm.pushed (vm.reg .ip)).pushed (vm.reg .bp)
  vm'.setReg .bp (vm'.reg .sp)

namespace VmM
open Prog

variable {instr : Instruction} {rA : Place} {tb : Mode} {iip : U64}

theorem push_ip_bp_returns {α : Type} {m : VmM α} {x : α} :
    (do push (getReg .ip); push (getReg .bp); setReg .bp (← getReg .sp); m : VmM α).Returns a x b ↔
      a.CanPush (a.reg .sp) ∧ (a.pushed (a.reg .ip)).CanPush ((a.pushed (a.reg .ip)).reg .sp) ∧ m.Returns a.entered x b := by
  have hbp : (a.pushed (a.reg .ip)).reg .bp = a.reg .bp := by
    rw [Vm.pushed, Vm.reg_setBytes, Vm.reg_setReg_of_ne _ _ (by decide)]
  simp only [returns_bind, push_getReg_returns (r := .ip) (by decide), push_getReg_returns (r := .bp) (by decide),
    getReg_returns, setReg_returns]
  constructor
  · rintro ⟨_, _, ⟨h1, rfl⟩, _, _, ⟨h2, rfl⟩, _, _, ⟨rfl, rfl⟩, _, _, rfl, hm⟩
    rw [hbp] at hm
    exact ⟨h1, h2, hm⟩
  · rintro ⟨h1, h2, hm⟩
    refine ⟨(), _, ⟨h1, rfl⟩, (), _, ⟨h2, rfl⟩, _, _, ⟨rfl, rfl⟩, (), _, rfl, ?_⟩
    rw [hbp]
    exact hm

theorem nativeArgs_same {n : U64} {argv : Option U64} (h : (nativeArgs n).Returns a argv b) : b = a := by
  unfold nativeArgs at h
  split at h
  · exact (returns_pure.mp h).2
  · simp only [returns_bind, getReg_returns, mem_returns, returns_pure] at h
    obtain ⟨_, _, ⟨-, rfl⟩, _, _, ⟨-, -, rfl⟩, -, rfl⟩ := h
    rfl

end VmM

/-- A callee starts with the return address and the caller's `bp` on the stack. -/
theorem Enters.entered (h : Enters a b) :
    a.CanPush (a.reg .sp) ∧ (a.pushed (a.reg .ip)).CanPush ((a.pushed (a.reg .ip)).reg .sp) ∧
      (b = a.entered ∨ ∃ ip, b = a.entered.setReg .ip ip) := by
  obtain ⟨instr, iip, hop, h⟩ := h
  obtain ⟨rA, rB, -, h⟩ := VmM.execute_returns.mp h
  rcases hop with hop | hop
  · simp only [VmM.apply, hop] at h
    unfold VmM.call at h
    rw [VmM.push_ip_bp_returns] at h
    simp only [VmM.jump, Prog.returns_bind, VmM.read_returns, VmM.setReg_returns] at h
    obtain ⟨h1, h2, v, _, ⟨-, rfl, rfl⟩, rfl⟩ := h
    exact ⟨h1, h2, .inr ⟨_, rfl⟩⟩
  · simp only [VmM.apply, hop] at h
    obtain ⟨id, t1, hid, h⟩ := Prog.returns_bind.mp h
    obtain ⟨sp, t2, hsp, h⟩ := Prog.returns_bind.mp h
    obtain ⟨nargs, t3, hn, h⟩ := Prog.returns_bind.mp h
    obtain ⟨n, t4, hload, h⟩ := Prog.returns_bind.mp h
    obtain ⟨argv, t5, hargv, henter⟩ := Prog.returns_bind.mp h
    obtain rfl : t1 = a := (VmM.read_returns.mp hid).2.2
    obtain rfl : t2 = t1 := (VmM.getReg_returns.mp hsp).2
    obtain rfl : t3 = t2 := (VmM.mem_returns.mp hn).2.2
    obtain rfl : t4 = t3 := (VmM.loadWord_returns.mp hload).2.2
    obtain rfl : t5 = t4 := VmM.nativeArgs_same hargv
    rw [VmM.push_ip_bp_returns] at henter
    simp only [Prog.returns_bind, VmM.loadWord_returns, Prog.returns_lift, Host.idle, Outcome.ok.injEq] at henter
    obtain ⟨h1, h2, v, _, ⟨-, -, rfl⟩, -, rfl⟩ := henter
    exact ⟨h1, h2, .inl rfl⟩

/-- The callee finds the frame of its call. -/
theorem FrameAt.of_enters {args : List U64} (ha : a.StackOk) (hpush : PushRun (args ++ [BitVec.ofNat 64 args.length]) a b)
    (henter : Enters b c) : FrameAt a (b.reg .ip) args.length c := by
  have hsize := Nat.le_trans ha.sp_le ha.bp_le
  have hargs := hpush.grows hsize
  obtain ⟨hcan, hcan', hc⟩ := henter.entered
  rw [List.length_append, List.length_singleton] at hargs
  have hspb : (b.reg .sp).toNat ≤ b.ram.size.toNat := by
    have := hargs.sp
    rw [hargs.size]
    omega
  obtain ⟨hip, htopip⟩ := grows_pushed (v := b.reg .ip) hcan.le_sp hspb
  have hspip : ((b.pushed (b.reg .ip)).reg .sp).toNat ≤ (b.pushed (b.reg .ip)).ram.size.toNat := by
    have := hip.sp
    rw [hip.size]
    omega
  obtain ⟨hbp, htopbp⟩ := grows_pushed (v := b.reg .bp) hcan'.le_sp hspip
  have hregbp : (b.pushed (b.reg .ip)).reg .bp = b.reg .bp := hip.bp
  -- the registers of the callee matter only through `bp`, which is the `sp` after the two pushes
  have hc' : c.reg .bp = ((b.pushed (b.reg .ip)).pushed (b.reg .bp)).reg .sp ∧
      c.ram = ((b.pushed (b.reg .ip)).pushed (b.reg .bp)).ram := by
    rcases hc with rfl | ⟨ip, rfl⟩
    · exact ⟨Vm.reg_setReg .., rfl⟩
    · exact ⟨(Vm.reg_setReg_of_ne _ _ (by decide)).trans (Vm.reg_setReg ..), rfl⟩
  obtain ⟨hcbp, hcram⟩ := hc'
  have h1 := hargs.sp
  have h2 := hip.sp
  have h3 := hbp.sp
  refine ⟨?_, ?_, ?_, ?_, ?_, ?_, fun i hi _ => ?_⟩
  · rw [hcbp]
    omega
  · rw [hcbp, hcram, htopbp, hargs.bp]
  · rw [hcbp, hcram, h3, Memory.word_congr fun i _ => hbp.bytes _ (by omega), htopip]
  · have hoff : (((b.pushed (b.reg .ip)).pushed (b.reg .bp)).reg .sp).toNat + 16 = (b.reg .sp).toNat := by omega
    rw [hcbp, hcram, hoff, Memory.word_congr fun i _ => (hip.trans hbp).bytes _ (by omega)]
    exact hpush.top hsize
  · rw [hcram, hbp.size, hip.size, hargs.size]
  · rw [hcram, hbp.sb, hip.sb, hargs.sb]
  · rw [hcram, hbp.bytes i (by omega), hip.bytes i (by omega), hargs.bytes i hi]

/-! ### The body of a callee -/

/-- `bp` and the stack from `bp` on are left alone. The limits of the memory are set once, when it is made. -/
structure KeepsFrame (a b : Vm) : Prop where
  bp : b.reg .bp = a.reg .bp
  size : b.ram.size = a.ram.size
  sb : b.ram.sb = a.ram.sb
  bytes : ∀ i, (a.reg .bp).toNat ≤ i → i < a.ram.size.toNat → b.ram.bytes i = a.ram.bytes i

theorem KeepsFrame.trans (h : KeepsFrame a b) (h' : KeepsFrame b c) : KeepsFrame a c where
  bp := h'.bp.trans h.bp
  size := h'.size.trans h.size
  sb := h'.sb.trans h.sb
  bytes i hi hlt := (h'.bytes i (by rwa [h.bp]) (by rwa [h.size])).trans (h.bytes i hi hlt)

theorem KeepsFrame.refl : KeepsFrame a a := ⟨rfl, rfl, rfl, fun _ _ _ => rfl⟩

theorem Grows.keepsFrame (h : Grows a b w) (hle : (a.reg .sp).toNat ≤ (a.reg .bp).toNat) : KeepsFrame a b :=
  ⟨h.bp, h.size, h.sb, fun i hi _ => h.bytes i (Nat.le_trans hle hi)⟩

/-- A frame that is kept is still there. -/
theorem FrameAt.kept {ip : U64} {n : Nat} (h : FrameAt a ip n b) (hk : KeepsFrame b c)
    (hsize : (a.reg .sp).toNat ≤ a.ram.size.toNat) : FrameAt a ip n c := by
  have hbp := h.bp
  have hword : ∀ j, j ≤ 16 → c.ram.word ((b.reg .bp).toNat + j) = b.ram.word ((b.reg .bp).toNat + j) := by
    intro j hj
    refine Memory.word_congr fun i hi => hk.bytes _ (by omega) ?_
    rw [h.size]
    omega
  refine ⟨?_, ?_, ?_, ?_, hk.size.trans h.size, hk.sb.trans h.sb, fun i hi hlt => ?_⟩
  · rw [hk.bp, hbp]
  · rw [hk.bp]
    exact (hword 0 (by omega)).trans h.savedBp
  · rw [hk.bp, hword 8 (by omega), h.savedIp]
  · rw [hk.bp, hword 16 (by omega), h.nargs]
  · rw [hk.bytes i (by omega) (by rwa [h.size]), h.bytes i hi hlt]

/-! ### Returning -/

/-- `VM_abort` was called. -/
def Stop.IsAbort (e : Stop) : Prop := ∃ fmt args, e = .abort fmt args

/-- Results, as what `VM_pushn` gets to copy: they are on the stack at an offset, or with the host. -/
def VmM.Data.Holds (data : Data) (ram : Memory) (off : Nat) (results : List U64) : Prop :=
  match data with
  | .ram src => src.toNat = off ∧ ram.words off results.length = results
  | .host vals => vals = results

/-- What `ret` or `VM_returnx` leave for the caller that was at `a`. -/
structure Returned (a : Vm) (ip : U64) (results : List U64) (f : Vm) : Prop where
  ip : f.reg .ip = ip
  bp : f.reg .bp = a.reg .bp
  sp : (f.reg .sp).toNat + 8 * (results.length + 1) = (a.reg .sp).toNat
  count : f.ram.word (f.reg .sp).toNat = BitVec.ofNat 64 results.length
  results : f.ram.words ((f.reg .sp).toNat + 8) results.length = results
  size : f.ram.size = a.ram.size
  sb : f.ram.sb = a.ram.sb
  bytes : ∀ i, (a.reg .sp).toNat ≤ i → i < a.ram.size.toNat → f.ram.bytes i = a.ram.bytes i

theorem Returned.keepsFrame {ip : U64} {results : List U64} (h : Returned a ip results b) (ha : a.StackOk) :
    KeepsFrame a b :=
  ⟨h.bp, h.size, h.sb, fun i hi => h.bytes i (Nat.le_trans ha.sp_le hi)⟩

namespace VmM
open Prog

variable {count : U8} {data : Data} {results : List U64}

variable (count) in
theorem toNat_wordsSize : (wordsSize count).toNat = 8 * count.toNat := by
  have h := count.isLt
  have hshift : (count.setWidth 32 <<< 3 : U32).toNat = 8 * count.toNat := by
    rw [BitVec.toNat_shiftLeft, BitVec.toNat_setWidth, Nat.shiftLeft_eq]
    omega
  rw [wordsSize, toNat_setWidth_off, hshift]

variable (a count) in
/-- Words are on the stack. -/
theorem popn_at (h : (a.reg .sp).toNat + 8 * count.toNat ≤ a.ram.size.toNat) :
    (popn count).Returns a (a.reg .sp) (a.setReg .sp (a.reg .sp + wordsSize count)) ∧
      (a.reg .sp + wordsSize count).toNat = (a.reg .sp).toNat + 8 * count.toNat := by
  have hsize := a.ram.size.isLt
  have hw := toNat_wordsSize count
  have hadd : (a.reg .sp + wordsSize count).toNat = (a.reg .sp).toNat + 8 * count.toNat := by
    rw [BitVec.toNat_add, hw]
    omega
  have hsp : ((a.reg .sp).setWidth 32).toNat = (a.reg .sp).toNat := by
    rw [BitVec.toNat_setWidth]
    omega
  refine ⟨popn_returns.mpr ⟨?_, ?_, ?_, rfl⟩, hadd⟩
  · rw [BitVec.le_def, hadd, toNat_setWidth_off]
    exact h
  · rw [BitVec.le_def, hsp]
    omega
  · exact BitVec.eq_of_toNat_eq (by rw [toNat_setWidth_off, hsp])

/-- A word is on the stack. -/
theorem pop_at (h : (a.reg .sp).toNat + 8 ≤ a.ram.size.toNat) :
    pop.Returns a (a.ram.word (a.reg .sp).toNat) (a.setReg .sp (a.reg .sp + 8)) ∧
      (a.reg .sp + 8).toNat = (a.reg .sp).toNat + 8 := by
  obtain ⟨hpop, hadd⟩ := popn_at a 1 h
  refine ⟨returns_bind.mpr ⟨_, _, hpop, loadWord_returns.mpr ⟨?_, rfl, rfl⟩⟩, hadd⟩
  exact h

theorem mem_at {x : U64} (h : x.toNat ≤ a.ram.size.toNat) : (mem (x.setWidth 32)).Returns a x a := by
  have hsize := a.ram.size.isLt
  have hx : (x.setWidth 32).toNat = x.toNat := by
    rw [BitVec.toNat_setWidth]
    omega
  refine mem_returns.mpr ⟨?_, ?_, rfl⟩
  · rwa [BitVec.le_def, hx]
  · exact BitVec.eq_of_toNat_eq (by rw [toNat_setWidth_off, hx])

/-- What `VM_pushn` does when there is room; when there is none, it aborts. -/
theorem pushn_ends {data : Option Data} {Q : U64 → Vm → Prop}
    (hcopy : (copyData data count).Ends Stop.IsAbort (fun _ f => (f.reg .sp).toNat ≤ f.ram.size.toNat ∧ Q (f.reg .sp) f)
      (a.setReg .sp (a.reg .sp - wordsSize count))) : (pushn data count).Ends Stop.IsAbort Q a := by
  refine ends_bind_of_returns (returns_get.mpr ⟨rfl, rfl⟩) (ends_bind.mpr (ends_stopIf (fun _ => ⟨_, _, rfl⟩) fun _ => ?_))
  refine ends_bind_of_returns (setReg_returns (u := ()).mpr rfl) (ends_bind.mpr (hcopy.mono fun _ f hf => ?_))
  exact ends_bind_of_returns (getReg_returns.mpr ⟨rfl, rfl⟩) (ends_of_returns (mem_at hf.1) hf.2)

/-- A word is pushed, or there is no room for it. -/
theorem push_ends (h8 : 8 ≤ (a.reg .sp).toNat) (hs : (a.reg .sp).toNat ≤ a.ram.size.toNat) :
    (push (pure v)).Ends Stop.IsAbort (fun _ f => f = a.pushed v) a := by
  obtain ⟨hsp, hoff⟩ := toNat_pushed_sp h8 hs
  refine ends_bind.mpr (pushn_ends (ends_of_returns (returns_pure.mpr ⟨rfl, rfl⟩) ?_))
  have hone : wordsSize 1 = 8 := rfl
  rw [hone, Vm.reg_setReg, hsp]
  refine ⟨Nat.le_trans (Nat.sub_le ..) hs, ends_bind_of_returns (returns_pure.mpr ⟨rfl, rfl⟩) ?_⟩
  refine ends_of_returns (storeWord_returns (u := ()).mpr ⟨?_, rfl⟩) ?_
  · rw [hsp]
    change (a.reg .sp).toNat - 8 + 8 ≤ a.ram.size.toNat
    omega
  · rw [Vm.pushed, hoff, hsp]

/-- The results are copied to the stack, below which they were. -/
theorem copyData_ends (hsp : (a.reg .sp).toNat + 8 * results.length ≤ a.ram.size.toNat) (off : Nat)
    (hcount : count.toNat = results.length) (hdata : data.Holds a.ram off results)
    (hoff : off + 8 * results.length ≤ (a.reg .sp).toNat) :
    (copyData (some data) count).Ends Stop.IsAbort (fun _ f => ∃ bs, f = a.setBytes (a.reg .sp).toNat bs ∧
      bs.length = 8 * results.length ∧ f.ram.words (a.reg .sp).toNat results.length = results) a := by
  have hsize : (wordsSize count).toNat = 8 * results.length := by rw [toNat_wordsSize, hcount]
  have hmem : (mem ((a.reg .sp).setWidth 32)).Returns a (a.reg .sp) a := mem_at (by omega)
  cases data with
  | ram src =>
    obtain ⟨rfl, hwords⟩ := hdata
    refine ends_bind_of_returns (getReg_returns.mpr ⟨rfl, rfl⟩) (ends_bind_of_returns hmem ?_)
    refine ends_bind_of_returns (load_returns.mpr ⟨by omega, rfl, rfl⟩) ?_
    have hoverlap : ¬overlaps (a.reg .sp) src (wordsSize count).toNat = true := by
      simp only [overlaps, Bool.and_eq_true, decide_eq_true_eq, hsize]
      omega
    refine ends_bind_of_returns (returns_stopIf (u := ()).mpr ⟨hoverlap, rfl⟩) ?_
    rw [hsize]
    refine ends_of_returns (store_returns (u := ()).mpr ⟨?_, rfl⟩) ⟨_, rfl, Memory.length_slice, ?_⟩
    · rwa [Memory.length_slice]
    · exact (Memory.words_store_slice rfl).trans hwords
  | host vals =>
    obtain rfl := hdata
    refine ends_bind_of_returns (getReg_returns.mpr ⟨rfl, rfl⟩) (ends_bind_of_returns hmem ?_)
    refine ends_bind_of_returns (returns_stopIf (u := ()).mpr ⟨by omega, rfl⟩) ?_
    rw [hcount, List.take_length]
    refine ends_of_returns (store_returns (u := ()).mpr ⟨?_, rfl⟩) ⟨_, rfl, Memory.length_wordBytes _, Memory.words_store⟩
    rwa [Memory.length_wordBytes]

/-- The state after the results are pushed: what is below `sp`, and the registers, are as before. -/
theorem pushResults_ends {data : Option Data} (off : Nat) (hk : results.length ≤ 255)
    (hdata : results.length ≠ 0 → ∃ d, data = some d ∧ d.Holds a.ram off results)
    (hs : (a.reg .sp).toNat ≤ a.ram.size.toNat) (hoff : off + 16 * results.length ≤ (a.reg .sp).toNat) :
    (pushResults data (BitVec.ofNat 32 results.length)).Ends Stop.IsAbort
      (fun _ f => Grows a f (8 * results.length) ∧ f.reg .ip = a.reg .ip ∧
        f.ram.words (f.reg .sp).toNat results.length = results) a := by
  have hlen : (BitVec.ofNat 32 results.length).toNat = results.length := by
    rw [BitVec.toNat_ofNat]
    omega
  unfold pushResults
  split
  · rename_i hne
    have hcount : ((BitVec.ofNat 32 results.length).setWidth 8 : U8).toNat = results.length := by
      rw [BitVec.toNat_setWidth, hlen]
      omega
    have hpos : results.length ≠ 0 := by
      intro h
      rw [h] at hne
      exact hne rfl
    obtain ⟨d, rfl, hd⟩ := hdata hpos
    have hsub : (a.reg .sp - wordsSize ((BitVec.ofNat 32 results.length).setWidth 8)).toNat =
        (a.reg .sp).toNat - 8 * results.length := by
      have hw := toNat_wordsSize ((BitVec.ofNat 32 results.length).setWidth 8)
      rw [BitVec.toNat_sub, hw, hcount]
      omega
    refine ends_bind.mpr (pushn_ends ((copyData_ends ?_ off hcount ?_ ?_).mono ?_))
    · rw [Vm.reg_setReg, hsub]
      change _ ≤ a.ram.size.toNat
      omega
    · exact hd
    · rw [Vm.reg_setReg, hsub]
      omega
    · rintro _ f ⟨bs, rfl, hbs, hwords⟩
      rw [Vm.reg_setReg, hsub] at hwords ⊢
      rw [Vm.reg_setBytes, Vm.reg_setReg, hsub]
      refine ⟨Nat.le_trans (Nat.sub_le ..) hs, ends_of_returns (returns_pure.mpr ⟨rfl, rfl⟩) ⟨⟨?_, ?_, rfl, rfl, ?_⟩, ?_, ?_⟩⟩
      · rw [Vm.reg_setBytes, Vm.reg_setReg, hsub]
        omega
      · rw [Vm.reg_setBytes, Vm.reg_setReg_of_ne _ _ (by decide)]
      · intro i hi
        exact Memory.bytes_store_of_le (by omega)
      · rw [Vm.reg_setBytes, Vm.reg_setReg_of_ne _ _ (by decide)]
      · rwa [Vm.reg_setBytes, Vm.reg_setReg, hsub]
  · rename_i hz
    have hnil : results.length = 0 := by
      rw [← hlen, not_not.mp hz]
      rfl
    obtain rfl := List.length_eq_zero_iff.mp hnil
    exact ends_of_returns (returns_pure.mpr ⟨rfl, rfl⟩) ⟨⟨rfl, rfl, rfl, rfl, fun _ _ => rfl⟩, rfl, rfl⟩

theorem dropArgs_at {n : Nat} (hn : n ≤ 255) (h : (a.reg .sp).toNat + 8 * n ≤ a.ram.size.toNat) :
    ∃ sp : U64, (dropArgs ((BitVec.ofNat 64 n).setWidth 32)).Returns a () (a.setReg .sp sp) ∧
      sp.toNat = (a.reg .sp).toNat + 8 * n := by
  unfold dropArgs
  split
  · have hcount : (((BitVec.ofNat 64 n).setWidth 32).setWidth 8 : U8).toNat = n := by
      rw [BitVec.toNat_setWidth, BitVec.toNat_setWidth, BitVec.toNat_ofNat]
      omega
    obtain ⟨hpop, hadd⟩ := popn_at a (((BitVec.ofNat 64 n).setWidth 32).setWidth 8) (by rwa [hcount])
    exact ⟨_, returns_bind.mpr ⟨_, _, hpop, returns_pure.mpr ⟨rfl, rfl⟩⟩, by rw [hadd, hcount]⟩
  · rename_i hz
    have hnil : n = 0 := by
      have h0 : ((BitVec.ofNat 64 n).setWidth 32 : U32).toNat = 0 := by
        rw [not_not.mp hz]
        rfl
      rw [BitVec.toNat_setWidth, BitVec.toNat_ofNat] at h0
      omega
    subst hnil
    exact ⟨a.reg .sp, returns_pure.mpr ⟨rfl, Vm.setReg_reg ..⟩, rfl⟩

/-- The results are set aside. -/
theorem popResults_framed {k : Nat} (hk : k ≤ 255) (hs : (a.reg .sp).toNat + 8 * k ≤ a.ram.size.toNat) :
    ∃ sp, (popResults (BitVec.ofNat 32 k)).Returns a (if k = 0 then none else some (.ram (a.reg .sp))) (a.setReg .sp sp) := by
  have hlen : (BitVec.ofNat 32 k).toNat = k := by
    rw [BitVec.toNat_ofNat]
    omega
  unfold popResults
  split
  · rename_i hne
    have hpos : k ≠ 0 := fun h => hne (by rw [h]; rfl)
    have hcount : ((BitVec.ofNat 32 k).setWidth 8 : U8).toNat = k := by
      rw [BitVec.toNat_setWidth, hlen]
      omega
    obtain ⟨hpop, -⟩ := popn_at a ((BitVec.ofNat 32 k).setWidth 8) (by rwa [hcount])
    rw [if_neg hpos]
    exact ⟨_, returns_bind.mpr ⟨_, _, hpop, returns_pure.mpr ⟨rfl, rfl⟩⟩⟩
  · rename_i hz
    have hzero : k = 0 := by
      rw [← hlen, not_not.mp hz]
      rfl
    rw [if_pos hzero]
    exact ⟨a.reg .sp, returns_pure.mpr ⟨rfl, Vm.setReg_reg ..⟩⟩

theorem popResults_at (hk : results.length ≤ 255) (hs : (a.reg .sp).toNat + 8 * results.length ≤ a.ram.size.toNat)
    (hwords : a.ram.words (a.reg .sp).toNat results.length = results) :
    ∃ data sp, (popResults (BitVec.ofNat 32 results.length)).Returns a data (a.setReg .sp sp) ∧
      (results.length ≠ 0 → ∃ x, data = some x ∧ x.Holds a.ram (a.reg .sp).toNat results) := by
  obtain ⟨sp, hpop⟩ := popResults_framed hk hs
  exact ⟨_, sp, hpop, fun hne => ⟨.ram (a.reg .sp), if_neg hne, rfl, hwords⟩⟩

/-- The frame and the arguments are dropped, and the results are still to be pushed. -/
theorem leave_reaches {n : Nat} (data : Option Data) (count : U32) (hn : n ≤ 255)
    (hnargs : d.ram.word ((d.reg .bp).toNat + 16) = BitVec.ofNat 64 n)
    (hle : (d.reg .bp).toNat + 24 + 8 * n ≤ d.ram.size.toNat) :
    ∃ e : Vm, e.ram = d.ram ∧ (e.reg .sp).toNat = (d.reg .bp).toNat + 24 + 8 * n ∧
      e.reg .bp = d.ram.word (d.reg .bp).toNat ∧ e.reg .ip = d.ram.word ((d.reg .bp).toNat + 8) ∧
      ∀ {E : Stop → Prop} {Q : Unit → Vm → Prop}, (do pushResults data count; push (pure (count.setWidth 64))).Ends E Q e →
        (leave data count).Ends E Q d := by
  -- the three words of the frame, from `bp` on
  have hsp1 : ((d.setReg .sp (d.reg .bp)).reg .sp).toNat = (d.reg .bp).toNat := by rw [Vm.reg_setReg]
  generalize he1 : d.setReg .sp (d.reg .bp) = e1 at hsp1
  have hram1 : e1.ram = d.ram := by rw [← he1]; rfl
  obtain ⟨hpop1, hadd1⟩ := pop_at (a := e1) (by rw [hram1]; omega)
  rw [hram1, hsp1] at hpop1
  generalize he2 : (e1.setReg .sp (e1.reg .sp + 8)).setReg .bp (d.ram.word (d.reg .bp).toNat) = e2
  have hram2 : e2.ram = d.ram := by rw [← he2]; exact hram1
  have hsp2 : (e2.reg .sp).toNat = (d.reg .bp).toNat + 8 := by
    rw [← he2, Vm.reg_setReg_of_ne _ _ (by decide), Vm.reg_setReg, hadd1, hsp1]
  obtain ⟨hpop2, hadd2⟩ := pop_at (a := e2) (by rw [hram2]; omega)
  rw [hram2, hsp2] at hpop2
  generalize he3 : (e2.setReg .sp (e2.reg .sp + 8)).setReg .ip (d.ram.word ((d.reg .bp).toNat + 8)) = e3
  have hram3 : e3.ram = d.ram := by rw [← he3]; exact hram2
  have hsp3 : (e3.reg .sp).toNat = (d.reg .bp).toNat + 16 := by
    rw [← he3, Vm.reg_setReg_of_ne _ _ (by decide), Vm.reg_setReg, hadd2, hsp2]
  obtain ⟨hpop3, hadd3⟩ := pop_at (a := e3) (by rw [hram3]; omega)
  rw [hram3, hsp3, hnargs] at hpop3
  -- the arguments are dropped
  have hsp4 : ((e3.setReg .sp (e3.reg .sp + 8)).reg .sp).toNat = (d.reg .bp).toNat + 24 := by
    rw [Vm.reg_setReg, hadd3, hsp3]
  obtain ⟨sp, hdrop, hsp⟩ := dropArgs_at (a := e3.setReg .sp (e3.reg .sp + 8)) hn (by
    rw [hsp4, Vm.ram_setReg, hram3]
    omega)
  refine ⟨(e3.setReg .sp (e3.reg .sp + 8)).setReg .sp sp, hram3, ?_, ?_, ?_, fun {E Q} hrest => ?_⟩
  · rw [Vm.reg_setReg, hsp, hsp4]
  · simp only [← he3, ← he2, ne_eq, reduceCtorEq, not_false_eq_true, Vm.reg_setReg_of_ne, Vm.reg_setReg]
  · simp only [← he3, ne_eq, reduceCtorEq, not_false_eq_true, Vm.reg_setReg_of_ne, Vm.reg_setReg]
  · refine ends_bind_of_returns (getReg_returns.mpr ⟨rfl, rfl⟩) (ends_bind_of_returns (setReg_returns (u := ()).mpr he1.symm) ?_)
    refine ends_bind_of_returns hpop1 (ends_bind_of_returns (setReg_returns (u := ()).mpr he2.symm) ?_)
    refine ends_bind_of_returns hpop2 (ends_bind_of_returns (setReg_returns (u := ()).mpr he3.symm) ?_)
    exact ends_bind_of_returns hpop3 (ends_bind_of_returns hdrop hrest)

/-- A frame is left for the caller. -/
theorem leave_ends {ip : U64} {n off : Nat} {data : Option Data} (ha : a.StackOk) (hf : FrameAt a ip n d) (hn : n ≤ 255)
    (hk : results.length ≤ 255) (hoff : off + 16 * results.length ≤ (a.reg .sp).toNat)
    (hdata : results.length ≠ 0 → ∃ x, data = some x ∧ x.Holds d.ram off results) :
    (leave data (BitVec.ofNat 32 results.length)).Ends Stop.IsAbort (fun _ f => Returned a ip results f) d := by
  have hbp := hf.bp
  have hle : (a.reg .sp).toNat ≤ d.ram.size.toNat := by
    rw [hf.size]
    exact Nat.le_trans ha.sp_le ha.bp_le
  obtain ⟨e, hram, hsp, hebp, heip, hrest⟩ :=
    leave_reaches data (BitVec.ofNat 32 results.length) hn hf.nargs (by omega)
  rw [hf.savedBp] at hebp
  rw [hf.savedIp] at heip
  refine hrest ?_
  -- the results and their number are pushed
  refine ends_bind.mpr ((pushResults_ends off hk (by rwa [hram]) ?_ ?_).mono ?_)
  · rw [hsp, hram]
    omega
  · omega
  rintro _ f ⟨hgrows, hip, hwords⟩
  have hspf := hgrows.sp
  have hsizef : f.ram.size = d.ram.size := hgrows.size.trans (by rw [hram])
  have h8 : 8 ≤ (f.reg .sp).toNat := by omega
  have hsf : (f.reg .sp).toNat ≤ f.ram.size.toNat := by
    rw [hsizef]
    omega
  refine (push_ends h8 hsf).mono ?_
  rintro _ _ rfl
  obtain ⟨hpush, htop⟩ := grows_pushed (v := (BitVec.ofNat 32 results.length).setWidth 64) h8 hsf
  have hspg := hpush.sp
  refine ⟨?_, ?_, ?_, ?_, ?_, ?_, ?_, fun i hi hlt => ?_⟩
  · rw [Vm.pushed, Vm.reg_setBytes, Vm.reg_setReg_of_ne _ _ (by decide), hip, heip]
  · rw [hpush.bp, hgrows.bp, hebp]
  · omega
  · rw [htop]
    refine BitVec.eq_of_toNat_eq ?_
    rw [toNat_setWidth_off, BitVec.toNat_ofNat, BitVec.toNat_ofNat]
    omega
  · rw [hspg, Memory.words_congr fun i _ => hpush.bytes _ (by omega), hwords]
  · rw [hpush.size, hsizef, hf.size]
  · rw [hpush.sb, hgrows.sb, hram, hf.sb]
  · rw [hpush.bytes i (by omega), hgrows.bytes i (by omega), hram, hf.bytes i hi hlt]

end VmM

/-! ### Calls from the pushes of the arguments to the return -/

/-- A caller at `a` pushes its arguments and their number, which gets it to `b`, and then makes the call that
enters the callee at `c`. -/
structure Calls (a b c : Vm) (args : List U64) : Prop where
  ok : a.StackOk
  nargs_le : args.length ≤ 255
  push : PushRun (args ++ [BitVec.ofNat 64 args.length]) a b
  enter : Enters b c

/-- A callee that started at `c` with `n` arguments has its results on top of the stack, above `m` other words. -/
structure Finishes (n : Nat) (c d : Vm) (results : List U64) (m : Nat) : Prop where
  nret_le : results.length ≤ 255
  sp : (d.reg .sp).toNat + 8 * (results.length + m) = (c.reg .bp).toNat
  le : results.length ≤ n + m + 3
  results : d.ram.words (d.reg .sp).toNat results.length = results

/-- The last step of a callee: a `ret` of the number of its results, or `VM_returnx` with them. -/
inductive Leaves (d : Vm) (results : List U64) : VmM Unit → Prop
  | ret {host : Host} {instr : Instruction} {iip v : U64} {rA rB : Place} (hop : instr.op = some .ret)
      (hops : (VmM.operands instr).Returns d (rA, rB) d) (hread : (VmM.read instr rA instr.modeB).Returns d v d)
      (hv : v.setWidth 32 = BitVec.ofNat 32 results.length) : Leaves d results (VmM.execute host instr iip)
  | returnx {vals : VmM.Data} (hvals : vals.Holds d.ram (d.reg .sp).toNat results) :
      Leaves d results (VmM.returnx vals (BitVec.ofNat 32 results.length))

/-- What a callee does up to its last step: steps of its own that keep the frame, and calls. -/
inductive Body : Vm → Vm → Prop
  | done {a : Vm} : Body a a
  | own {a b c : Vm} (h : KeepsFrame a b) (rest : Body b c) : Body a c
  | call {a b c d f g : Vm} {args results : List U64} {m : Nat} {last : VmM Unit} (h : Calls a b c args) (body : Body c d)
      (fin : Finishes args.length c d results m) (leaves : Leaves d results last) (hlast : last.Returns d () f)
      (rest : Body f g) : Body a g

variable {f : Vm} {args results : List U64} {m : Nat} {last : VmM Unit}

/-- The last step of a callee that still has its frame returns, or the machine aborts. -/
theorem Leaves.ends {ip : U64} {n : Nat} (ha : a.StackOk) (hf : FrameAt a ip n c) (hn : n ≤ 255) (hkeep : KeepsFrame c d)
    (fin : Finishes n c d results m) (hl : Leaves d results last) :
    last.Ends Stop.IsAbort (fun _ f => Returned a ip results f) d := by
  have hsize := Nat.le_trans ha.sp_le ha.bp_le
  have hd := hf.kept hkeep hsize
  have hsp := fin.sp
  have hk := fin.nret_le
  have hle := fin.le
  have hframe := hf.bp
  have hoff : (d.reg .sp).toNat + 16 * results.length ≤ (a.reg .sp).toNat := by omega
  cases hl with
  | returnx hvals => exact VmM.leave_ends ha hd hn hk hoff fun _ => ⟨_, rfl, hvals⟩
  | @ret host instr iip v rA rB hop hops hread hv =>
    refine Prog.ends_bind_of_returns hops ?_
    simp only [VmM.apply, hop, VmM.ret]
    refine Prog.ends_bind_of_returns hread ?_
    obtain ⟨data, sp, hpop, hdata⟩ := VmM.popResults_at hk (by rw [hd.size]; omega) fin.results
    rw [hv]
    refine Prog.ends_bind_of_returns hpop ?_
    have hpopped : KeepsFrame d (d.setReg .sp sp) := ⟨Vm.reg_setReg_of_ne _ _ (by decide), rfl, rfl, fun _ _ _ => rfl⟩
    exact VmM.leave_ends ha (hd.kept hpopped hsize) hn hk hoff hdata

theorem Calls.frame (h : Calls a b c args) : FrameAt a (b.reg .ip) args.length c := .of_enters h.ok h.push h.enter

/-- Calls inside a callee keep its frame, however deep they go. -/
theorem Body.keepsFrame (h : Body a b) : KeepsFrame a b := by
  induction h with
  | done => exact .refl
  | own h _ ih => exact h.trans ih
  | call h _ fin leaves hlast _ ihbody ihrest =>
    have hends := leaves.ends h.ok h.frame h.nargs_le ihbody fin
    exact ((hends.of_returns hlast).keepsFrame h.ok).trans ihrest

/-- A call that ends without an abort replaces the arguments by the results and their number, and leaves the
caller's `bp`, the return address and the stack above the arguments as they were. -/
theorem Calls.ends_returned (h : Calls a b c args) (body : Body c d) (fin : Finishes args.length c d results m)
    (leaves : Leaves d results last) :
    last.Ends Stop.IsAbort (fun _ f => Returned a (b.reg .ip) results f) d :=
  leaves.ends h.ok h.frame h.nargs_le body.keepsFrame fin

/-- A machine with 128 bytes of memory and an empty stack. -/
def emptyStackVm : Vm where
  flags := 0
  regs r := if r = .sp ∨ r = .bp then 128 else 0
  code := .empty
  ram := { base := 0, sb := 0, hb := 0, hlm := 0, size := 128, bytes := fun _ => 0 }
  heap := { free := none, used := none, fresh := none, top := 0, sth := 16, lmt := 0, aln := 8, count := 0
            next := fun _ => none, size := fun _ => 0, addr := fun _ => 0 }
  stdout := []

/-- `emptyStackVm` after the pushes of one argument and of the number of arguments. -/
def oneArgVm : Vm := (emptyStackVm.pushed 7).pushed 1

/-- `oneArgVm` in a callee that is 16 bytes on. -/
def calleeVm : Vm := oneArgVm.entered.setReg .ip 16

/-- A callee with one argument that pushes one result and returns it. -/
theorem calls_ends_ret :
    (VmM.execute .idle { osz := 2, opc := 2, rmd := .imm, ims := .byte, ii := 1 } 20).Ends Stop.IsAbort
      (fun _ f => Returned emptyStackVm 0 [42] f) (calleeVm.pushed 42) := by
  have hsame : ∀ x : Vm, SameStack x x := fun _ => ⟨rfl, rfl, rfl⟩
  have hpush : PushRun [7, 1] emptyStackVm oneArgVm :=
    .push (hsame _) (VmM.push_pure_returns.mpr ⟨by decide, rfl⟩)
      (.push (hsame _) (VmM.push_pure_returns.mpr ⟨by decide, rfl⟩) (.done (hsame _)))
  have henter : Enters oneArgVm calleeVm :=
    ⟨{ osz := 2, opc := 12, rmd := .imm, ims := .byte, ii := 16 }, 0, .inl (by decide), rfl⟩
  have hcalls : Calls emptyStackVm oneArgVm calleeVm [7] := ⟨⟨by decide, by decide, by decide⟩, by decide, hpush, henter⟩
  have hown : KeepsFrame calleeVm (calleeVm.pushed 42) := (grows_pushed (by decide) (by decide)).1.keepsFrame (by decide)
  exact hcalls.ends_returned (.own hown .done) (m := 0) ⟨by decide, by decide, by decide, rfl⟩
    (@Leaves.ret _ _ _ _ _ 1 .imm .null (by decide) rfl rfl rfl)

end Cyntatic
