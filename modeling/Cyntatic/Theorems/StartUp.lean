import Cyntatic.Theorems.Frames
import Cyntatic.Theorems.HeapRuns
import Cyntatic.Vm.Run

/-! # Start of a program

What `VM_run` leaves in the registers, on the stack and on the heap before the first instruction. -/

namespace Cyntatic
open Library

/-- `vm'` is the machine when `VM_run` comes to its loop. -/
def Vm.Starts (vm : Vm) (argv : List (List U8)) (vm' : Vm) : Prop := (VmM.run Host.idle argv 0).Returns vm false vm'

/-- The registers before the arguments are pushed. -/
def Vm.atStart (vm : Vm) (db : U32) (argc : Nat) : Vm :=
  ((((({ vm with regs := fun _ => 0 } : Vm).setReg .sp (vm.ram.size.setWidth 64)).setReg .bp
    (vm.ram.size.setWidth 64)).setReg .ip (db.setWidth 64)).setReg .r0 (BitVec.ofNat 64 argc))

/-- `vm` after the number of arguments, the return address and `bp` are pushed. -/
def Vm.framed (vm : Vm) (argc ret : U64) : Vm :=
  let top := ((vm.pushed argc).pushed ret).pushed (vm.reg .bp)
  top.setReg .bp (top.reg .sp)

namespace VmM
open Prog

variable {vm vm' : Vm} {argv : List (List U8)} {s : List U8}

/-- One argument is copied to the heap, and its address pushed. -/
def passArg (s : List U8) : VmM Unit := push do return (← cstringDup s).setWidth 64

theorem passArg_returns {u : Unit} : (passArg s).Returns vm u vm' ↔
    ∃ a h, vm.CanPush (vm.reg .sp) ∧ vm.heap.alloc (BitVec.ofNat 32 (s.length + 1)) = some (a, h) ∧ a ≠ 0 ∧
      a.toNat + s.length ≤ vm.ram.size.toNat ∧
      vm' = (({ vm.setReg .sp (vm.reg .sp - 8) with heap := h } : Vm).setBytes a.toNat s).setBytes
        ((vm.reg .sp - 8).setWidth 32).toNat (leBytes 8 (a.setWidth 64)) := by
  have hone : wordsSize 1 = 8 := rfl
  simp only [passArg, push, cstringDup, returns_bind, pushn_none_returns, hone, alloc_returns, abortIf_returns, mem_returns,
    store_returns, returns_pure, storeWord_returns]
  constructor
  · rintro ⟨_, _, ⟨hsb, -, rfl, rfl⟩, _, _, ⟨a, _, ⟨_, _, ⟨h, halloc, rfl⟩, _, _, ⟨hne, rfl⟩, _, _, ⟨-, rfl, rfl⟩, _, _,
      ⟨hroom, rfl⟩, rfl, rfl⟩, rfl, rfl⟩, hle, rfl⟩
    rw [toNat_setWidth_off] at *
    exact ⟨_, h, ⟨hsb, hle⟩, halloc, hne, hroom, rfl⟩
  · rintro ⟨a, h, ⟨hsb, hle⟩, halloc, hne, hroom, rfl⟩
    refine ⟨_, _, ⟨hsb, ?_, rfl, rfl⟩, _, _, ⟨a, _, ⟨_, _, ⟨h, halloc, rfl⟩, (), _, ⟨hne, rfl⟩, _, _, ⟨?_, rfl, rfl⟩, (), _,
      ⟨?_, rfl⟩, rfl, rfl⟩, rfl, rfl⟩, ?_, ?_⟩
    · rw [BitVec.le_def]
      omega
    · rw [BitVec.le_def]
      exact Nat.le_of_add_right_le hroom
    · rwa [toNat_setWidth_off]
    · rwa [toNat_setWidth_off]
    · rw [toNat_setWidth_off, toNat_setWidth_off]

/-- What is done before the loop. -/
theorem run_returns_iff {host : Host} {fuel : Nat} {ended : Bool} : (run host argv fuel).Returns vm ended vm' ↔
    ∃ db mid, vm.code.db? = some db ∧ (argv.forM passArg).Returns (vm.atStart db argv.length) () mid ∧
      mid.CanPush (mid.reg .sp) ∧ mid.CanPush (mid.reg .sp - 8) ∧ mid.CanPush (mid.reg .sp - 8 - 8) ∧
      (loop host fuel).Returns (mid.framed (BitVec.ofNat 64 argv.length) (BitVec.ofNat 64 vm.code.len)) ended vm' := by
  simp only [run, returns_bind, returns_get, returns_ofOption, returns_modify, setReg_returns, push_pure_returns,
    push_getReg_returns (show Register.bp ≠ .sp by decide), getReg_returns]
  constructor
  · rintro ⟨_, _, ⟨rfl, rfl⟩, db, _, ⟨hdb, rfl⟩, _, _, rfl, _, _, rfl, _, _, rfl, _, _, rfl, _, _, rfl, _, mid, hargs, _, _,
      ⟨h1, rfl⟩, _, _, ⟨h2, rfl⟩, _, _, ⟨h3, rfl⟩, _, _, ⟨rfl, rfl⟩, _, _, rfl, hloop⟩
    exact ⟨db, mid, hdb, hargs, h1, h2, h3, hloop⟩
  · rintro ⟨db, mid, hdb, hargs, h1, h2, h3, hloop⟩
    exact ⟨_, _, ⟨rfl, rfl⟩, db, _, ⟨hdb, rfl⟩, (), _, rfl, (), _, rfl, (), _, rfl, (), _, rfl, (), _, rfl, (), mid, hargs, (), _,
      ⟨h1, rfl⟩, (), _, ⟨h2, rfl⟩, (), _, ⟨h3, rfl⟩, _, _, ⟨rfl, rfl⟩, (), _, rfl, hloop⟩

theorem starts_iff : vm.Starts argv vm' ↔
    ∃ db mid, vm.code.db? = some db ∧ (argv.forM passArg).Returns (vm.atStart db argv.length) () mid ∧
      mid.CanPush (mid.reg .sp) ∧ mid.CanPush (mid.reg .sp - 8) ∧ mid.CanPush (mid.reg .sp - 8 - 8) ∧
      vm' = mid.framed (BitVec.ofNat 64 argv.length) (BitVec.ofNat 64 vm.code.len) := by
  simp only [Vm.Starts, run_returns_iff, loop, returns_pure, true_and]

/-- A run is a start and the loop. -/
theorem run_returns {host : Host} {fuel : Nat} {ended : Bool} : (run host argv fuel).Returns vm ended vm' ↔
    ∃ mid, vm.Starts argv mid ∧ (loop host fuel).Returns mid ended vm' := by
  rw [run_returns_iff]
  constructor
  · rintro ⟨db, mid, hdb, hargs, h1, h2, h3, hloop⟩
    exact ⟨_, starts_iff.mpr ⟨db, mid, hdb, hargs, h1, h2, h3, rfl⟩, hloop⟩
  · rintro ⟨mid', hstart, hloop⟩
    obtain ⟨db, mid, hdb, hargs, h1, h2, h3, rfl⟩ := starts_iff.mp hstart
    exact ⟨db, mid, hdb, hargs, h1, h2, h3, hloop⟩

end VmM

/-! ### The heap before anything is freed -/

/-- `k` descriptors were taken, and none was given back. -/
structure Heap.Bump (h : Heap) (lmt : U32) (k top : Nat) : Prop where
  free : h.free = none
  aln : h.aln = 8
  lmt : h.lmt = lmt
  top : h.top.toNat = top
  fresh : h.fresh = if k < h.count then some k else none
  next : ∀ j, k ≤ j → j < h.count → h.next j = if j + 1 < h.count then some (j + 1) else none

namespace Heap
variable {h : Heap} {hb hlm blocks lmt n : U32} {k top : Nat}

theorem bump_init {next : Nat → Option Nat} {size addr : Nat → U32} (hinit : Heap.init hb hlm blocks 16 8 next size addr = some h) :
    h.Bump hlm 0 hb.toNat ∧ h.count = blocks.toNat := by
  unfold Heap.init at hinit
  split at hinit
  · cases hinit
  · rename_i hne
    obtain rfl := Option.some.inj hinit
    refine ⟨⟨rfl, rfl, rfl, rfl, (if_pos (Nat.succ_pos _)).symm, fun j _ hj => ?_⟩, ?_⟩
    · change (if j < _ then _ else if j = _ then _ else _) = _
      have hj : j < (blocks - 1).toNat + 1 := hj
      by_cases hlt : j < (blocks - 1).toNat
      · rw [if_pos hlt, if_pos (Nat.succ_lt_succ hlt)]
      · rw [if_neg hlt, if_pos (by omega), if_neg (mt Nat.lt_of_succ_lt_succ hlt)]
    · change (blocks - 1).toNat + 1 = _
      bv_omega

/-- A block above all others. -/
theorem Bump.alloc (H : h.Bump lmt k top) (hk : k < h.count) (hroom : top + roundUp n.toNat 8 ≤ lmt.toNat) :
    ∃ h', h.alloc n = some (BitVec.ofNat 32 top, h') ∧ h'.Bump lmt (k + 1) (top + roundUp n.toNat 8) ∧ h'.count = h.count := by
  have hround : (cynAlign n 8).toNat = roundUp n.toNat 8 := (cynAlign_eq_roundUp (show (8 : U8).toNat = 2 ^ 3 from rfl)
    (show roundUp n.toNat 8 < 2 ^ 32 from lt_of_le_of_lt (Nat.le_of_add_left_le hroom) lmt.isLt)).2
  have hlmt := lmt.isLt
  have htop : h.top = BitVec.ofNat 32 top := by
    apply BitVec.eq_of_toNat_eq
    rw [H.top, BitVec.toNat_ofNat, Nat.mod_eq_of_lt (by omega)]
  have hnew : (h.top + cynAlign n 8).toNat = top + roundUp n.toNat 8 := by
    rw [BitVec.toNat_add, H.top, hround, Nat.mod_eq_of_lt (by omega)]
  have hle : h.top + cynAlign n 8 ≤ h.lmt := by rw [H.lmt, BitVec.le_def, hnew]; exact hroom
  have hfresh := H.fresh
  rw [if_pos hk] at hfresh
  have hnext := H.next k (le_refl k) hk
  unfold Heap.alloc allocHeapBlock
  have hscan (test : Nat → Bool) (fuel : Nat) : scan h.next test fuel none none = some (none, none) := by cases fuel <;> rfl
  rw [H.free, H.aln]
  simp only [hscan, Option.bind_eq_bind, Option.bind_some, hfresh, if_pos hle, Option.pure_def]
  refine ⟨_, congrArg some (Prod.ext ((Function.update_self ..).trans htop) rfl), ?_, rfl⟩
  refine ⟨rfl, rfl, H.lmt, hnew, hnext, fun j hj hlt => ?_⟩
  exact (Function.update_of_ne (Nat.ne_of_gt hj) ..).trans (H.next j (Nat.le_of_succ_le hj) hlt)

end Heap

/-! ### Where the arguments go -/

/-- The space of a string with its `NUL` on the heap. -/
def argSpace (s : List U8) : Nat := Heap.roundUp (s.length + 1) 8

/-- The addresses of the arguments, from the first one on. -/
def argAddrs : Nat → List (List U8) → List Nat
  | _, [] => []
  | top, s :: argv => top :: argAddrs (top + argSpace s) argv

theorem length_lt_argSpace (s : List U8) : s.length < argSpace s := by
  unfold argSpace Heap.roundUp
  omega

@[simp] theorem length_argAddrs (top : Nat) (argv : List (List U8)) : (argAddrs top argv).length = argv.length := by
  induction argv generalizing top with
  | nil => rfl
  | cons s argv ih => rw [argAddrs, List.length_cons, ih, List.length_cons]

theorem argAddrs_append (top : Nat) (done argv : List (List U8)) :
    argAddrs top (done ++ argv) = argAddrs top done ++ argAddrs (top + (done.map argSpace).sum) argv := by
  induction done generalizing top with
  | nil => rfl
  | cons s done ih =>
    rw [List.cons_append, argAddrs, ih, argAddrs, List.map_cons, List.sum_cons, Nat.add_assoc]
    rfl

/-- Every argument lies in the space of them all. -/
theorem argAddrs_inside (top : Nat) (argv : List (List U8)) :
    ∀ p ∈ (argAddrs top argv).zip argv, top ≤ p.1 ∧ p.1 + argSpace p.2 ≤ top + (argv.map argSpace).sum := by
  induction argv generalizing top with
  | nil => exact fun p hp => absurd hp List.not_mem_nil
  | cons s argv ih =>
    intro p hp
    rw [argAddrs, List.zip_cons_cons] at hp
    rw [List.map_cons, List.sum_cons]
    rcases List.mem_cons.mp hp with rfl | hp
    · exact ⟨le_refl _, by dsimp only; omega⟩
    · obtain ⟨hle, hstop⟩ := ih _ p hp
      exact ⟨Nat.le_of_add_right_le hle, by omega⟩

/-- The arguments lie one after the other. -/
theorem argAddrs_pairwise (top : Nat) (argv : List (List U8)) :
    ((argAddrs top argv).zip argv).Pairwise fun p q => p.1 + argSpace p.2 ≤ q.1 := by
  induction argv generalizing top with
  | nil => exact .nil
  | cons s argv ih =>
    rw [argAddrs, List.zip_cons_cons]
    exact .cons (fun p hp => (argAddrs_inside _ _ p hp).1) (ih _)

/-! ### Passing the arguments -/

/-- There is room for the arguments: on the heap, which ends a word below the stack, and on the stack. -/
structure Vm.Fits (vm : Vm) (argv : List (List U8)) : Prop where
  blocks : argv.length ≤ vm.heap.count
  heap : vm.ram.hb.toNat + (argv.map argSpace).sum + 8 ≤ vm.ram.sb.toNat
  stack : vm.ram.sb.toNat + 8 * (argv.length + 3) < vm.ram.size.toNat

/-- The arguments in `done` were passed, from `a` to `b`. -/
structure Passing (a : Vm) (done : List (List U8)) (b : Vm) : Prop where
  code : b.code = a.code
  regs : ∀ r, r ≠ .sp → b.reg r = a.reg r
  ram : b.ram = { a.ram with bytes := b.ram.bytes }
  sp : (b.reg .sp).toNat + 8 * done.length = a.ram.size.toNat
  heap : b.heap.Bump a.ram.hlm done.length (a.ram.hb.toNat + (done.map argSpace).sum)
  count : b.heap.count = a.heap.count
  words : b.ram.words (b.reg .sp).toNat done.length = ((argAddrs a.ram.hb.toNat done).map (BitVec.ofNat 64)).reverse
  copies : ∀ p ∈ (argAddrs a.ram.hb.toNat done).zip done, b.ram.slice p.1 p.2.length = p.2
  kept : ∀ x < a.ram.sb.toNat, (∀ p ∈ (argAddrs a.ram.hb.toNat done).zip done, x < p.1 ∨ p.1 + p.2.length ≤ x) →
    b.ram.bytes x = a.ram.bytes x

namespace Passing
open VmM

variable {a b c : Vm} {done : List (List U8)} {s : List U8}

/-- There is room for one more argument. -/
structure Next (a : Vm) (done : List (List U8)) (s : List U8) : Prop where
  blocks : done.length < a.heap.count
  heap : a.ram.hb.toNat + (done.map argSpace).sum + argSpace s + 8 ≤ a.ram.sb.toNat
  stack : a.ram.sb.toNat + 8 * (done.length + 1) < a.ram.size.toNat

/-- Where an argument is copied to, and where its address is pushed. -/
theorem returns (P : Passing a done b) (N : Next a done s) (hlm : a.ram.hlm.toNat + 8 = a.ram.sb.toNat) :
    ∃ h, h.Bump a.ram.hlm (done.length + 1) (a.ram.hb.toNat + (done.map argSpace).sum + argSpace s) ∧
      h.count = a.heap.count ∧ ∀ c, (passArg s).Returns b () c ↔ a.ram.hb.toNat + (done.map argSpace).sum ≠ 0 ∧
        c = (({ b.setReg .sp (b.reg .sp - 8) with heap := h } : Vm).setBytes (a.ram.hb.toNat + (done.map argSpace).sum) s).setBytes
          ((b.reg .sp).toNat - 8) (leBytes 8 (BitVec.ofNat 64 (a.ram.hb.toNat + (done.map argSpace).sum))) := by
  obtain ⟨hblocks, hheap, hstack⟩ := N
  have hlt := length_lt_argSpace s
  have hsb := a.ram.sb.isLt
  have hsize := a.ram.size.isLt
  have hsp := P.sp
  have hram : b.ram.size = a.ram.size ∧ b.ram.sb = a.ram.sb := by rw [P.ram]; exact ⟨rfl, rfl⟩
  generalize htop : a.ram.hb.toNat + (done.map argSpace).sum = top at *
  have hlen : (BitVec.ofNat 32 (s.length + 1) : U32).toNat = s.length + 1 := by
    rw [BitVec.toNat_ofNat, Nat.mod_eq_of_lt (by omega)]
  obtain ⟨h, halloc, hbump, hcount⟩ := (htop ▸ P.heap).alloc (n := BitVec.ofNat 32 (s.length + 1)) (by rw [P.count]; exact hblocks)
    (by rw [hlen]; change top + argSpace s ≤ _; omega)
  rw [hlen] at hbump
  refine ⟨h, hbump, hcount.trans P.count, fun c => ?_⟩
  have hmod : (BitVec.ofNat 32 top : U32).toNat = top := by rw [BitVec.toNat_ofNat, Nat.mod_eq_of_lt (by omega)]
  have hwide : (BitVec.ofNat 32 top : U32).setWidth 64 = (BitVec.ofNat 64 top : U64) := by
    apply BitVec.eq_of_toNat_eq
    rw [toNat_setWidth_off, hmod, BitVec.toNat_ofNat, Nat.mod_eq_of_lt (by omega)]
  obtain ⟨hpush, hoff⟩ := toNat_pushed_sp (show 8 ≤ (b.reg .sp).toNat by omega)
    (show (b.reg .sp).toNat ≤ a.ram.size.toNat by omega)
  have hcan : b.CanPush (b.reg .sp) := by
    refine ⟨?_, by rw [hoff, hram.1]; omega⟩
    rw [BitVec.lt_def, toNat_setWidth_off, hpush, hram.2]
    omega
  have hzero : (BitVec.ofNat 32 top : U32) ≠ 0 ↔ top ≠ 0 := by rw [Ne, ← BitVec.toNat_inj, hmod]; rfl
  rw [passArg_returns]
  constructor
  · rintro ⟨addr, h', -, halloc', hne, -, rfl⟩
    obtain ⟨rfl, rfl⟩ := Prod.mk.inj (Option.some.inj (halloc.symm.trans halloc'))
    exact ⟨hzero.mp hne, by rw [hmod, hoff, hwide]⟩
  · rintro ⟨hne, rfl⟩
    exact ⟨_, h, hcan, halloc, hzero.mpr hne, by rw [hmod, hram.1]; omega, by rw [hmod, hoff, hwide]⟩

/-- One more argument is passed. -/
theorem step (P : Passing a done b) (N : Next a done s) (hlm : a.ram.hlm.toNat + 8 = a.ram.sb.toNat)
    (h : (passArg s).Returns b () c) : Passing a (done ++ [s]) c := by
  obtain ⟨heap, hbump, hcount, hiff⟩ := P.returns N hlm
  obtain ⟨-, rfl⟩ := (hiff c).mp h
  have hsp := P.sp
  have hlt := length_lt_argSpace s
  obtain ⟨-, hheap, hstack⟩ := N
  have hsize := a.ram.size.isLt
  have hadds : argAddrs a.ram.hb.toNat (done ++ [s]) =
      argAddrs a.ram.hb.toNat done ++ [a.ram.hb.toNat + (done.map argSpace).sum] := argAddrs_append ..
  have hinside := argAddrs_inside a.ram.hb.toNat done
  generalize htop : a.ram.hb.toNat + (done.map argSpace).sum = top at *
  have hpush : (b.reg .sp - 8).toNat = (b.reg .sp).toNat - 8 := (toNat_pushed_sp (by omega)
    (show (b.reg .sp).toNat ≤ a.ram.size.toNat by omega)).1
  have hzip : (argAddrs a.ram.hb.toNat (done ++ [s])).zip (done ++ [s]) =
      (argAddrs a.ram.hb.toNat done).zip done ++ [(top, s)] := by
    rw [hadds, List.zip_append (length_argAddrs ..)]
    rfl
  have hsum : ((done ++ [s]).map argSpace).sum = (done.map argSpace).sum + argSpace s := by
    rw [List.map_append, List.sum_append, List.map_singleton, List.sum_singleton]
  -- Below the stack only the copy is new.
  have hlow {x : Nat} (hx : x < a.ram.sb.toNat) (bs : List U8) :
      ((b.ram.store top s).store ((b.reg .sp).toNat - 8) bs).bytes x = (b.ram.store top s).bytes x :=
    Memory.bytes_store_of_lt (by omega)
  refine ⟨P.code, ?_, ?_, ?_, ?_, hcount, ?_, ?_, ?_⟩
  · intro r hr
    exact (Vm.reg_setReg_of_ne _ _ hr).trans (P.regs r hr)
  · have hbytes (bytes : Nat → U8) : ({ b.ram with bytes := bytes } : Memory) = { a.ram with bytes := bytes } :=
      congrArg (fun ram : Memory => { ram with bytes := bytes }) P.ram
    exact hbytes _
  · change ((b.setReg .sp (b.reg .sp - 8)).reg .sp).toNat + _ = _
    rw [Vm.reg_setReg, hpush, List.length_append, List.length_singleton]
    omega
  · rw [List.length_append, List.length_singleton, hsum, ← Nat.add_assoc, htop]
    exact hbump
  · change ((b.ram.store top s).store ((b.reg .sp).toNat - 8) _).words ((b.setReg .sp (b.reg .sp - 8)).reg .sp).toNat _ = _
    rw [Vm.reg_setReg, hpush, List.length_append, List.length_singleton, hadds, List.map_append, List.reverse_append, ← P.words,
      Memory.words, Memory.word_store, Nat.sub_add_cancel (by omega)]
    refine congrArg (_ :: ·) (Memory.words_congr fun i hi => ?_)
    rw [Memory.bytes_store_of_le (by rw [length_leBytes]; omega), Memory.bytes_store_of_le (by omega)]
  · intro p hp
    change ((b.ram.store top s).store ((b.reg .sp).toNat - 8) _).slice _ _ = _
    rw [hzip, List.mem_append, List.mem_singleton] at hp
    rcases hp with hp | rfl
    · obtain ⟨-, hstop⟩ := hinside p hp
      have hspace := length_lt_argSpace p.2
      rw [← P.copies p hp, Memory.length_slice]
      refine Memory.slice_congr fun i hi => ?_
      rw [hlow (by omega), Memory.bytes_store_of_lt (by omega)]
    · refine (Memory.slice_congr fun i hi => hlow ?_ _).trans (Memory.slice_store b.ram top s)
      dsimp only at hi
      omega
  · intro x hx hout
    change ((b.ram.store top s).store ((b.reg .sp).toNat - 8) _).bytes x = _
    rw [hzip] at hout
    have hkept := P.kept x hx fun p hp => hout p (List.mem_append_left _ hp)
    rw [hlow hx, ← hkept]
    rcases hout (top, s) (List.mem_append_right _ (List.mem_singleton_self _)) with hlt | hle
    · exact Memory.bytes_store_of_lt hlt
    · exact Memory.bytes_store_of_le hle

theorem next_of_fits {argv : List (List U8)} (h : a.Fits (done ++ s :: argv)) : Next a done s := by
  obtain ⟨hblocks, hheap, hstack⟩ := h
  rw [List.length_append, List.length_cons] at hblocks hstack
  rw [List.map_append, List.sum_append, List.map_cons, List.sum_cons] at hheap
  exact ⟨by omega, by omega, by omega⟩

/-- The arguments are passed one after another. -/
theorem run {argv : List (List U8)} (P : Passing a done b) (hfits : a.Fits (done ++ argv))
    (hlm : a.ram.hlm.toNat + 8 = a.ram.sb.toNat) (h : (argv.forM passArg).Returns b () c) : Passing a (done ++ argv) c := by
  induction argv generalizing done b with
  | nil =>
    obtain ⟨-, rfl⟩ := Prog.returns_pure.mp h
    rwa [List.append_nil]
  | cons s argv ih =>
    obtain ⟨_, mid, hs, hargv⟩ := Prog.returns_bind.mp h
    have hnext := P.step (next_of_fits hfits) hlm hs
    rw [List.append_cons] at hfits ⊢
    exact ih hnext hfits hargv

theorem exists_run {argv : List (List U8)} (P : Passing a done b) (hfits : a.Fits (done ++ argv))
    (hlm : a.ram.hlm.toNat + 8 = a.ram.sb.toNat) (hb : a.ram.hb ≠ 0) : ∃ c, (argv.forM passArg).Returns b () c := by
  induction argv generalizing done b with
  | nil => exact ⟨b, Prog.returns_pure.mpr ⟨rfl, rfl⟩⟩
  | cons s argv ih =>
    obtain ⟨heap, -, -, hiff⟩ := P.returns (next_of_fits hfits) hlm
    have hpos : a.ram.hb.toNat ≠ 0 := fun h => hb (BitVec.eq_of_toNat_eq h)
    have hs := (hiff _).mpr ⟨by omega, rfl⟩
    have hnext := P.step (next_of_fits hfits) hlm hs
    rw [List.append_cons] at hfits
    obtain ⟨c, hargv⟩ := ih hnext hfits
    exact ⟨c, Prog.returns_bind.mpr ⟨(), _, hs, hargv⟩⟩

end Passing

/-! ### The first frame -/

section
variable {a : Vm} {v : U64} {k : Nat}

theorem words_pushed (h8 : 8 ≤ (a.reg .sp).toNat) (hs : (a.reg .sp).toNat ≤ a.ram.size.toNat) :
    (a.pushed v).ram.words ((a.pushed v).reg .sp).toNat (k + 1) = v :: a.ram.words (a.reg .sp).toNat k := by
  obtain ⟨hgrows, hword⟩ := grows_pushed (v := v) h8 hs
  rw [Memory.words, hword, hgrows.sp]
  exact congrArg (v :: ·) (Memory.words_congr fun i _ => hgrows.bytes _ (Nat.le_add_right ..))

theorem bytes_pushed_of_lt {x : Nat} (h8 : 8 ≤ (a.reg .sp).toNat) (hs : (a.reg .sp).toNat ≤ a.ram.size.toNat)
    (hx : x + 8 < (a.reg .sp).toNat) : (a.pushed v).ram.bytes x = a.ram.bytes x := by
  have hoff := (toNat_pushed_sp h8 hs).2
  refine Memory.bytes_store_of_lt ?_
  omega

/-- The frame of the program, when there is room for it. -/
theorem framed_frame (argc ret : U64) (k : Nat) (hroom : a.ram.sb.toNat + 24 < (a.reg .sp).toNat)
    (hs : (a.reg .sp).toNat ≤ a.ram.size.toNat) :
    a.CanPush (a.reg .sp) ∧ a.CanPush (a.reg .sp - 8) ∧ a.CanPush (a.reg .sp - 8 - 8) ∧
      (a.framed argc ret).ram.words ((a.framed argc ret).reg .bp).toNat (3 + k) =
        [a.reg .bp, ret, argc] ++ a.ram.words (a.reg .sp).toNat k ∧
      ∀ x ≤ a.ram.sb.toNat, (a.framed argc ret).ram.bytes x = a.ram.bytes x := by
  have hsize := a.ram.size.isLt
  have hcan {sp : U64} (h : a.ram.sb.toNat + 8 < sp.toNat) (h' : sp.toNat ≤ a.ram.size.toNat) : a.CanPush sp := by
    obtain ⟨hsp, hoff⟩ := toNat_pushed_sp (by omega) h'
    refine ⟨?_, by omega⟩
    rw [BitVec.lt_def, VmM.toNat_setWidth_off, hsp]
    omega
  have g1 := (grows_pushed (a := a) (v := argc) (by omega) hs).1
  have s1 := g1.sp
  have g2 := (grows_pushed (a := a.pushed argc) (v := ret) (by omega) (by rw [g1.size]; omega)).1
  have s2 := g2.sp
  have h1 : (a.pushed argc).reg .sp = a.reg .sp - 8 := rfl
  have h2 : ((a.pushed argc).pushed ret).reg .sp = a.reg .sp - 8 - 8 := rfl
  have hframe : (a.framed argc ret).reg .bp = (((a.pushed argc).pushed ret).pushed (a.reg .bp)).reg .sp := Vm.reg_setReg ..
  refine ⟨hcan (by omega) hs, hcan (by rw [← h1]; omega) (by rw [← h1]; omega), hcan (by rw [← h2]; omega) (by rw [← h2]; omega), ?_, ?_⟩
  · rw [hframe, Nat.add_comm]
    change (((a.pushed argc).pushed ret).pushed (a.reg .bp)).ram.words _ _ = _
    rw [words_pushed (by omega) (by rw [g2.size, g1.size]; omega), words_pushed (by omega) (by rw [g1.size]; omega),
      words_pushed (by omega) hs]
    rfl
  · intro x hx
    change (((a.pushed argc).pushed ret).pushed (a.reg .bp)).ram.bytes x = _
    rw [bytes_pushed_of_lt (by omega) (by rw [g2.size, g1.size]; omega) (by omega),
      bytes_pushed_of_lt (by omega) (by rw [g1.size]; omega) (by omega), bytes_pushed_of_lt (by omega) hs (by omega)]

end

/-! ### The machine that is set up -/

/-- Only bytes of the memory changed. -/
def SameButBytes (a b : Vm) : Prop := b = { a with ram := { a.ram with bytes := b.ram.bytes } }

theorem composes_sameButBytes : Prog.Composes SameButBytes fun (_ : Stop) _ _ => True where
  refl _ := rfl
  trans h h' := by
    rw [SameButBytes] at *
    rw [h', h]
  stop _ _ := trivial

namespace VmM
open Prog

variable {vm vm' : Vm} {code : Code} {ptr mem : U64} {nhbs ss : U32}

theorem sameButBytes_store {off : U64} {bs : List U8} : Relates SameButBytes (fun _ _ _ => True) (store off bs) := by
  refine relates_of_returns fun a _ b h => ?_
  rw [(store_returns.mp h).2]
  rfl

theorem sameButBytes_forM {α : Type} {f : α → VmM Unit} (h : ∀ x, Relates SameButBytes (fun _ _ _ => True) (f x)) (l : List α) :
    Relates SameButBytes (fun _ _ _ => True) (l.forM f) := by
  induction l with
  | nil => exact relates_pure composes_sameButBytes
  | cons x l ih => exact relates_bind composes_sameButBytes (h x) fun _ => ih

/-- The memory map and the heap that `VM_init_` leaves. -/
theorem init_map {u : Unit} (h : (init code ptr mem nhbs ss).Returns vm u vm') :
    vm'.code = code ∧ code.db? = some vm'.ram.hb ∧ vm'.ram.hlm = vm'.ram.sb - 8 ∧
      vm'.heap.Bump vm'.ram.hlm 0 vm'.ram.hb.toNat ∧ vm'.heap.count = nhbs.toNat := by
  simp only [init, memoryInit, heapInit, returns_bind, returns_ofOption, returns_modify, returns_get] at h
  obtain ⟨db, _, ⟨hdb, rfl⟩, _, _, rfl, _, _, rfl, _, _, ⟨_, _, ⟨rfl, rfl⟩, heap, _, ⟨hheap, rfl⟩, rfl⟩, header, _, ⟨-, rfl⟩, _, mid,
    hstore, hloop⟩ := h
  have hmid := sameButBytes_store.of_returns hstore
  have hlast : SameButBytes mid vm' := (sameButBytes_forM (fun i => relates_bind composes_sameButBytes
    (relates_of_returns fun a _ b hm => (mem_returns.mp hm).2.2 ▸ composes_sameButBytes.refl a) fun _ => sameButBytes_store) _
    ).of_returns hloop
  have hall := composes_sameButBytes.trans hmid hlast
  obtain ⟨hbump, hcount⟩ := Heap.bump_init hheap
  rw [SameButBytes] at hall
  rw [hall]
  exact ⟨rfl, hdb, rfl, hbump, hcount⟩

end VmM

/-! ### The arguments of the program -/

/-- The arguments of the program are at `addrs`, on a frame that returns past the end of the code. -/
structure Vm.PassedAt (vm : Vm) (argv : List (List U8)) (addrs : List Nat) : Prop where
  argc : vm.reg .r0 = BitVec.ofNat 64 argv.length
  length : addrs.length = argv.length
  sp : vm.reg .sp = vm.reg .bp
  frame : vm.ram.words (vm.reg .bp).toNat (3 + argv.length) =
    [vm.ram.size.setWidth 64, BitVec.ofNat 64 vm.code.len, BitVec.ofNat 64 argv.length] ++ (addrs.map (BitVec.ofNat 64)).reverse
  copies : ∀ p ∈ addrs.zip argv, vm.ram.slice p.1 (p.2.length + 1) = p.2 ++ [0]
  inside : ∀ p ∈ addrs.zip argv, vm.ram.hb.toNat ≤ p.1 ∧ p.1 + p.2.length + 1 ≤ vm.ram.hlm.toNat
  apart : (addrs.zip argv).Pairwise fun p q => p.1 + p.2.length + 1 ≤ q.1 ∨ q.1 + q.2.length + 1 ≤ p.1

/-- Nothing is passed at first. -/
theorem passing_start {vm : Vm} (db : U32) (argc : Nat) (hbump : vm.heap.Bump vm.ram.hlm 0 vm.ram.hb.toNat) :
    Passing (vm.atStart db argc) [] (vm.atStart db argc) where
  code := rfl
  regs _ _ := rfl
  ram := rfl
  sp := VmM.toNat_setWidth_off vm.ram.size
  heap := hbump
  count := rfl
  words := rfl
  copies _ hp := absurd hp List.not_mem_nil
  kept _ _ _ := rfl

/-- Different arguments do not touch each other's bytes, nor the byte behind. -/
theorem argAddrs_apart {top : Nat} {argv : List (List U8)} {p q : Nat × List U8} (hp : p ∈ (argAddrs top argv).zip argv)
    (hq : q ∈ (argAddrs top argv).zip argv) : p.1 + p.2.length < q.1 ∨ q.1 + q.2.length ≤ p.1 + p.2.length := by
  have hpq := length_lt_argSpace p.2
  have hqp := length_lt_argSpace q.2
  obtain ⟨i, hi⟩ := List.getElem?_of_mem hp
  obtain ⟨j, hj⟩ := List.getElem?_of_mem hq
  obtain ⟨hilt, rfl⟩ := List.getElem?_eq_some_iff.mp hi
  obtain ⟨hjlt, rfl⟩ := List.getElem?_eq_some_iff.mp hj
  have hpair := List.pairwise_iff_getElem.mp (argAddrs_pairwise top argv)
  rcases Nat.lt_trichotomy i j with hlt | rfl | hlt
  · have hle := hpair i j hilt hjlt hlt
    exact .inl (by omega)
  · exact .inr (le_refl _)
  · have hle := hpair j i hjlt hilt hlt
    exact .inr (by omega)

/-- The addresses that a frame shows are known by their words. -/
theorem map_ofNat_inj {l l' : List Nat} (hl : ∀ x ∈ l, x < 2 ^ 64) (hl' : ∀ x ∈ l', x < 2 ^ 64)
    (h : l.map (BitVec.ofNat 64) = l'.map (BitVec.ofNat 64)) : l = l' := by
  have hid {l : List Nat} (hl : ∀ x ∈ l, x < 2 ^ 64) : (l.map (BitVec.ofNat 64)).map BitVec.toNat = l := by
    rw [List.map_map]
    refine (List.map_congr_left fun x hx => ?_).trans (List.map_id l)
    exact (BitVec.toNat_ofNat x 64).trans (Nat.mod_eq_of_lt (hl x hx))
  rw [← hid hl, ← hid hl', h]

theorem Vm.PassedAt.lt {vm : Vm} {argv : List (List U8)} {addrs : List Nat} (h : vm.PassedAt argv addrs) :
    ∀ x ∈ addrs, x < 2 ^ 64 := by
  intro x hx
  rw [← List.map_fst_zip (Nat.le_of_eq h.length), List.mem_map] at hx
  obtain ⟨p, hp, rfl⟩ := hx
  have hstop := (h.inside p hp).2
  have hlmt := vm.ram.hlm.isLt
  omega

namespace Vm.Starts
variable {vm vm' : Vm} {argv : List (List U8)}

/-- The start leaves the arguments with whatever lies behind them in memory. -/
theorem spec (h : vm.Starts argv vm') (hbump : vm.heap.Bump vm.ram.hlm 0 vm.ram.hb.toNat) (hfits : vm.Fits argv)
    (hlm : vm.ram.hlm.toNat + 8 = vm.ram.sb.toNat) :
    vm'.code = vm.code ∧ vm'.ram = { vm.ram with bytes := vm'.ram.bytes } ∧ vm'.reg .r0 = BitVec.ofNat 64 argv.length ∧
      vm'.reg .sp = vm'.reg .bp ∧ vm'.ram.words (vm'.reg .bp).toNat (3 + argv.length) =
        [vm.ram.size.setWidth 64, BitVec.ofNat 64 vm.code.len, BitVec.ofNat 64 argv.length] ++
          ((argAddrs vm.ram.hb.toNat argv).map (BitVec.ofNat 64)).reverse ∧
      ∀ p ∈ (argAddrs vm.ram.hb.toNat argv).zip argv,
        vm'.ram.slice p.1 (p.2.length + 1) = p.2 ++ [vm.ram.bytes (p.1 + p.2.length)] := by
  obtain ⟨db, mid, hdb, hargs, h1, h2, h3, rfl⟩ := VmM.starts_iff.mp h
  have P : Passing (vm.atStart db argv.length) argv mid := (passing_start db argv.length hbump).run ⟨hfits.blocks, hfits.heap, hfits.stack⟩ hlm hargs
  have hsp : (mid.reg .sp).toNat + 8 * argv.length = vm.ram.size.toNat := P.sp
  have hram : mid.ram.size = vm.ram.size ∧ mid.ram.sb = vm.ram.sb := by rw [P.ram]; exact ⟨rfl, rfl⟩
  have hstack := hfits.stack
  have hroom : mid.ram.sb.toNat + 24 < (mid.reg .sp).toNat := by rw [hram.2]; omega
  have hle : (mid.reg .sp).toNat ≤ mid.ram.size.toNat := by rw [hram.1]; omega
  obtain ⟨-, -, -, hwords, hbytes⟩ := framed_frame (BitVec.ofNat 64 argv.length)
    (BitVec.ofNat 64 vm.code.len) argv.length hroom hle
  refine ⟨P.code, ?_, ?_, ?_, ?_, ?_⟩
  · have hset (bytes : Nat → U8) : ({ mid.ram with bytes := bytes } : Memory) = { vm.ram with bytes := bytes } :=
      congrArg (fun ram : Memory => { ram with bytes := bytes }) P.ram
    exact hset _
  · exact P.regs .r0 (by decide)
  · exact (Vm.reg_setReg_of_ne _ _ (by decide)).trans (Vm.reg_setReg ..).symm
  · rw [hwords, P.words, P.regs .bp (by decide)]
    rfl
  · intro p hp
    have hinside := (argAddrs_inside _ _ p hp).2
    have hspace := length_lt_argSpace p.2
    have hheap := hfits.heap
    have hlow : ∀ i < p.2.length + 1, (mid.framed (BitVec.ofNat 64 argv.length) (BitVec.ofNat 64 vm.code.len)).ram.bytes (p.1 + i) =
        mid.ram.bytes (p.1 + i) := fun i hi => hbytes _ (by rw [hram.2]; omega)
    have hbehind : mid.ram.bytes (p.1 + p.2.length) = vm.ram.bytes (p.1 + p.2.length) :=
      P.kept _ (show _ < vm.ram.sb.toNat by omega) fun q hq => argAddrs_apart hp hq
    rw [Memory.slice_congr hlow, Memory.slice_add, P.copies p hp, ← hbehind]
    rfl

/-- A program whose arguments fit is started. -/
theorem exists_of_fits (hbump : vm.heap.Bump vm.ram.hlm 0 vm.ram.hb.toNat) (hfits : vm.Fits argv)
    (hlm : vm.ram.hlm.toNat + 8 = vm.ram.sb.toNat) {db : U32} (hdb : vm.code.db? = some db) (hb : vm.ram.hb ≠ 0) :
    ∃ vm', vm.Starts argv vm' := by
  have hfits' : (vm.atStart db argv.length).Fits ([] ++ argv) := ⟨hfits.blocks, hfits.heap, hfits.stack⟩
  obtain ⟨mid, hargs⟩ := (passing_start db argv.length hbump).exists_run hfits' hlm hb
  have P : Passing (vm.atStart db argv.length) argv mid := (passing_start db argv.length hbump).run hfits' hlm hargs
  have hsp : (mid.reg .sp).toNat + 8 * argv.length = vm.ram.size.toNat := P.sp
  have hram : mid.ram.size = vm.ram.size ∧ mid.ram.sb = vm.ram.sb := by rw [P.ram]; exact ⟨rfl, rfl⟩
  have hstack := hfits.stack
  have hroom : mid.ram.sb.toNat + 24 < (mid.reg .sp).toNat := by rw [hram.2]; omega
  have hle : (mid.reg .sp).toNat ≤ mid.ram.size.toNat := by rw [hram.1]; omega
  obtain ⟨h1, h2, h3, -⟩ := framed_frame 0 0 0 hroom hle
  exact ⟨_, VmM.starts_iff.mpr ⟨db, mid, hdb, hargs, h1, h2, h3, rfl⟩⟩

/-- Every argument is passed with the byte behind its copy, which is a `NUL` or not. -/
theorem passed_iff (h : vm.Starts argv vm') (hbump : vm.heap.Bump vm.ram.hlm 0 vm.ram.hb.toNat) (hfits : vm.Fits argv)
    (hlm : vm.ram.hlm.toNat + 8 = vm.ram.sb.toNat) : (∃ addrs, vm'.PassedAt argv addrs) ↔
      ∀ p ∈ (argAddrs vm.ram.hb.toNat argv).zip argv, vm.ram.bytes (p.1 + p.2.length) = 0 := by
  obtain ⟨hcode, hram, hargc, hsp, hframe, hcopies⟩ := h.spec hbump hfits hlm
  have hinside := argAddrs_inside vm.ram.hb.toNat argv
  have hheap := hfits.heap
  have hmap : vm'.ram.size = vm.ram.size ∧ vm'.ram.hb = vm.ram.hb ∧ vm'.ram.hlm = vm.ram.hlm := by
    rw [hram]
    exact ⟨rfl, rfl, rfl⟩
  constructor
  · rintro ⟨addrs, hpassed⟩
    have hwords := hpassed.frame
    rw [hframe, hmap.1, hcode] at hwords
    have hlt : ∀ x ∈ argAddrs vm.ram.hb.toNat argv, x < 2 ^ 64 := by
      intro x hx
      rw [← List.map_fst_zip (Nat.le_of_eq (length_argAddrs vm.ram.hb.toNat argv)), List.mem_map] at hx
      obtain ⟨p, hp, rfl⟩ := hx
      have hstop := (hinside p hp).2
      have hsb := vm.ram.sb.isLt
      omega
    have haddrs := map_ofNat_inj hpassed.lt hlt (List.reverse_injective (List.append_cancel_left hwords)).symm
    rw [haddrs] at hpassed
    intro p hp
    have hbyte := (hcopies p hp).symm.trans (hpassed.copies p hp)
    simpa using hbyte
  · intro hzero
    refine ⟨argAddrs vm.ram.hb.toNat argv, hargc, length_argAddrs .., hsp, ?_, fun p hp => ?_, fun p hp => ?_, ?_⟩
    · rw [hframe, hmap.1, hcode]
    · rw [hcopies p hp, hzero p hp]
    · have hspace := length_lt_argSpace p.2
      obtain ⟨hle, hstop⟩ := hinside p hp
      rw [hmap.2.1, hmap.2.2]
      exact ⟨hle, by omega⟩
    · refine (argAddrs_pairwise _ _).imp fun {p q} hpq => .inl ?_
      have hspace := length_lt_argSpace p.2
      omega

end Vm.Starts

/-- The heap ends a word below the stack, when something fits there. -/
theorem Vm.Fits.hlm {vm : Vm} {argv : List (List U8)} (h : vm.Fits argv) (hhlm : vm.ram.hlm = vm.ram.sb - 8) :
    vm.ram.hlm.toNat + 8 = vm.ram.sb.toNat := by
  have hheap := h.heap
  have h8 : (8 : U32).toNat = 8 := rfl
  rw [hhlm, BitVec.toNat_sub, h8]
  omega

/-- After `VM_init_`, `VM_run` starts the program with its arguments, if every copy happens to be followed by a `NUL`
    in memory, and only then. -/
theorem VmM.init_passes_arguments {code : Code} {ptr mem : U64} {nhbs ss : U32} {vm0 vm : Vm}
    (hinit : (init code ptr mem nhbs ss).Returns vm0 () vm) {argv : List (List U8)} (hfits : vm.Fits argv) :
    (code.db? ≠ some 0 → ∃ vm', vm.Starts argv vm') ∧ ∀ vm', vm.Starts argv vm' →
      ((∃ addrs, vm'.PassedAt argv addrs) ↔
        ∀ p ∈ (argAddrs vm.ram.hb.toNat argv).zip argv, vm.ram.bytes (p.1 + p.2.length) = 0) := by
  obtain ⟨hcode, hdb, hhlm, hbump, -⟩ := init_map hinit
  have hlm := hfits.hlm hhlm
  refine ⟨fun hne => ?_, fun vm' hstart => hstart.passed_iff hbump hfits hlm⟩
  refine Vm.Starts.exists_of_fits hbump hfits hlm (hcode ▸ hdb) fun hb => hne ?_
  rw [hdb, hb]

/-- A header and `halt`. -/
def haltCode : Code :=
  ⟨leBytes 8 (17 : U64) ++ leBytes 4 (16 : U32) ++ leBytes 4 (16 : U32) ++
    [({ osz := 1, opc := ⟨OpCode.halt.toNat, OpCode.halt.toNat_lt⟩ } : Instruction).b1], by decide⟩

/-- A machine with the same byte everywhere in memory. -/
def filledVm (b : U8) : Vm where
  flags := 0
  regs _ := 0
  code := .empty
  ram := { base := 0, sb := 0, hb := 0, hlm := 0, size := 0, bytes := fun _ => b }
  heap := { free := none, used := none, fresh := none, top := 0, sth := 16, lmt := 0, aln := 8, count := 0
            next := fun _ => none, size := fun _ => 0, addr := fun _ => 0 }
  stdout := []

/-- The map of `haltCode` in a small memory. -/
theorem init_halt (b : U8) : ∃ vm, (VmM.init haltCode 0 64 4 32).Returns (filledVm b) () vm ∧ vm.Fits [[97]] ∧ vm.ram.hb = 16 ∧
    vm.ram.hlm.toNat + 8 = vm.ram.sb.toNat ∧ vm.ram.bytes 17 = b := by
  have hpasses : ∀ b : U8, (VmM.init haltCode 0 64 4 32).passes (fun _ vm => decide ((1 ≤ vm.heap.count ∧
      vm.ram.hb.toNat + 8 + 8 ≤ vm.ram.sb.toNat ∧ vm.ram.sb.toNat + 8 * 4 < vm.ram.size.toNat) ∧ vm.ram.hb = 16 ∧
      vm.ram.hlm.toNat + 8 = vm.ram.sb.toNat ∧ vm.ram.bytes 17 = b)) (filledVm b) = true := by decide +kernel
  obtain ⟨_, vm, hinit, hvm⟩ := Prog.exists_of_passes (hpasses b)
  obtain ⟨⟨hblocks, hheap, hstack⟩, hrest⟩ := of_decide_eq_true hvm
  exact ⟨vm, hinit, ⟨hblocks, hheap, hstack⟩, hrest⟩

theorem VmM.init_passes_arguments_a : ∃ vm vm', (init haltCode 0 64 4 32).Returns (filledVm 0) () vm ∧ vm.Fits [[97]] ∧
    vm.Starts [[97]] vm' ∧ ∃ addrs, vm'.PassedAt [[97]] addrs := by
  obtain ⟨vm, hinit, hfits, hhb, -, hzero⟩ := init_halt 0
  obtain ⟨hstarts, hpassed⟩ := init_passes_arguments hinit hfits
  obtain ⟨vm', hstart⟩ := hstarts (by decide)
  refine ⟨vm, vm', hinit, hfits, hstart, (hpassed vm' hstart).mpr fun p hp => ?_⟩
  rw [hhb] at hp
  obtain rfl := List.mem_singleton.mp hp
  exact hzero

/-- Nothing terminates an argument in memory that held other bytes. -/
theorem argument_unterminated : ∃ vm vm', (VmM.init haltCode 0 64 4 32).Returns (filledVm 1) () vm ∧ vm.Fits [[97]] ∧
    vm.Starts [[97]] vm' ∧ ¬∃ addrs, vm'.PassedAt [[97]] addrs := by
  obtain ⟨vm, hinit, hfits, hhb, hlm, hone⟩ := init_halt 1
  obtain ⟨hcode, hdb, -, hbump, -⟩ := VmM.init_map hinit
  obtain ⟨vm', hstart⟩ := Vm.Starts.exists_of_fits hbump hfits hlm (hcode ▸ hdb) (by rw [hhb]; decide)
  refine ⟨vm, vm', hinit, hfits, hstart, fun hpassed => ?_⟩
  have hzero := (hstart.passed_iff hbump hfits hlm).mp hpassed
  rw [hhb] at hzero
  have hbyte := hzero (16, [97]) (List.mem_singleton_self _)
  exact absurd (hone.symm.trans hbyte) (by decide)

end Cyntatic
