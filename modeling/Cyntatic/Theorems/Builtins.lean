import Cyntatic.Theorems.Frames
import Cyntatic.Vm.Builtins

/-! # Calls of native functions

What the operating system gets of the arguments that a program pushes, and what the program gets back. -/

namespace Cyntatic
open Library

/-! ### The arguments on the stack -/

section Words
variable {a b d : Vm}

/-- The values that were pushed, the last one at `sp`. -/
theorem PushRun.word {vs : List U64} {v : U64} {i : Nat} (h : PushRun vs a d) (hs : (a.reg .sp).toNat ≤ a.ram.size.toNat)
    (hv : vs[i]? = some v) : d.ram.word ((d.reg .sp).toNat + 8 * (vs.length - 1 - i)) = v := by
  induction h generalizing i with
  | done => cases hv
  | @push a b c d x xs h hp hr ih =>
    obtain ⟨hcan, rfl⟩ := VmM.push_pure_returns.mp hp
    have hsb : (b.reg .sp).toNat ≤ b.ram.size.toNat := by rw [h.sp, h.ram]; exact hs
    obtain ⟨hpush, htop⟩ := grows_pushed (v := x) hcan.le_sp hsb
    have hsc : ((b.pushed x).reg .sp).toNat ≤ (b.pushed x).ram.size.toNat := by
      have := hpush.sp
      rw [hpush.size]
      omega
    have hrest := hr.grows hsc
    have hsp := hrest.sp
    cases i with
    | zero =>
      obtain rfl := Option.some.inj hv
      rw [List.length_cons, Nat.add_sub_cancel, Nat.sub_zero, hsp, Memory.word_congr fun i _ => hrest.bytes _ (by omega)]
      exact htop
    | succ i =>
      have hi := ih hsc hv
      rw [List.length_cons, Nat.add_sub_cancel, show xs.length - (i + 1) = xs.length - 1 - i by omega]
      exact hi

end Words

namespace VmM
open Prog

variable {d d' : Vm} {argv : Option U64} {args words : List U64}

/-- `args[-i]` are some words in memory. -/
def ArgsAt (d : Vm) (argv : Option U64) (words : List U64) : Prop :=
  ∀ i v, words[i]? = some v → (arg argv i).Returns d v d

/-- What a list of words is converted to. -/
def converted (params : List ArgType) (words : List U64) : List U64 := List.zipWith ArgType.convert params words

theorem readArgs_returns {i : Nat} {params : List ArgType} (h : ArgsAt d argv words) (hlen : i + params.length ≤ words.length) :
    (readArgs argv i params).Returns d (converted params (words.drop i)) d := by
  induction params generalizing i with
  | nil => exact returns_pure.mpr ⟨by simp [converted], rfl⟩
  | cons t params ih =>
    rw [List.length_cons] at hlen
    have hlt : i < words.length := by omega
    have hrest := @ih (i + 1) (by omega)
    refine returns_bind.mpr ⟨_, d, h i words[i] (List.getElem?_eq_getElem hlt), ?_⟩
    refine returns_bind.mpr ⟨_, d, hrest, returns_pure.mpr ⟨?_, rfl⟩⟩
    rw [converted, List.drop_eq_getElem_cons hlt, List.zipWith_cons_cons, converted]

end VmM

/-! ### What is passed on -/

namespace BuiltinNativeCall
open VmM (converted)

/-- The number of arguments that a builtin requires, and the parameters that it reads. -/
def fixed : BuiltinNativeCall → Option (Nat × List ArgType)
  | bncRead | bncWrite => some (3, [.int, .word, .word])
  | bncClose | bncDup => some (1, [.int])
  | bncStat | bncLstat => some (2, [.word, .word])
  | bncFstat => some (2, [.int, .word])
  | bncPoll => some (3, [.word, .word, .int])
  | bncLseek => some (3, [.int, .word, .int])
  | bncPipe => some (1, [.word])
  | bncSelect => some (5, [.int, .word, .word, .word, .word])
  | bncDup2 => some (1, [.int, .int])
  | bncGetpid => some (0, [])
  | bncSendfile => some (4, [.int, .int, .word, .word])
  | bncSocket => some (3, [.int, .int, .int])
  | bncConnect | bncBind => some (3, [.int, .word, .uint])
  | bncAccept | bncGetsockname | bncGetpeername => some (3, [.int, .word, .word])
  | bncSendto => some (6, [.int, .word, .word, .int, .word, .uint])
  | bncRecvfrom => some (6, [.int, .word, .word, .int, .word, .word])
  | bncShutdown | bncListen => some (2, [.int, .int])
  | _ => none

/-- The type of the result. -/
def result : BuiltinNativeCall → ArgType
  | bncRead | bncWrite | bncLseek | bncSendfile | bncSendto | bncRecvfrom => .word
  | _ => .int

/-- What a builtin calls the operating system with, if it calls it at all. Their number is pushed after the arguments,
    so it is what a builtin finds behind them. -/
def passes (bnc : BuiltinNativeCall) (args : List U64) : Option (List U64) :=
  let words := args ++ [BitVec.ofNat 64 args.length]
  match bnc with
  | bncOpen =>
    if args.length = 2 then some (converted [.word, .int] words ++ [0o640])
    else if args.length = 3 then some (converted [.word, .int, .uint] words)
    else none
  | bncFcntl =>
    if args.length = 2 then some (converted [.int, .int, .word] words)
    else if args.length = 3 then some (converted [.int, .int] words)
    else none
  | bnc => bnc.fixed.bind fun f => if args.length = f.1 then some (converted f.2 words) else none

end BuiltinNativeCall

namespace VmM
open Prog

variable {d : Vm} {os : Os} {argv : Option U64} {args : List U64} {E : Stop → Prop} {Q : Unit → Vm → Prop}

theorem toNat_nargs (hlen : args.length ≤ 255) : (BitVec.ofNat 32 args.length).toNat = args.length := by
  rw [BitVec.toNat_ofNat]
  omega

theorem native_ends {id : BuiltinNativeCall} {n : Nat} {params : List ArgType} {result : ArgType} {text : String}
    (hlen : args.length ≤ 255) (h : args.length ≠ 0 → ArgsAt d argv (args ++ [BitVec.ofNat 64 args.length]))
    (hn : params.length ≤ n + 1) (hzero : n = 0 → params = []) (hE : ∀ fmt as, E (.abort fmt as))
    (hQ : ∀ vals, (if args.length = n then some (converted params (args ++ [BitVec.ofNat 64 args.length])) else none) = some vals →
      (callOs os id result vals).Ends E Q d) :
    (native os id n params result text argv (BitVec.ofNat 32 args.length)).Ends E Q d := by
  refine ends_bind.mpr (ends_stopIf (fun _ => hE _ _) fun heq => ?_)
  rw [toNat_nargs hlen, not_not] at heq
  have hvals := hQ _ (if_pos heq)
  by_cases hnil : args.length = 0
  · obtain rfl := hzero (heq.symm.trans hnil)
    exact hvals
  · refine ends_bind_of_returns (readArgs_returns (h hnil) ?_) hvals
    rw [List.length_append, List.length_singleton]
    omega

/-- A number of arguments that a builtin with two or three of them accepts. -/
theorem args_of_nargs (hlen : args.length ≤ 255)
    (h : BitVec.ofNat 32 args.length = 2 ∨ BitVec.ofNat 32 args.length = 3) : (∃ x y, args = [x, y]) ∨ ∃ x y z, args = [x, y, z] := by
  rcases h with h | h
  · exact .inl (List.length_eq_two.mp (by rw [← toNat_nargs hlen, h]; rfl))
  · exact .inr (List.length_eq_three.mp (by rw [← toNat_nargs hlen, h]; rfl))

theorem vmBncOpen_ends (hlen : args.length ≤ 255)
    (h : args.length ≠ 0 → ArgsAt d argv (args ++ [BitVec.ofNat 64 args.length])) (hE : ∀ fmt as, E (.abort fmt as))
    (hQ : ∀ vals, BuiltinNativeCall.bncOpen.passes args = some vals → (callOs os .bncOpen .int vals).Ends E Q d) :
    (vmBncOpen os argv (BitVec.ofNat 32 args.length)).Ends E Q d := by
  refine ends_bind.mpr (ends_stopIf (fun _ => hE _ _) fun hnargs => ?_)
  obtain ⟨x, y, rfl⟩ | ⟨x, y, z, rfl⟩ := args_of_nargs hlen (not_not.mp hnargs)
  · refine ends_bind_of_returns (readArgs_returns (h (by simp)) (by simp)) ?_
    exact ends_bind_of_returns (a := 0o640) (returns_pure.mpr ⟨rfl, rfl⟩) (hQ _ rfl)
  · refine ends_bind_of_returns (readArgs_returns (h (by simp)) (by simp)) ?_
    refine ends_bind_of_returns (a := ArgType.uint.convert z) ?_ (hQ _ rfl)
    exact returns_bind.mpr ⟨z, d, h (by simp) 2 z rfl, returns_pure.mpr ⟨rfl, rfl⟩⟩

theorem vmBncFcntl_ends (hlen : args.length ≤ 255)
    (h : args.length ≠ 0 → ArgsAt d argv (args ++ [BitVec.ofNat 64 args.length])) (hE : ∀ fmt as, E (.abort fmt as))
    (hQ : ∀ vals, BuiltinNativeCall.bncFcntl.passes args = some vals → (callOs os .bncFcntl .int vals).Ends E Q d) :
    (vmBncFcntl os argv (BitVec.ofNat 32 args.length)).Ends E Q d := by
  refine ends_bind.mpr (ends_stopIf (fun _ => hE _ _) fun hnargs => ?_)
  obtain ⟨x, y, rfl⟩ | ⟨x, y, z, rfl⟩ := args_of_nargs hlen (not_not.mp hnargs)
  · refine ends_bind_of_returns (readArgs_returns (h (by simp)) (by simp)) ?_
    exact ends_bind_of_returns (h (by simp) 2 2 rfl) (hQ _ rfl)
  · exact ends_bind_of_returns (readArgs_returns (h (by simp)) (by simp)) (hQ _ rfl)

/-- A builtin aborts, or it calls the operating system with what it passes on. -/
theorem table_ends (bnc : BuiltinNativeCall) (hlen : args.length ≤ 255)
    (h : args.length ≠ 0 → ArgsAt d argv (args ++ [BitVec.ofNat 64 args.length])) (hE : ∀ fmt as, E (.abort fmt as))
    (hQ : ∀ vals, bnc.passes args = some vals → (callOs os bnc bnc.result vals).Ends E Q d) :
    (vmNativeBuiltinCallTbl os bnc argv (BitVec.ofNat 32 args.length)).Ends E Q d := by
  cases bnc with
  | bncOpen => exact vmBncOpen_ends hlen h hE hQ
  | bncFcntl => exact vmBncFcntl_ends hlen h hE hQ
  | bncFlock | bncFsync | bncFetcwd | bncChdir | bncRename | bncMkdir | bncRmdir | bncCreat | bncLink | bncUnlink | bncSymlink =>
    exact hE _ _
  | _ => exact native_ends hlen h (by decide) (by decide) hE hQ

/-! ### What comes back -/

/-- A push writes nothing below the new `sp`. -/
theorem pushed_low {a : Vm} {v : U64} {i : Nat} (h8 : 8 ≤ (a.reg .sp).toNat) (hs : (a.reg .sp).toNat ≤ a.ram.size.toNat)
    (hi : i < ((a.pushed v).reg .sp).toNat) : (a.pushed v).ram.bytes i = a.ram.bytes i := by
  have hsp := (grows_pushed (v := v) h8 hs).1.sp
  have hoff := (toNat_pushed_sp h8 hs).2
  exact Memory.bytes_store_of_lt (by omega)

/-- The return of one result writes nothing below `sp`. -/
theorem leave_low {n : Nat} {v : U64} (hn : n ≤ 255) (hnargs : d.ram.word ((d.reg .bp).toNat + 16) = BitVec.ofNat 64 n)
    (hle : (d.reg .bp).toNat + 24 + 8 * n ≤ d.ram.size.toNat) :
    (leave (some (.host [v])) 1).Ends Stop.IsAbort
      (fun _ f => ∀ i, i < (f.reg .sp).toNat → f.ram.bytes i = d.ram.bytes i) d := by
  obtain ⟨e, hram, hsp, -, -, hrest⟩ := leave_reaches (some (.host [v])) 1 hn hnargs hle
  refine hrest (ends_bind.mpr ?_)
  have hone : wordsSize 1 = 8 := rfl
  have hesp : ((e.setReg .sp (e.reg .sp - 8)).reg .sp).toNat = (e.reg .sp).toNat - 8 := by
    rw [Vm.reg_setReg]
    exact (@toNat_pushed_sp _ d.ram.size (by omega) (by omega)).1
  have hcopy := @copyData_ends (e.setReg .sp (e.reg .sp - 8)) 1 (.host [v]) [v]
    (by rw [hesp, Vm.ram_setReg, hram, List.length_singleton]; omega) 0 rfl rfl
    (by rw [hesp, List.length_singleton]; omega)
  refine ends_bind.mpr (pushn_ends (hcopy.mono ?_))
  -- After the result is stored, its number is still to be pushed.
  rintro - g ⟨bs, hg, -, -⟩
  have hgsp : (g.reg .sp).toNat = (e.reg .sp).toNat - 8 := by rw [hg, Vm.reg_setBytes, hesp]
  have hgsize : g.ram.size = d.ram.size := by rw [hg, Vm.size_setBytes, Vm.ram_setReg, hram]
  have hglow : ∀ i, i < (g.reg .sp).toNat → g.ram.bytes i = d.ram.bytes i := by
    intro i hi
    rw [hg, ← hram]
    exact Memory.bytes_store_of_lt (by omega)
  have h8 : 8 ≤ (g.reg .sp).toNat := by omega
  have hs : (g.reg .sp).toNat ≤ g.ram.size.toNat := by rw [hgsize]; omega
  refine ⟨hs, (push_ends h8 hs).mono ?_⟩
  rintro - f rfl i hi
  have hsp' := (grows_pushed (v := ((1 : U32).setWidth 64 : U64)) h8 hs).1.sp
  exact (pushed_low h8 hs hi).trans (hglow i (by omega))

/-- The result of the operating system comes back to the program, and what it wrote stays below `sp`. -/
theorem callOs_ends {a : Vm} {ip : U64} {n : Nat} {bnc : BuiltinNativeCall} {vals : List U64} (ha : a.StackOk)
    (hf : FrameAt a ip n d) (hn : n ≤ 255)
    (hos : ∀ i, (d.reg .bp).toNat ≤ i → i < d.ram.size.toNat → (os.call bnc vals d.ram).2 i = d.ram.bytes i) :
    (callOs os bnc bnc.result vals).Ends Stop.IsAbort (fun _ f =>
      Returned a ip [bnc.result.convert (os.call bnc vals d.ram).1] f ∧
        ∀ i, i < (f.reg .sp).toNat → f.ram.bytes i = (os.call bnc vals d.ram).2 i) d := by
  have hkeeps : KeepsFrame d (d.afterCall os bnc vals) := ⟨rfl, rfl, rfl, hos⟩
  have hsize : (a.reg .sp).toNat ≤ a.ram.size.toNat := Nat.le_trans ha.sp_le ha.bp_le
  have hf' := hf.kept hkeeps hsize
  have hbp := hf'.bp
  have hreturn := @leave_ends _ _ [bnc.result.convert (os.call bnc vals d.ram).1] _ _ 0 _ ha hf' hn (by simp)
    (by rw [List.length_singleton]; omega) fun _ => ⟨.host _, rfl, rfl⟩
  have hlow := @leave_low _ _ (bnc.result.convert (os.call bnc vals d.ram).1) hn hf'.nargs (by rw [hf'.size]; omega)
  refine ends_bind_of_returns (returns_get.mpr ⟨rfl, rfl⟩) (ends_bind_of_returns (returns_modify (u := ()).mpr rfl) ?_)
  exact (hreturn.and hlow).imp (fun _ h => h.1) fun _ _ h => h

end VmM

/-! ### Native calls -/

namespace VmM
open Prog

/-- A frame is made. -/
theorem enter_ends {α : Type} {b : Vm} {m : VmM α} {E : Stop → Prop} {Q : α → Vm → Prop} (hcan : b.CanPush (b.reg .sp))
    (hcan' : (b.pushed (b.reg .ip)).CanPush ((b.pushed (b.reg .ip)).reg .sp)) (hm : m.Ends E Q b.entered) :
    (do push (getReg .ip); push (getReg .bp); setReg .bp (← getReg .sp); m : VmM α).Ends E Q b := by
  have hbp : (b.pushed (b.reg .ip)).reg .bp = b.reg .bp := by
    rw [Vm.pushed, Vm.reg_setBytes, Vm.reg_setReg_of_ne _ _ (by decide)]
  refine ends_bind_of_returns ((push_getReg_returns (u := ()) (by decide)).mpr ⟨hcan, rfl⟩) ?_
  refine ends_bind_of_returns ((push_getReg_returns (u := ()) (by decide)).mpr ⟨hcan', rfl⟩) ?_
  refine ends_bind_of_returns (getReg_returns.mpr ⟨rfl, rfl⟩) (ends_bind_of_returns (setReg_returns (u := ()).mpr rfl) ?_)
  rw [hbp]
  exact hm

end VmM

namespace Calls
open Prog VmM

variable {a b c : Vm} {args : List U64} {os : Os} {others : Host}

/-- The callee has the frame at the end of the two pushes. -/
theorem entered (h : Calls a b c args) : b.CanPush (b.reg .sp) ∧
    (b.pushed (b.reg .ip)).CanPush ((b.pushed (b.reg .ip)).reg .sp) ∧ c.ram = b.entered.ram ∧
    c.reg .bp = b.entered.reg .bp := by
  obtain ⟨hcan, hcan', rfl | ⟨ip, rfl⟩⟩ := h.enter.entered
  · exact ⟨hcan, hcan', rfl, rfl⟩
  · exact ⟨hcan, hcan', rfl, Vm.reg_setReg_of_ne _ _ (by decide)⟩

/-- The arguments and their number are where the caller has pushed them. -/
theorem words_at (h : Calls a b c args) {i : Nat} {v : U64} (hv : (args ++ [BitVec.ofNat 64 args.length])[i]? = some v) :
    b.ram.word ((b.reg .sp).toNat + 8 * (args.length - i)) = v ∧
      b.entered.ram.word ((b.reg .sp).toNat + 8 * (args.length - i)) = v := by
  have hsize := Nat.le_trans h.ok.sp_le h.ok.bp_le
  have hgrows := h.push.grows hsize
  have hword := h.push.word hsize hv
  rw [List.length_append, List.length_singleton, Nat.add_sub_cancel] at hword
  obtain ⟨hcan, hcan', -, -⟩ := h.entered
  have hsb : (b.reg .sp).toNat ≤ b.ram.size.toNat := by
    have := hgrows.sp
    rw [hgrows.size]
    omega
  have hip := (grows_pushed (v := b.reg .ip) hcan.le_sp hsb).1
  have hsp' : ((b.pushed (b.reg .ip)).reg .sp).toNat ≤ (b.pushed (b.reg .ip)).ram.size.toNat := by
    have := hip.sp
    rw [hip.size]
    omega
  have hboth := hip.trans (grows_pushed (v := b.reg .bp) hcan'.le_sp hsp').1
  refine ⟨hword, ?_⟩
  rw [← hword]
  exact Memory.word_congr fun i _ => hboth.bytes _ (by omega)

/-- `argv` of `ApplyNcall`. -/
def argv (_ : Calls a b c args) : Option U64 :=
  if args.length = 0 then none else some (b.reg .sp + BitVec.ofNat 64 args.length <<< 3)

theorem nativeArgs_returns (h : Calls a b c args) : (nativeArgs (BitVec.ofNat 64 args.length)).Returns b h.argv b := by
  have hn := h.nargs_le
  have hgrows := h.push.grows (Nat.le_trans h.ok.sp_le h.ok.bp_le)
  have hsp := hgrows.sp
  have hle := Nat.le_trans h.ok.sp_le h.ok.bp_le
  have hsize := a.ram.size.isLt
  rw [List.length_append, List.length_singleton] at hsp
  have hlen : (BitVec.ofNat 64 args.length).toNat = args.length := by
    rw [BitVec.toNat_ofNat]
    omega
  unfold nativeArgs argv
  by_cases hnil : args.length = 0
  · rw [if_pos hnil, if_pos (by rw [hnil]; rfl)]
    exact returns_pure.mpr ⟨rfl, rfl⟩
  · rw [if_neg hnil, if_neg fun h0 => hnil (by rw [← hlen, h0]; rfl)]
    refine returns_bind.mpr ⟨_, _, getReg_returns.mpr ⟨rfl, rfl⟩, returns_bind.mpr ⟨_, _, mem_at ?_, returns_pure.mpr ⟨rfl, rfl⟩⟩⟩
    rw [BitVec.toNat_add, BitVec.toNat_shiftLeft, hlen, Nat.shiftLeft_eq, hgrows.size]
    omega

/-- What `ApplyNcall` passes to a builtin. -/
theorem argsAt (h : Calls a b c args) (hlen : args.length ≠ 0) :
    ArgsAt b.entered h.argv (args ++ [BitVec.ofNat 64 args.length]) := by
  intro i v hv
  rw [argv, if_neg hlen]
  have hgrows := h.push.grows (Nat.le_trans h.ok.sp_le h.ok.bp_le)
  have hsp := hgrows.sp
  have hle := Nat.le_trans h.ok.sp_le h.ok.bp_le
  have hn := h.nargs_le
  have hsize := a.ram.size.isLt
  have hi : i ≤ args.length := by
    have hlt := (List.getElem?_eq_some_iff.mp hv).1
    rw [List.length_append, List.length_singleton] at hlt
    omega
  rw [List.length_append, List.length_singleton] at hsp
  have hoff : (b.reg .sp + BitVec.ofNat 64 args.length <<< 3 - BitVec.ofNat 64 (8 * i)).toNat =
      (b.reg .sp).toNat + 8 * (args.length - i) := by
    have hshift : (BitVec.ofNat 64 args.length <<< 3).toNat = 8 * args.length := by
      rw [BitVec.toNat_shiftLeft, BitVec.toNat_ofNat, Nat.shiftLeft_eq]
      omega
    rw [BitVec.toNat_sub, BitVec.toNat_add, hshift, BitVec.toNat_ofNat]
    omega
  refine loadWord_returns.mpr ⟨?_, ?_, rfl⟩
  · rw [hoff]
    change _ ≤ b.ram.size.toNat
    rw [hgrows.size]
    omega
  · rw [hoff]
    exact (h.words_at hv).2.symm

end Calls

/-- An operating system where every call fails, and none writes to memory. -/
def Os.failing : Os := ⟨fun _ _ ram => (-1, ram.bytes)⟩

end Cyntatic
