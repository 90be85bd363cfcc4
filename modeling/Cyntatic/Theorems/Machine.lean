import Cyntatic.Theorems.HeapFrees
import Cyntatic.Theorems.StartUp
import Cyntatic.Vm.Builtins

/-! # What a program cannot change

A program writes to registers and to memory as it likes. The code, the memory map and the lists of the heap are out of
its reach, whatever it does and however it ends. -/

namespace Cyntatic
open Library

/-- `b` is `a` some steps later: the code and the memory map are the same, output was only added, and the heap was only
    changed by its own calls. -/
structure Evolves (a b : Vm) : Prop where
  code : b.code = a.code
  ram : b.ram = { a.ram with bytes := b.ram.bytes }
  stdout : a.stdout <+: b.stdout
  heap : Heap.Run (fun _ _ => True) a.heap b.heap

/-- The machine evolves up to a stop, which is not in a list of the heap that does not end. -/
structure Halts (e : Stop) (a b : Vm) : Prop where
  evolves : Evolves a b
  heap : (∃ L, Heap.Rep a.heap L []) → e ≠ .heap

theorem Heap.Run.trans {ok : Heap → U32 → Prop} {h₀ h₁ h₂ : Heap} (h : Run ok h₀ h₁) (h' : Run ok h₁ h₂) : Run ok h₀ h₂ := by
  induction h' with
  | init => exact h
  | alloc _ hok hc ih => exact .alloc ih hok hc
  | free _ hc ih => exact .free ih hc

/-- The lists of the heap are lists after every call. -/
theorem Heap.Run.rep {ok : Heap → U32 → Prop} {h₀ h : Heap} (hr : Run ok h₀ h) (h₀_rep : ∃ L, Rep h₀ L []) : ∃ L, Rep h L [] := by
  obtain ⟨L₀, R₀⟩ := h₀_rep
  obtain ⟨L, R, -⟩ := hr.lists_of (P := fun _ => True) R₀ trivial (fun _ _ _ _ _ _ => trivial) fun _ _ _ => trivial
  exact ⟨L, R⟩

theorem Evolves.refl (a : Vm) : Evolves a a := ⟨rfl, rfl, List.prefix_refl _, .init⟩

theorem Evolves.trans {a b c : Vm} (h : Evolves a b) (h' : Evolves b c) : Evolves a c where
  code := h'.code.trans h.code
  ram := by rw [h'.ram, h.ram]
  stdout := h.stdout.trans h'.stdout
  heap := h.heap.trans h'.heap

theorem composes_evolves : Prog.Composes Evolves Halts where
  refl := Evolves.refl
  trans := Evolves.trans
  stop h h' := ⟨h.trans h'.evolves, fun hrep => h'.heap (h.heap.rep hrep)⟩

/-- Native functions do no more to the machine than its own operations. -/
def Host.Keeps (host : Host) : Prop := ∀ id argv n, (Prog.lift (host.native id argv n) : VmM Unit).Relates Evolves Halts

namespace VmM
open Prog

variable {α β : Type} {m : VmM α} {f : α → VmM β} {ins : Instruction} {p rA rB : Place} {ta tb mode : Mode}

/-- A part of the machine that does nothing a program cannot do. -/
abbrev Evolving (m : VmM α) : Prop := Relates Evolves Halts m

/-! ### Parts of operations -/

theorem evolving_bind (hm : Evolving m) (hf : ∀ a, Evolving (f a)) : Evolving (m >>= f) := relates_bind composes_evolves hm hf

theorem evolving_pure {a : α} : Evolving (pure a) := relates_pure composes_evolves

theorem evolving_get : Evolving get := relates_get composes_evolves

theorem evolving_emit {x : Access} : Evolving (emit x) := Evolves.refl

theorem halts_self {e : Stop} (h : e ≠ .heap) (vm : Vm) : Halts e vm vm := ⟨.refl vm, fun _ => h⟩

theorem evolving_stop {e : Stop} (h : e ≠ .heap) : Evolving (stop e : VmM α) := relates_stop (halts_self h)

theorem evolving_stopIf {c : Prop} [Decidable c] {e : Stop} (h : e ≠ .heap) : Evolving (stopIf c e) :=
  relates_stopIf composes_evolves (halts_self h)

theorem evolving_ofOption {e : Stop} {x : Option α} (h : e ≠ .heap) : Evolving (ofOption e x) :=
  relates_ofOption composes_evolves (halts_self h)

/-- A change of the registers, the flags and the bytes of memory. -/
theorem evolving_modify {g : Vm → Vm} (hcode : ∀ vm, (g vm).code = vm.code) (hstdout : ∀ vm, (g vm).stdout = vm.stdout)
    (hheap : ∀ vm, (g vm).heap = vm.heap) (hram : ∀ vm, (g vm).ram = { vm.ram with bytes := (g vm).ram.bytes }) :
    Evolving (modify g) := by
  refine relates_modify fun vm => ⟨hcode vm, hram vm, ?_, ?_⟩
  · rw [hstdout]
  · rw [hheap]
    exact .init

theorem evolving_setReg {r : Register} {v : U64} : Evolving (setReg r v) :=
  evolving_modify (fun _ => rfl) (fun _ => rfl) (fun _ => rfl) fun _ => rfl

theorem evolving_getReg {r : Register} : Evolving (getReg r) := evolving_bind evolving_get fun _ => evolving_pure

theorem evolving_print {o : Output} : Evolving (print o) :=
  relates_modify fun vm => ⟨rfl, rfl, List.prefix_append vm.stdout [o], .init⟩

theorem evolving_mem {addr : U32} : Evolving (mem addr) :=
  evolving_bind evolving_get fun _ => evolving_bind (evolving_stopIf nofun) fun _ => evolving_pure

theorem evolving_load {off : U64} {n : Nat} : Evolving (load off n) :=
  evolving_bind evolving_get fun _ => evolving_bind (evolving_stopIf nofun) fun _ => evolving_pure

theorem evolving_store {off : U64} {bs : List U8} : Evolving (store off bs) :=
  evolving_bind evolving_get fun _ => evolving_bind (evolving_stopIf nofun) fun _ =>
    evolving_modify (fun _ => rfl) (fun _ => rfl) (fun _ => rfl) fun _ => rfl

theorem evolving_loadWord {off : U64} : Evolving (loadWord off) := evolving_bind evolving_load fun _ => evolving_pure

theorem evolving_read : Evolving (read ins p mode) := by
  refine evolving_bind evolving_emit fun _ => ?_
  cases p with
  | null => exact evolving_stop nofun
  | reg n => exact evolving_bind evolving_get fun _ => evolving_bind (evolving_ofOption nofun) fun _ => evolving_pure
  | imm => exact evolving_pure
  | ram off addr => exact evolving_bind evolving_load fun _ => evolving_pure

theorem evolving_write {v : U64} : Evolving (write p v mode) := by
  refine evolving_bind evolving_emit fun _ => ?_
  cases p with
  | null => exact evolving_stop nofun
  | reg n => exact evolving_bind (evolving_ofOption nofun) fun _ => evolving_bind evolving_getReg fun _ => evolving_setReg
  | imm => exact evolving_pure
  | ram off addr => exact evolving_store

theorem evolving_copyData {data : Option Data} {count : U8} : Evolving (copyData data count) := by
  rcases data with _ | src | vals
  · exact evolving_pure
  · exact evolving_bind evolving_getReg fun _ => evolving_bind evolving_mem fun _ => evolving_bind evolving_load fun _ =>
      evolving_bind (evolving_stopIf nofun) fun _ => evolving_store
  · exact evolving_bind evolving_getReg fun _ => evolving_bind evolving_mem fun _ =>
      evolving_bind (evolving_stopIf nofun) fun _ => evolving_store

theorem evolving_pushn {data : Option Data} {count : U8} : Evolving (pushn data count) :=
  evolving_bind evolving_get fun _ => evolving_bind (evolving_stopIf nofun) fun _ => evolving_bind evolving_setReg fun _ =>
    evolving_bind evolving_copyData fun _ => evolving_bind evolving_getReg fun _ => evolving_mem

theorem evolving_push {m : VmM U64} (h : Evolving m) : Evolving (push m) :=
  evolving_bind evolving_pushn fun _ => evolving_bind h fun _ => evolving_store

theorem evolving_popn {count : U8} : Evolving (popn count) :=
  evolving_bind evolving_get fun _ => evolving_bind (evolving_stopIf nofun) fun _ => evolving_bind evolving_mem fun _ =>
    evolving_bind evolving_setReg fun _ => evolving_pure

theorem evolving_pop : Evolving pop := evolving_bind evolving_popn fun _ => evolving_loadWord

/-! ### The heap -/

/-- A call of the heap that always ends, and what is returned of its result. -/
theorem evolving_call (call : Heap → Option (β × Heap)) (g : β → α)
    (hm : ∀ vm, (m vm).2 = match call vm.heap with
      | some (b, heap) => .ok (g b) { vm with heap := heap }
      | none => .stop .heap vm)
    (hends : ∀ h L, Heap.Rep h L [] → ∃ b h', call h = some (b, h'))
    (hrun : ∀ h b h', call h = some (b, h') → Heap.Run (fun _ _ => True) h h') : Evolving m := by
  intro vm
  rw [hm]
  rcases hc : call vm.heap with _ | ⟨b, h⟩
  · refine ⟨.refl vm, fun ⟨L, R⟩ => ?_⟩
    obtain ⟨b, h', hsome⟩ := hends _ L R
    rw [hc] at hsome
    cases hsome
  · exact ⟨rfl, rfl, List.prefix_refl _, hrun _ _ _ hc⟩

theorem evolving_alloc {size : U32} : Evolving (alloc size) := by
  refine evolving_call (fun h => h.alloc size) id (fun vm => ?_) (fun h L R => ?_) fun h a h' hc => .alloc .init trivial hc
  · change (Prog.bind (ofOption Stop.heap (vm.heap.alloc size)) _ vm).2 = _
    cases vm.heap.alloc size <;> rfl
  · obtain ⟨h', hc, -⟩ := R.alloc size
    exact ⟨_, h', hc⟩

theorem evolving_dealloc {a : U32} : Evolving (dealloc a) := by
  refine evolving_call (fun h => h.dealloc a) (fun _ => ()) (fun vm => ?_) (fun h L R => ?_) fun h r h' hc => .free .init hc
  · change (Prog.bind (ofOption Stop.heap (vm.heap.dealloc a)) _ vm).2 = _
    cases vm.heap.dealloc a <;> rfl
  · obtain ⟨h', hc, -⟩ := R.dealloc a
    exact ⟨_, h', hc⟩

/-! ### Instructions -/

theorem evolving_nextByte : Evolving nextByte :=
  evolving_bind evolving_get fun _ => evolving_bind (evolving_ofOption nofun) fun _ => evolving_bind evolving_setReg fun _ =>
    evolving_pure

theorem evolving_checkCode {n : U64} : Evolving (checkCode n) := evolving_bind evolving_get fun _ => evolving_stopIf nofun

theorem evolving_fetchB3 : Evolving (fetchB3 ins) :=
  relates_ite (evolving_bind evolving_nextByte fun _ => evolving_pure) evolving_pure

theorem evolving_fetchImm : Evolving (fetchImm ins) :=
  relates_ite (evolving_bind evolving_get fun _ => evolving_bind (evolving_ofOption nofun) fun _ =>
    evolving_bind evolving_setReg fun _ => evolving_pure) evolving_pure

theorem evolving_fetch : Evolving (fetch ins) :=
  evolving_bind evolving_getReg fun _ => evolving_bind evolving_checkCode fun _ => evolving_bind evolving_nextByte fun _ =>
    relates_ite evolving_pure <| evolving_bind evolving_checkCode fun _ => evolving_bind evolving_nextByte fun _ =>
      evolving_bind evolving_fetchB3 fun _ => evolving_bind evolving_fetchImm fun _ =>
        evolving_bind evolving_checkCode fun _ => evolving_pure

theorem evolving_placeReg {n : Fin 16} {indirect : Bool} {d : U64} : Evolving (placeReg n indirect d) :=
  relates_ite (evolving_bind (evolving_bind evolving_emit fun _ => evolving_bind evolving_get fun _ => evolving_ofOption nofun)
    fun _ => evolving_bind evolving_mem fun _ => evolving_pure) evolving_pure

theorem evolving_placeImm {indirect : Bool} : Evolving (placeImm ins indirect) :=
  relates_ite (evolving_bind evolving_mem fun _ => evolving_pure) evolving_pure

theorem evolving_operands : Evolving (operands ins) := by
  unfold operands
  split
  · exact evolving_stop nofun
  · exact evolving_pure
  · exact evolving_bind (relates_ite evolving_placeReg evolving_placeImm) fun _ => evolving_pure
  · exact evolving_bind evolving_placeReg fun _ => evolving_bind (relates_ite evolving_placeReg evolving_placeImm) fun _ =>
      evolving_pure

/-! ### Operations -/

section Operations
variable {iip : U64} {host : Host}

theorem evolving_binary {f : U64 → U64 → Except Stop U64} (h : ∀ a b e, f a b = .error e → e ≠ .heap) :
    Evolving (binary ins rA rB ta tb f) := by
  refine evolving_bind evolving_read fun a => evolving_bind evolving_read fun b => ?_
  rcases hf : f a b with e | v
  · exact evolving_stop (h a b e hf)
  · exact evolving_write

theorem evolving_total {f : U64 → U64 → U64} : Evolving (binary ins rA rB ta tb fun a b => .ok (f a b)) :=
  evolving_binary nofun

theorem evolving_shift {f : U64 → Nat → U64} : Evolving (binary ins rA rB ta tb (shift f)) := by
  refine evolving_binary fun a b e h => ?_
  unfold shift at h
  split at h <;> cases h
  nofun

theorem evolving_divide : Evolving (binary ins rA rB ta tb divide) := by
  refine evolving_binary fun a b e h => ?_
  unfold divide at h
  split at h <;> cases h
  nofun

theorem evolving_shortCircuit {short : Bool} : Evolving (shortCircuit ins rA rB ta tb short) :=
  evolving_bind evolving_read fun _ => relates_ite evolving_write (evolving_bind evolving_read fun _ => evolving_write)

theorem evolving_unary {f : U64 → U64} : Evolving (unary ins rA ta tb f) := evolving_bind evolving_read fun _ => evolving_write

theorem evolving_rmem : Evolving (rmem ins rA rB ta tb) :=
  evolving_bind evolving_read fun _ => evolving_bind evolving_mem fun _ => evolving_bind evolving_get fun _ => evolving_write

theorem evolving_alloca : Evolving (alloca ins rA rB ta tb) :=
  evolving_bind evolving_read fun _ => evolving_bind evolving_print fun _ => evolving_bind evolving_getReg fun _ =>
    evolving_bind evolving_write fun _ => evolving_bind evolving_pushn fun _ => evolving_pure

theorem evolving_jump : Evolving (jump ins rA tb iip) := evolving_bind evolving_read fun _ => evolving_setReg

theorem evolving_jumpIf {flag : U64} {set : Bool} : Evolving (jumpIf ins rA tb iip flag set) :=
  evolving_bind evolving_getReg fun _ => relates_ite evolving_jump evolving_pure

theorem evolving_cmp : Evolving (cmp ins rA rB ta tb) :=
  evolving_bind evolving_read fun _ => evolving_bind evolving_read fun _ => evolving_setReg

/-- The frame of a call is made. -/
theorem evolving_enter (h : Evolving m) :
    Evolving (do push (getReg .ip); push (getReg .bp); setReg .bp (← getReg .sp); m : VmM α) :=
  evolving_bind (evolving_push evolving_getReg) fun _ => evolving_bind (evolving_push evolving_getReg) fun _ =>
    evolving_bind evolving_getReg fun _ => evolving_bind evolving_setReg fun _ => h

theorem evolving_callOp : Evolving (call ins rA tb iip) := evolving_enter evolving_jump

theorem evolving_leave {data : Option Data} {count : U32} : Evolving (leave data count) :=
  evolving_bind evolving_getReg fun _ => evolving_bind evolving_setReg fun _ => evolving_bind evolving_pop fun _ =>
    evolving_bind evolving_setReg fun _ => evolving_bind evolving_pop fun _ => evolving_bind evolving_setReg fun _ =>
      evolving_bind evolving_pop fun _ =>
        evolving_bind (relates_ite (evolving_bind evolving_popn fun _ => evolving_pure) evolving_pure) fun _ =>
          evolving_bind (relates_ite (evolving_bind evolving_pushn fun _ => evolving_pure) evolving_pure) fun _ =>
            evolving_push evolving_pure

theorem evolving_ret : Evolving (ret ins rA tb) :=
  evolving_bind evolving_read fun _ =>
    evolving_bind (relates_ite (evolving_bind evolving_popn fun _ => evolving_pure) evolving_pure) fun _ => evolving_leave

theorem evolving_ncall (hhost : host.Keeps) : Evolving (ncall ins rA tb host) :=
  evolving_bind evolving_read fun _ => evolving_bind evolving_getReg fun _ => evolving_bind evolving_mem fun _ =>
    evolving_bind evolving_loadWord fun _ =>
      evolving_bind (relates_ite evolving_pure (evolving_bind evolving_getReg fun _ => evolving_bind evolving_mem fun _ =>
        evolving_pure)) fun _ => evolving_enter (evolving_bind evolving_loadWord fun _ => hhost _ _ _)

theorem evolving_putUtf8Chr {chr : U32} : Evolving (putUtf8Chr chr) :=
  relates_ite evolving_print <| relates_ite evolving_print <| relates_ite evolving_print <| relates_ite evolving_print <|
    evolving_stop nofun

theorem evolving_putString : Evolving (putString rA) := by
  unfold putString
  split
  · exact evolving_bind evolving_get fun _ => evolving_bind evolving_emit fun _ =>
      evolving_bind (evolving_stopIf (by decide)) fun _ => evolving_print
  · exact evolving_bind evolving_emit fun _ => evolving_stop (by decide)

theorem evolving_apply (hhost : host.Keeps) : Evolving (apply host ins iip rA rB) := by
  unfold apply
  rcases ins.op with _ | opc
  · exact evolving_stop nofun
  · cases opc with
    | halt => exact evolving_modify (fun _ => rfl) (fun _ => rfl) (fun _ => rfl) fun _ => rfl
    | dbg => exact evolving_pure
    | ret => exact evolving_ret
    | call => exact evolving_callOp
    | ncall => exact evolving_ncall hhost
    | jmp => exact evolving_jump
    | jmpz | jmpnz | jmpg | jmps => exact evolving_jumpIf
    | not | bnot | inc | dec => exact evolving_unary
    | push => exact evolving_push evolving_read
    | pop => exact evolving_bind evolving_pop fun _ => evolving_write
    | popn => exact evolving_bind evolving_read fun _ => evolving_bind evolving_popn fun _ => evolving_pure
    | puti => exact evolving_bind evolving_read fun _ => evolving_print
    | puts => exact relates_ite evolving_putString (evolving_bind evolving_read fun _ => evolving_print)
    | putc => exact evolving_bind evolving_read fun _ => evolving_putUtf8Chr
    | dlloc => exact evolving_bind evolving_read fun _ => evolving_dealloc
    | alloca => exact evolving_alloca
    | rmem => exact evolving_rmem
    | mov => exact evolving_bind evolving_read fun _ => evolving_write
    | and | or => exact evolving_shortCircuit
    | add | sub | xor | bor | band | mul => exact evolving_total
    | sar | sal => exact evolving_shift
    | div => exact evolving_divide
    | cmp => exact evolving_cmp
    | alloc => exact evolving_bind evolving_read fun _ => evolving_bind evolving_alloc fun _ => evolving_write
    | mcpy | mod => exact evolving_stop nofun

end Operations

/-! ### Runs -/

section Runs
variable {host : Host}

/-- One round of the loop. -/
theorem evolving_step (hhost : host.Keeps) : Evolving (step host) :=
  evolving_bind evolving_fetch fun _ => evolving_bind evolving_operands fun _ => evolving_apply hhost

theorem evolving_loop (hhost : host.Keeps) (fuel : Nat) : Evolving (loop host fuel) := by
  induction fuel with
  | zero => exact evolving_pure
  | succ fuel ih =>
    exact evolving_bind evolving_get fun _ => relates_ite (evolving_bind (evolving_step hhost) fun _ =>
      evolving_bind evolving_get fun _ => relates_ite evolving_pure ih) evolving_pure

theorem evolving_forM {f : β → VmM Unit} (hf : ∀ b, Evolving (f b)) (l : List β) : Evolving (l.forM f) := by
  induction l with
  | nil => exact evolving_pure
  | cons b l ih => exact evolving_bind (hf b) fun _ => ih

theorem evolving_cstringDup {s : List U8} : Evolving (cstringDup s) :=
  evolving_bind evolving_alloc fun _ => evolving_bind (evolving_stopIf nofun) fun _ => evolving_bind evolving_mem fun _ =>
    evolving_bind evolving_store fun _ => evolving_pure

theorem evolving_run (hhost : host.Keeps) (argv : List (List U8)) (fuel : Nat) : Evolving (run host argv fuel) := by
  refine evolving_bind evolving_get fun _ => evolving_bind (evolving_ofOption nofun) fun _ =>
    evolving_bind (evolving_modify (fun _ => rfl) (fun _ => rfl) (fun _ => rfl) fun _ => rfl) fun _ => ?_
  refine evolving_bind evolving_setReg fun _ => evolving_bind evolving_setReg fun _ => evolving_bind evolving_setReg fun _ =>
    evolving_bind evolving_setReg fun _ => ?_
  refine evolving_bind (evolving_forM (fun _ => evolving_push (evolving_bind evolving_cstringDup fun _ => evolving_pure)) argv)
    fun _ => ?_
  exact evolving_bind (evolving_push evolving_pure) fun _ => evolving_bind (evolving_push evolving_pure) fun _ =>
    evolving_bind (evolving_push evolving_getReg) fun _ => evolving_bind evolving_getReg fun _ =>
      evolving_bind evolving_setReg fun _ => evolving_loop hhost fuel

end Runs

/-! ### Builtins -/

section Builtins
variable {os : Os} {argv : Option U64} {nargs : U32} {id : BuiltinNativeCall}

theorem evolving_arg {i : Nat} : Evolving (arg argv i) := by
  cases argv with
  | none => exact evolving_stop nofun
  | some p => exact evolving_loadWord

theorem evolving_readArgs {i : Nat} {params : List ArgType} : Evolving (readArgs argv i params) := by
  induction params generalizing i with
  | nil => exact evolving_pure
  | cons t params ih => exact evolving_bind evolving_arg fun _ => evolving_bind ih fun _ => evolving_pure

theorem evolving_callOs {result : ArgType} {vals : List U64} : Evolving (callOs os id result vals) :=
  evolving_bind evolving_get fun _ =>
    evolving_bind (evolving_modify (fun _ => rfl) (fun _ => rfl) (fun _ => rfl) fun _ => rfl) fun _ => evolving_leave

theorem evolving_native {n : Nat} {params : List ArgType} {result : ArgType} {text : String} :
    Evolving (native os id n params result text argv nargs) :=
  evolving_bind (evolving_stopIf nofun) fun _ => evolving_bind evolving_readArgs fun _ => evolving_callOs

theorem evolving_table : Evolving (vmNativeBuiltinCallTbl os id argv nargs) := by
  cases id with
  | bncOpen =>
    exact evolving_bind (evolving_stopIf nofun) fun _ => evolving_bind evolving_readArgs fun _ =>
      evolving_bind (relates_ite (evolving_bind evolving_arg fun _ => evolving_pure) evolving_pure) fun _ => evolving_callOs
  | bncFcntl =>
    exact evolving_bind (evolving_stopIf nofun) fun _ => evolving_bind evolving_readArgs fun _ =>
      relates_ite (evolving_bind evolving_arg fun _ => evolving_callOs) evolving_callOs
  | bncFlock | bncFsync | bncFetcwd | bncChdir | bncRename | bncMkdir | bncRmdir | bncCreat | bncLink | bncUnlink | bncSymlink =>
    exact evolving_stop nofun
  | _ => exact evolving_native

end Builtins

end VmM

/-- The builtins keep to the machine, whatever the operating system writes to its memory. -/
theorem Host.Keeps.builtins {others : Host} (h : others.Keeps) (os : Os) : (Host.builtins os others).Keeps := by
  intro id argv n
  rcases hid : BuiltinNativeCall.all[id.toNat]? with _ | bnc
  · have hnative : (Host.builtins os others).native id argv n = others.native id argv n := by
      funext vm
      simp only [Host.builtins, hid]
    rw [hnative]
    exact h id argv n
  · have hnative : (Host.builtins os others).native id argv n = fun vm => (VmM.vmNativeBuiltinCallTbl os bnc argv n vm).2 := by
      funext vm
      simp only [Host.builtins, hid]
    rw [hnative]
    exact VmM.evolving_table

/-! ### The machine after any run -/

/-- The three lists share out the descriptors, after every call. -/
theorem Heap.Run.shares {ok : Heap → U32 → Prop} {h₀ h : Heap} {L₀ : HeapLists} (hr : Run ok h₀ h) (R₀ : Rep h₀ L₀ []) :
    ∃ free used fresh, h.Lists free used fresh ∧ (free ++ used ++ fresh).Perm (List.range h₀.count) := by
  obtain ⟨L, R, hcount⟩ := hr.lists_of (P := fun L => L.count = L₀.count) R₀ rfl
    (fun h L n _ hc _ => by
      rw [L.alloc_snd]
      exact (L.allocBlock_step _).count.trans hc)
    fun L mem hc => (L.count_dealloc mem).trans hc
  refine ⟨_, _, _, R.lists, ?_⟩
  have hids := R.ids
  have hlen := R.length_eq
  have hlen₀ := R₀.length_eq
  rw [List.length_nil, Nat.add_zero] at hlen hlen₀
  rw [List.map_nil, List.append_nil, hlen.symm.trans (hcount.trans hlen₀)] at hids
  exact hids

theorem VmM.init_rep {code : Code} {ptr mem : U64} {nhbs ss : U32} {vm vm' : Vm} {u : Unit}
    (h : (init code ptr mem nhbs ss).Returns vm u vm') : ∃ L, Heap.Rep vm'.heap L [] := by
  simp only [init, memoryInit, heapInit, Prog.returns_bind, Prog.returns_ofOption, Prog.returns_modify, Prog.returns_get] at h
  obtain ⟨db, _, ⟨hdb, rfl⟩, _, _, rfl, _, _, rfl, _, _, ⟨_, _, ⟨rfl, rfl⟩, heap, _, ⟨hheap, rfl⟩, rfl⟩, header, _, ⟨-, rfl⟩, _, mid,
    hstore, hloop⟩ := h
  have hlast := (evolving_forM (fun i => evolving_bind evolving_mem fun _ => evolving_store) _).of_returns hloop
  exact hlast.heap.rep ((evolving_store.of_returns hstore).heap.rep ⟨_, Heap.Rep.init hheap⟩)

end Cyntatic
