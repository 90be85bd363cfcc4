import Cyntatic.Theorems.Labels
import Cyntatic.Vm.Run

/-! # Boundaries of instructions

A program whose jumps go to labels stays on the instructions that the assembler placed. -/

namespace Cyntatic
open Library

/-! ### Programs -/

namespace OpCode

/-- The jumps. -/
def isJump : OpCode → Bool
  | jmp | jmpz | jmpnz | jmpg | jmps => true
  | _ => false

/-- The operations that set `ip` from the stack, or call. -/
def isCall : OpCode → Bool
  | call | ret | ncall => true
  | _ => false

/-- The operations that write their first operand. -/
def writes : OpCode → Bool
  | not | bnot | inc | dec | pop | alloca | rmem | mov | add | sub | and | or | sar | sal | xor | bor | band | mul
  | div | alloc => true
  | _ => false

end OpCode

/-- The destination of an instruction is the register `ip`. -/
def SourceInstr.WritesIp (src : SourceInstr) : Prop :=
  src.opc.writes ∧ ∃ arg ∈ src.args.head?, arg.isMem = false ∧ arg.head = .reg .ip

/-- Jumps go to labels before some instruction, there are no calls, and no instruction has `ip` as its
    destination. -/
structure Structured (prog : List Stmt) : Prop where
  jumps : ∀ src ∈ instrsOf prog, src.opc.isJump → ∃ range k, src.args = [⟨false, .symbol false range none, none⟩] ∧
    labelIndex prog range.view = some k ∧ k < (instrsOf prog).length
  calls : ∀ src ∈ instrsOf prog, src.opc.isCall = false
  writes : ∀ src ∈ instrsOf prog, ¬src.WritesIp

/-! ### What leaves `ip` as it is -/

/-- `ip` and the code are the same. -/
structure KeepsIp (a b : Vm) : Prop where
  ip : b.reg .ip = a.reg .ip
  code : b.code = a.code

theorem composes_keepsIp : Prog.Composes KeepsIp fun (_ : Stop) _ _ => True where
  refl _ := ⟨rfl, rfl⟩
  trans h h' := ⟨h'.ip.trans h.ip, h'.code.trans h.code⟩
  stop _ _ := trivial

theorem keepsIp_setReg {vm : Vm} {r : Register} {v : U64} (h : r ≠ .ip) : KeepsIp vm (vm.setReg r v) :=
  ⟨vm.reg_setReg_of_ne v h.symm, rfl⟩

namespace VmM
open Prog

variable {α β : Type} {m : VmM α} {f : α → VmM β} {ins : Instruction} {p rA rB : Place} {ta tb : Mode}

/-- A part of an operation that leaves `ip` as it is. -/
abbrev Stays (m : VmM α) : Prop := Relates KeepsIp (fun _ _ _ => True) m

theorem stays_bind (hm : Stays m) (hf : ∀ a, Stays (f a)) : Stays (m >>= f) := relates_bind composes_keepsIp hm hf

theorem stays_pure {a : α} : Stays (pure a) := relates_pure composes_keepsIp

theorem stays_get : Stays get := relates_get composes_keepsIp

theorem stays_stop {e : Stop} : Stays (stop e : VmM α) := relates_stop fun _ => trivial

theorem stays_same (h : ∀ a x b, m.Returns a x b → b = a) : Stays m := by
  refine relates_of_returns fun a x b hr => ?_
  rw [h a x b hr]
  exact ⟨rfl, rfl⟩

theorem stays_setReg {r : Register} {v : U64} (h : r ≠ .ip) : Stays (setReg r v) :=
  relates_modify fun _ => keepsIp_setReg h

theorem stays_modify {g : Vm → Vm} (hr : ∀ vm, (g vm).regs = vm.regs) (hc : ∀ vm, (g vm).code = vm.code) :
    Stays (modify g) :=
  relates_modify fun vm => ⟨congrFun (hr vm) _, hc vm⟩

theorem stays_getReg {r : Register} : Stays (getReg r) := stays_same fun _ _ _ h => (getReg_returns.mp h).2

theorem stays_mem {addr : U32} : Stays (mem addr) := stays_same fun _ _ _ h => (mem_returns.mp h).2.2

theorem stays_print {o : Output} : Stays (print o) := stays_modify (fun _ => rfl) fun _ => rfl

theorem stays_read {mode : Mode} : Stays (read ins p mode) := stays_same fun _ _ _ h => (read_returns.mp h).2.2

theorem stays_write {v : U64} {mode : Mode} (h : p ≠ .reg 7) : Stays (write p v mode) := by
  refine relates_of_returns fun a _ b hr => ?_
  obtain ⟨-, rfl⟩ := write_returns.mp hr
  rcases p with _ | n | _ | ⟨off, addr⟩
  · exact ⟨rfl, rfl⟩
  · simp only [Vm.writeAt]
    rcases hn : Register.ofNat? n with _ | r
    · exact ⟨rfl, rfl⟩
    · refine keepsIp_setReg fun hip => h ?_
      have hall : ∀ n : Fin 16, Register.ofNat? n = some .ip → n = 7 := by decide
      rw [hall n (hip ▸ hn)]
  · exact ⟨rfl, rfl⟩
  · exact ⟨rfl, rfl⟩

theorem stays_storeWord {off v : U64} : Stays (storeWord off v) := by
  refine relates_of_returns fun a _ b hr => ?_
  obtain ⟨-, rfl⟩ := storeWord_returns.mp hr
  exact ⟨rfl, rfl⟩

theorem stays_pushn {count : U8} : Stays (pushn none count) := by
  refine relates_of_returns fun a _ b hr => ?_
  obtain ⟨-, -, -, rfl⟩ := pushn_none_returns.mp hr
  exact keepsIp_setReg (by decide)

theorem stays_popn {count : U8} : Stays (popn count) := by
  refine relates_of_returns fun a _ b hr => ?_
  obtain ⟨-, -, -, rfl⟩ := popn_returns.mp hr
  exact keepsIp_setReg (by decide)

theorem stays_pop : Stays pop := by
  refine relates_of_returns fun a _ b hr => ?_
  obtain ⟨-, -, rfl⟩ := pop_returns.mp hr
  exact keepsIp_setReg (by decide)

theorem stays_push {m : VmM U64} (h : Stays m) : Stays (push m) :=
  stays_bind stays_pushn fun _ => stays_bind h fun _ => stays_storeWord

section Operations

theorem stays_binary {f : U64 → U64 → Except Stop U64} (h : rA ≠ .reg 7) : Stays (binary ins rA rB ta tb f) := by
  refine stays_bind stays_read fun a => stays_bind stays_read fun b => ?_
  cases f a b with
  | ok v => exact stays_write h
  | error e => exact stays_stop

theorem stays_shortCircuit {short : Bool} (h : rA ≠ .reg 7) : Stays (shortCircuit ins rA rB ta tb short) :=
  stays_bind stays_read fun _ => relates_ite (stays_write h) (stays_bind stays_read fun _ => stays_write h)

theorem stays_unary {f : U64 → U64} (h : rA ≠ .reg 7) : Stays (unary ins rA ta tb f) :=
  stays_bind stays_read fun _ => stays_write h

theorem stays_cmp : Stays (cmp ins rA rB ta tb) :=
  stays_bind stays_read fun _ => stays_bind stays_read fun _ => stays_setReg (by decide)

theorem stays_rmem (h : rA ≠ .reg 7) : Stays (rmem ins rA rB ta tb) :=
  stays_bind stays_read fun _ => stays_bind stays_mem fun _ => stays_bind stays_get fun _ => stays_write h

theorem stays_alloca (h : rA ≠ .reg 7) : Stays (alloca ins rA rB ta tb) :=
  stays_bind stays_read fun _ => stays_bind stays_print fun _ => stays_bind stays_getReg fun _ =>
    stays_bind (stays_write h) fun _ => stays_bind stays_pushn fun _ => stays_pure

theorem stays_alloc {n : U32} : Stays (alloc n) := by
  refine relates_of_returns fun a _ b hr => ?_
  obtain ⟨_, -, rfl⟩ := alloc_returns.mp hr
  exact ⟨rfl, rfl⟩

theorem stays_dealloc {n : U32} : Stays (dealloc n) := by
  refine relates_of_returns fun a _ b hr => ?_
  obtain ⟨_, _, -, rfl⟩ := dealloc_returns.mp hr
  exact ⟨rfl, rfl⟩

theorem stays_applyAlloc (h : rA ≠ .reg 7) : Stays (applyAlloc ins rA rB ta tb) :=
  stays_bind stays_read fun _ => stays_bind stays_alloc fun _ => stays_write h

theorem stays_putUtf8Chr {chr : U32} : Stays (putUtf8Chr chr) := by
  unfold putUtf8Chr
  exact relates_ite stays_print (relates_ite stays_print (relates_ite stays_print (relates_ite stays_print stays_stop)))

theorem stays_putString : Stays (putString rA) := by
  unfold putString
  have hemit {x : Access} : Stays (emit x) := stays_same fun _ _ _ h => returns_emit.mp h
  split
  · refine stays_bind stays_get fun _ => stays_bind hemit fun _ => stays_bind ?_ fun _ => stays_print
    exact stays_same fun _ _ _ h => (returns_stopIf.mp h).2
  · exact stays_bind hemit fun _ => stays_stop

theorem stays_puts : Stays (puts ins rA tb) :=
  relates_ite stays_putString (stays_bind stays_read fun _ => stays_print)

/-- An operation that neither jumps nor calls, and whose destination is not `ip`. -/
theorem stays_apply {host : Host} {iip : U64} (h : ∀ opc, ins.op = some opc →
    opc.isJump = false ∧ opc.isCall = false ∧ (opc.writes → rA ≠ .reg 7)) : Stays (apply host ins iip rA rB) := by
  unfold apply
  rcases hop : ins.op with _ | opc
  · exact stays_stop
  · obtain ⟨hjump, hcall, hw⟩ := h opc hop
    cases opc with
    | halt => exact stays_modify (fun _ => rfl) fun _ => rfl
    | dbg => exact stays_pure
    | ret | call | ncall => cases hcall
    | jmp | jmpz | jmpnz | jmpg | jmps => cases hjump
    | not | bnot | inc | dec => exact stays_unary (hw rfl)
    | push => exact stays_push stays_read
    | pop => exact stays_bind stays_pop fun _ => stays_write (hw rfl)
    | popn => exact stays_bind stays_read fun _ => stays_bind stays_popn fun _ => stays_pure
    | puti => exact stays_bind stays_read fun _ => stays_print
    | puts => exact stays_puts
    | putc => exact stays_bind stays_read fun _ => stays_putUtf8Chr
    | dlloc => exact stays_bind stays_read fun _ => stays_dealloc
    | alloca => exact stays_alloca (hw rfl)
    | rmem => exact stays_rmem (hw rfl)
    | mov => exact stays_bind stays_read fun _ => stays_write (hw rfl)
    | and | or => exact stays_shortCircuit (hw rfl)
    | add | sub | sar | sal | xor | bor | band | mul | div => exact stays_binary (hw rfl)
    | cmp => exact stays_cmp
    | alloc => exact stays_applyAlloc (hw rfl)
    | mcpy | mod => exact stays_stop

theorem jump_returns {iip : U64} {a b : Vm} {u : Unit} (h : (jump ins .imm .word iip).Returns a u b) :
    b.code = a.code ∧ b.reg .ip = iip + signTrunc 4 ins.ii := by
  obtain ⟨-, rfl⟩ := jump_imm.unique h
  exact ⟨rfl, Vm.reg_setReg ..⟩

theorem jumpIf_returns {iip flag : U64} {set : Bool} {a b : Vm} {u : Unit}
    (h : (jumpIf ins .imm .word iip flag set).Returns a u b) :
    b.code = a.code ∧ (b.reg .ip = a.reg .ip ∨ b.reg .ip = iip + signTrunc 4 ins.ii) := by
  obtain ⟨_, _, hflg, hbody⟩ := returns_bind.mp h
  obtain ⟨rfl, rfl⟩ := getReg_returns.mp hflg
  split at hbody
  · obtain ⟨hcode, hip⟩ := jump_returns hbody
    exact ⟨hcode, .inr hip⟩
  · obtain ⟨-, rfl⟩ := returns_pure.mp hbody
    exact ⟨rfl, .inl rfl⟩

/-- A jump goes on, or to where its immediate says. -/
theorem execute_jump {host : Host} {iip : U64} {a b : Vm} {u : Unit} {opc : OpCode} (hosz : ins.osz = 2)
    (hiam : ins.iam = false) (hrmd : ins.rmd = .imm) (hims : ins.ims = .word) (hop : ins.op = some opc)
    (hjump : opc.isJump) (h : (execute host ins iip).Returns a u b) :
    b.code = a.code ∧ (b.reg .ip = a.reg .ip ∨ b.reg .ip = iip + signTrunc 4 ins.ii) := by
  obtain ⟨rA, rB, hoperands, happly⟩ := execute_returns.mp h
  have hplaces : rA = .imm := by
    rw [operands, hosz] at hoperands
    simp only [placeOnly, hrmd, placeImm, hiam, returns_bind, returns_pure] at hoperands
    obtain ⟨p, _, hp, he, -⟩ := hoperands
    simp only [reduceCtorEq, if_false, Bool.false_eq_true, returns_pure] at hp
    rw [hp.1] at he
    exact (Prod.mk.inj he).1
  have hmode : ins.modeB = .word := by simp [Instruction.modeB, hrmd, hims]
  rw [apply, hop, hmode, hplaces] at happly
  cases opc with
  | jmp =>
    obtain ⟨hcode, hip⟩ := jump_returns happly
    exact ⟨hcode, .inr hip⟩
  | jmpz | jmpnz | jmpg | jmps => exact jumpIf_returns happly
  | _ => cases hjump

end Operations

theorem placeReg_reg {n k : Fin 16} {indirect : Bool} {d : U64} {a b : Vm} (h : (placeReg n indirect d).Returns a (.reg k) b) :
    indirect = false ∧ n = k := by
  unfold placeReg at h
  split at h
  · simp only [returns_bind, returns_pure, reduceCtorEq, false_and, and_false, exists_false] at h
  · rename_i hi
    exact ⟨by simpa using hi, (Place.reg.inj (returns_pure.mp h).1).symm⟩

theorem placeImm_reg {k : Fin 16} {indirect : Bool} {a b : Vm} : ¬(placeImm ins indirect).Returns a (.reg k) b := by
  unfold placeImm
  split <;> simp

/-- The first operand is a register that the record names. -/
theorem operands_reg {k : Fin 16} {a b : Vm} (h : (operands ins).Returns a (.reg k, rB) b) :
    ins.iam = false ∧ ins.ra = k ∧ (ins.osz = 2 ∧ ins.rmd = .reg ∨ ins.osz = 3) := by
  unfold operands at h
  split at h
  · exact absurd h returns_stop
  · simp at h
  · rename_i hosz
    simp only [returns_bind, returns_pure, Prod.mk.injEq, placeOnly] at h
    obtain ⟨_, _, hp, ⟨rfl, -⟩, -⟩ := h
    split at hp
    · rename_i hrmd
      obtain ⟨hi, hk⟩ := placeReg_reg hp
      exact ⟨hi, hk, .inl ⟨hosz, hrmd⟩⟩
    · exact absurd hp placeImm_reg
  · rename_i hosz
    simp only [returns_bind, returns_pure, Prod.mk.injEq] at h
    obtain ⟨_, _, hp, _, _, -, ⟨rfl, -⟩, -⟩ := h
    obtain ⟨hi, hk⟩ := placeReg_reg hp
    exact ⟨hi, hk, .inr hosz⟩

end VmM

/-- A register that an instruction is decoded to have as its first operand is the one in the source. -/
theorem SourceInstr.first_ip {src : SourceInstr} {as : AssemblerCtx} (hne : src.args ≠ []) (hiam : (src.record as).iam = false)
    (hra : (src.record as).ra = 7) : ∃ arg ∈ src.args.head?, arg.isMem = false ∧ arg.head = .reg .ip := by
  rcases hargs : src.args with _ | ⟨arg, rest⟩
  · exact absurd hargs hne
  · obtain ⟨h1, h2⟩ := record_first as hargs
    refine ⟨arg, rfl, h1.symm.trans hiam, ?_⟩
    rw [h2, AsmM.Instruction.argRa] at hra
    split at hra
    · -- The mode of an immediate is below 4.
      have hlt := (arg.record as src.base).ims.toNat_lt
      have hval := congrArg Fin.val hra
      exact absurd hval (Nat.ne_of_lt (Nat.lt_trans hlt (by decide)))
    · have hval : arg.head.register.toNat = 7 := congrArg Fin.val hra
      cases hhead : arg.head with
      | reg r =>
        rw [hhead] at hval
        have hall : ∀ r : Register, r.toNat = 7 → r = .ip := by intro r; cases r <;> decide
        rw [hall r hval]
      | symbol | char | int =>
        rw [hhead] at hval
        cases hval

/-- The first operand of a decoded instruction is `ip` only where that is written. -/
theorem VmM.operands_ne_ip {src : SourceInstr} {as : AssemblerCtx} {d : U64} {rA rB : Place} {a b : Vm}
    (hlink : (src.record as).Linkable) (hw : ¬src.WritesIp) (hwrites : src.opc.writes)
    (h : (operands ((src.record as).plus d).stored).Returns a (rA, rB) b) : rA ≠ .reg 7 := by
  rintro rfl
  obtain ⟨hiam, hra, hosz⟩ := operands_reg h
  have hframe := (src.record_frame as).1
  have hbase : src.args = [] → (src.record as).osz = 1 := fun hnil => by rw [hframe, SourceInstr.base, hnil]; rfl
  refine hw ⟨hwrites, ?_⟩
  rcases (hlink.plus d).osz_cases with h1 | h2 | h3
  · rw [Instruction.stored_one h1] at hosz
    change (src.record as).osz = 1 at h1
    simp [Instruction.plus, h1] at hosz
  · have h2' : (src.record as).osz = 2 := h2
    have hne : src.args ≠ [] := fun hnil => by
      have h1 := hbase hnil
      rw [h2'] at h1
      cases h1
    rw [Instruction.stored_two h2] at hiam hra hosz
    split at hra
    · cases hra
    · rename_i hrmd
      rw [if_neg hrmd] at hiam
      exact SourceInstr.first_ip hne hiam hra
  · have h3' : (src.record as).osz = 3 := h3
    have hne : src.args ≠ [] := fun hnil => by
      have h1 := hbase hnil
      rw [h3'] at h1
      cases h1
    rw [Instruction.stored_three h3] at hiam hra
    exact SourceInstr.first_ip hne hiam hra

/-! ### Runs -/

/-- The machine is before an instruction of the image, or at the end of the code. -/
def Vm.AtBoundary (code : Code) (db : Nat) (instrs : List Instruction) (vm : Vm) : Prop :=
  vm.code = code ∧ ∃ i ≤ instrs.length, vm.reg .ip = BitVec.ofNat 64 (emitOffset db instrs i)

namespace Assembled
variable {prog : List Stmt} {lines : List Line} {as : AssemblerCtx} {db : Nat} {code : Code} {instrs : List Instruction}
  {host : Host} {vm vm' : Vm} {u : Unit}

/-- One round of the loop goes to the next instruction, or to the one after a label. -/
theorem step_boundary (h : Assembled prog lines as db code instrs) (hs : Structured prog) {i : Nat} {ins : Instruction}
    (hi : instrs[i]? = some ins) (hcode : vm.code = code) (hip : vm.reg .ip = BitVec.ofNat 64 (emitOffset db instrs i))
    (hstep : (VmM.step host).Returns vm u vm') : vm'.AtBoundary code db instrs := by
  have hlt := (List.getElem?_eq_some_iff.mp hi).1
  obtain ⟨src, hsrc⟩ : ∃ src, (instrsOf prog)[i]? = some src :=
    ⟨_, List.getElem?_eq_getElem (h.length_instrs ▸ hlt)⟩
  have hmem := List.mem_of_getElem? hsrc
  obtain ⟨r, mid, hfetch, hexec⟩ := Prog.returns_bind.mp hstep
  subst hcode
  by_cases hjump : src.opc.isJump = true
  · obtain ⟨range, k, hargs, hk, hklt⟩ := hs.jumps src hmem hjump
    have hr : src.RefersTo range := ⟨by rw [hargs]; rfl, by rw [hargs]; exact nofun⟩
    obtain ⟨n, dec, hd, hnext, hosz, hop, hiam, hrmd, hims, hii⟩ := h.decodes_label hsrc hr hk hklt
    have hone : src.args.length = 1 := by rw [hargs]; rfl
    have hfetch' := VmM.fetch_of_decodes hd
    rw [Vm.goto_eq hip] at hfetch'
    obtain ⟨rfl, rfl⟩ := hfetch'.unique hfetch
    rw [hone] at hosz
    obtain ⟨hcode, hip' | hip'⟩ := VmM.execute_jump hosz (hiam hone) hrmd hims hop hjump hexec
    · exact ⟨hcode, i + 1, hlt, by rw [hip', Vm.reg_goto, hnext]⟩
    · refine ⟨hcode, k, by rw [h.length_instrs]; exact hklt.le, ?_⟩
      have htrunc := signTrunc_sub (h.emitOffset_lt k) (h.emitOffset_lt i)
      have hsub : BitVec.ofNat 64 (emitOffset db instrs k) - BitVec.ofNat 64 (emitOffset db instrs i) = dec.ii := by
        rw [hii, ← offset_add_displacement (emitOffset db instrs i) (emitOffset db instrs k), add_sub_cancel_left]
      rw [hsub, ← hii] at htrunc
      rw [hip', htrunc, hii, offset_add_displacement]
  · obtain ⟨line, hline, -, rfl, hins⟩ := h.exists_line hsrc
    obtain rfl := Option.some.inj (hins.symm.trans hi)
    obtain ⟨n, hd, hnext⟩ := h.image.decodes hi
    have hfetch' := VmM.fetch_of_decodes hd
    rw [Vm.goto_eq hip] at hfetch'
    obtain ⟨rfl, rfl⟩ := hfetch'.unique hfetch
    obtain ⟨rA, rB, hoperands, happly⟩ := VmM.execute_returns.mp hexec
    have hlink := h.collected.linkable line hline
    have hop := line.stored_op hlink (linkSum as db (as.instructions.map Instruction.linkSize) i)
    have hkeeps : KeepsIp _ vm' := (VmM.stays_apply fun opc hopc => by
      obtain rfl := Option.some.inj (hop.symm.trans hopc)
      exact ⟨by simpa using hjump, hs.calls _ hmem, fun hw => VmM.operands_ne_ip hlink (hs.writes _ hmem) hw hoperands⟩
      ).of_returns happly
    exact ⟨hkeeps.code, i + 1, hlt, by rw [hkeeps.ip, Vm.reg_goto, hnext]⟩

theorem loop_boundary (h : Assembled prog lines as db code instrs) (hs : Structured prog) {fuel : Nat} {ended : Bool}
    (hb : vm.AtBoundary code db instrs) (hloop : (VmM.loop host fuel).Returns vm ended vm') : vm'.AtBoundary code db instrs := by
  induction fuel generalizing vm with
  | zero =>
    obtain ⟨-, rfl⟩ := Prog.returns_pure.mp hloop
    exact hb
  | succ fuel ih =>
    obtain ⟨hcode, i, hi, hip⟩ := hb
    obtain ⟨s, t, hget, hbody⟩ := Prog.returns_bind.mp hloop
    obtain ⟨hs', ht⟩ := Prog.returns_get.mp hget
    rw [hs', ht] at hbody
    split at hbody
    · rename_i hlt
      have hne : i ≠ instrs.length := by
        rintro rfl
        rw [hip, h.image.emitOffset_length, hcode] at hlt
        exact absurd hlt (BitVec.lt_irrefl _)
      obtain ⟨_, mid, hstep, hrest⟩ := Prog.returns_bind.mp hbody
      have hmid := h.step_boundary hs (List.getElem?_eq_getElem (lt_of_le_of_ne hi hne)) hcode hip hstep
      obtain ⟨s2, t2, hget2, hbody2⟩ := Prog.returns_bind.mp hrest
      obtain ⟨hs2, ht2⟩ := Prog.returns_get.mp hget2
      rw [hs2, ht2] at hbody2
      split at hbody2
      · obtain ⟨-, rfl⟩ := Prog.returns_pure.mp hbody2
        exact hmid
      · exact ih hmid hbody2
    · obtain ⟨-, rfl⟩ := Prog.returns_pure.mp hbody
      exact ⟨hcode, i, hi, hip⟩

end Assembled

/-- After any number of rounds from the start of the code, `ip` is at an instruction that the assembler placed,
    which is what is fetched there, or at the end of the code. -/
theorem AsmM.assemble_stays_on_boundaries {into code : Code} {toks : List Token} {stop : Range} {log : List Diagnostic}
    {uninit : Nat → U8} {n : Nat} {as' : AssemblerCtx}
    (h : (assemble into).Returns (AssemblerCtx.init toks stop log uninit) (n, code) as') (herr : as'.errors = 0) :
    ∃ prog toks' as db, Steps (AssemblerCtx.init toks stop log uninit) prog toks' as ∧ as.itp.eof = true ∧
      as'.instructions.length = (instrsOf prog).length ∧ Image code db as'.instructions ∧
      code.db? = some (BitVec.ofNat 32 db) ∧ (Structured prog →
        ∀ (host : Host) (vm vm' : Vm) (fuel : Nat) (ended : Bool), vm.code = code → vm.reg .ip = BitVec.ofNat 64 db →
          (VmM.loop host fuel).Returns vm ended vm' →
          vm'.reg .ip = BitVec.ofNat 64 code.len ∨ ∃ i ins, as'.instructions[i]? = some ins ∧
            vm'.reg .ip = BitVec.ofNat 64 (emitOffset db as'.instructions i) ∧
            (VmM.fetch {}).Returns vm' (BitVec.ofNat 64 (emitOffset db as'.instructions i), ins.stored)
              (vm'.setReg .ip (BitVec.ofNat 64 (emitOffset db as'.instructions (i + 1))))) := by
  obtain ⟨prog, toks', lines, as, db, hsteps, heof, ha, -⟩ := assemble_returns h herr
  refine ⟨prog, toks', as, db, hsteps, heof, ha.length_instrs, ha.image, ha.header, fun hs host vm vm' fuel ended hcode hip hloop => ?_⟩
  have hstart : vm.AtBoundary code db as'.instructions := ⟨hcode, 0, Nat.zero_le _, by rw [hip]; rfl⟩
  obtain ⟨hcode', i, hi, hip'⟩ := ha.loop_boundary hs hstart hloop
  rcases Nat.eq_or_lt_of_le hi with rfl | hlt
  · exact .inl (by rw [hip', ha.image.emitOffset_length])
  · obtain ⟨k, hd, hnext⟩ := ha.image.decodes (List.getElem?_eq_getElem hlt)
    subst hcode'
    have hfetch := VmM.fetch_of_decodes hd
    rw [Vm.goto_eq hip', ← hnext] at hfetch
    exact .inr ⟨i, _, List.getElem?_eq_getElem hlt, hip', hfetch⟩

theorem AsmM.assemble_stays_on_boundaries_selfJump :
    ∃ n code as', (assemble .empty).Returns (.init selfJump endRange [] fun _ => 0) (n, code) as' ∧
      ∃ prog toks' as db, Steps (.init selfJump endRange [] fun _ => 0) prog toks' as ∧ Image code db as'.instructions ∧
        code.db? = some (BitVec.ofNat 32 db) := by
  obtain ⟨⟨n, code⟩, as', h, herr⟩ := Prog.exists_of_passes (m := assemble .empty) (s := .init selfJump endRange [] fun _ => 0)
    (p := fun _ as' => as'.errors == 0) (by decide)
  obtain ⟨prog, toks', as, db, hsteps, -, -, himage, hheader, -⟩ := assemble_stays_on_boundaries h (beq_iff_eq.mp herr)
  exact ⟨n, code, as', h, prog, toks', as, db, hsteps, himage, hheader⟩

end Cyntatic
