import Cyntatic.Theorems.Frames
import Cyntatic.Theorems.Sandbox

/-! # Counts of words

The number of words that an instruction pushes or pops is cut to eight bits on the way to `VM_pushn` and `VM_popn`, so
that `sp` moves by what the count stands for only where that makes no difference. -/

namespace Cyntatic
open Library

namespace Vm
open VmM

/-! ### What the stack must have for an instruction to complete -/

/-- `VM_popn` finds words at `sp`. -/
def HasWords (vm : Vm) (sp : U64) (n : U8) : Prop :=
  sp + wordsSize n ≤ vm.ram.size.setWidth 64 ∧ sp.setWidth 32 ≤ vm.ram.size

/-- `VM_pushn` finds room below `sp`. -/
def HasRoomFor (vm : Vm) (sp : U64) (n : U8) : Prop :=
  vm.ram.sb.setWidth 64 < sp - wordsSize n ∧ (sp - wordsSize n).setWidth 32 ≤ vm.ram.size

/-- `VM_pushn` copies some words to `sp`. -/
def CanCopy (vm : Vm) (sp : U64) (data : Option Data) (n : U8) : Prop :=
  match data with
  | none => True
  | some (.ram src) => src.toNat + 8 * n.toNat ≤ vm.ram.size.toNat ∧
      ¬overlaps ((sp.setWidth 32).setWidth 64) src (8 * n.toNat) ∧ (sp.setWidth 32).toNat + 8 * n.toNat ≤ vm.ram.size.toNat
  | some (.host vals) => n.toNat ≤ vals.length ∧ (sp.setWidth 32).toNat + 8 * n.toNat ≤ vm.ram.size.toNat

/-- The machine after `VM_pushn` has copied some words to `sp`. -/
def copied (vm : Vm) (data : Option Data) (n : U8) : Vm :=
  match data with
  | none => vm
  | some (.ram src) => vm.setBytes ((vm.reg .sp).setWidth 32).toNat (vm.ram.slice src.toNat (8 * n.toNat))
  | some (.host vals) => vm.setBytes ((vm.reg .sp).setWidth 32).toNat (wordBytes (vals.take n.toNat))

/-- `VM_pop` finds a word at `sp`. -/
def HasWord (vm : Vm) (sp : U64) : Prop :=
  sp + 8 ≤ vm.ram.size.setWidth 64 ∧ (sp.setWidth 32).toNat + 8 ≤ vm.ram.size.toNat

/-- The number of arguments that the frame at `bp` has. -/
def storedArgs (vm : Vm) : U64 := vm.ram.word ((vm.reg .bp + 16).setWidth 32).toNat

/-- `sp` above the frame at `bp` and its arguments. -/
def spAbove (vm : Vm) : U64 := vm.reg .bp + 24 + wordsSize (vm.storedArgs.setWidth 8)

/-- The machine after the frame at `bp` and its arguments are dropped. -/
def unframed (vm : Vm) : Vm :=
  ((((vm.setReg .sp (vm.reg .bp + 8)).setReg .bp (vm.ram.word ((vm.reg .bp).setWidth 32).toNat)).setReg .sp
    (vm.reg .bp + 16)).setReg .ip (vm.ram.word ((vm.reg .bp + 8).setWidth 32).toNat)).setReg .sp vm.spAbove

/-- The frame can be left with some results. -/
def CanLeave (vm : Vm) (data : Option Data) (count : U32) : Prop :=
  vm.HasWord (vm.reg .bp) ∧ vm.HasWord (vm.reg .bp + 8) ∧ vm.HasWord (vm.reg .bp + 16) ∧
    (vm.storedArgs.setWidth 32 ≠ (0 : U32) → vm.HasWords (vm.reg .bp + 24) (vm.storedArgs.setWidth 8)) ∧
    (count ≠ 0 → vm.HasRoomFor vm.spAbove (count.setWidth 8) ∧
      vm.CanCopy (vm.spAbove - wordsSize (count.setWidth 8)) data (count.setWidth 8)) ∧
    vm.CanPush (vm.spAbove - wordsSize (count.setWidth 8))

/-! ### The counts of an instruction -/

/-- The operands are found. -/
def FindsOperands (vm : Vm) (instr : Instruction) : Prop :=
  instr.osz ≠ 0 ∧ ((vm.operandA instr).AddrFits ∧ ¬(vm.operandA instr).Aborts vm.ram.size) ∧
    ((vm.operandB instr).AddrFits ∧ ¬(vm.operandB instr).Aborts vm.ram.size)

/-- The count of `popn` and `ret`. -/
def count (vm : Vm) (instr : Instruction) : U64 := vm.readAt instr (vm.operandA instr).place instr.modeB

/-- The count of `alloca`, in words. -/
def allocaCount (vm : Vm) (instr : Instruction) : U64 :=
  (vm.readAt instr (vm.operandB instr).place instr.modeB).sshiftRight (3 - instr.imd.toNat)

/-- The results that `ret` sets aside. -/
def results (vm : Vm) (instr : Instruction) : Option Data :=
  if (vm.count instr).setWidth 32 = (0 : U32) then none else some (.ram (((vm.reg .sp).setWidth 32).setWidth 64))

/-- `popn` completes. -/
def CompletesPopn (vm : Vm) (instr : Instruction) : Prop :=
  vm.FindsOperands instr ∧ (vm.operandA instr).place.Present vm.ram.size instr.modeB.size ∧
    vm.HasWords (vm.reg .sp) ((vm.count instr).setWidth 8)

/-- The machine when `alloca` has written where the room begins. -/
def roomWritten (vm : Vm) (instr : Instruction) : Vm :=
  Vm.writeAt { vm with stdout := vm.stdout ++ [.count instr.imd ((vm.allocaCount instr).setWidth 32)] }
    (vm.operandA instr).place (vm.reg .sp - 8) .quad

/-- The first operand is `sp` itself. -/
def DestinationIsSp (vm : Vm) (instr : Instruction) : Prop := (vm.operandA instr).place = .reg 6

instance (vm : Vm) (instr : Instruction) : Decidable (vm.DestinationIsSp instr) :=
  inferInstanceAs (Decidable ((vm.operandA instr).place = .reg 6))

/-- `alloca` completes. -/
def CompletesAlloca (vm : Vm) (instr : Instruction) : Prop :=
  vm.FindsOperands instr ∧ (vm.operandB instr).place.Present vm.ram.size instr.modeB.size ∧
    (vm.operandA instr).place.Present vm.ram.size 8 ∧
    (vm.roomWritten instr).HasRoomFor ((vm.roomWritten instr).reg .sp) ((vm.allocaCount instr).setWidth 8)

/-- `ret` completes. -/
def CompletesRet (vm : Vm) (instr : Instruction) : Prop :=
  vm.FindsOperands instr ∧ (vm.operandA instr).place.Present vm.ram.size instr.modeB.size ∧
    ((vm.count instr).setWidth 32 ≠ (0 : U32) → vm.HasWords (vm.reg .sp) ((vm.count instr).setWidth 8)) ∧
    vm.CanLeave (vm.results instr) ((vm.count instr).setWidth 32)

end Vm

namespace VmM
open Prog

variable {vm vm' : Vm} {count : U8} {data : Option Data} {off : U64}

/-! ### Pushing and popping words -/

theorem reg_copied (r : Register) : (vm.copied data count).reg r = vm.reg r := by
  rcases data with _ | _ | _ <;> rfl

theorem size_copied : (vm.copied data count).ram.size = vm.ram.size := by
  rcases data with _ | _ | _ <;> rfl

theorem copyData_returns {u : Unit} :
    (copyData data count).Returns vm u vm' ↔ vm.CanCopy (vm.reg .sp) data count ∧ vm' = vm.copied data count := by
  rcases data with _ | src | vals
  · simp [copyData, Vm.CanCopy, Vm.copied]
  · simp only [copyData, returns_bind, getReg_returns, mem_returns, load_returns, returns_stopIf, store_returns, Vm.CanCopy,
      Vm.copied, toNat_wordsSize]
    constructor
    · rintro ⟨_, _, ⟨rfl, rfl⟩, _, _, ⟨-, rfl, rfl⟩, _, _, ⟨hsrc, rfl, rfl⟩, _, _, ⟨hno, rfl⟩, hdst, rfl⟩
      rw [Memory.length_slice, toNat_setWidth_off] at hdst
      exact ⟨⟨hsrc, hno, hdst⟩, by rw [toNat_setWidth_off]⟩
    · rintro ⟨⟨hsrc, hno, hdst⟩, rfl⟩
      have hsp : (vm.reg .sp).setWidth 32 ≤ vm.ram.size := Nat.le_of_add_right_le hdst
      refine ⟨_, _, ⟨rfl, rfl⟩, _, _, ⟨hsp, rfl, rfl⟩, _, _, ⟨hsrc, rfl, rfl⟩, (), _, ⟨hno, rfl⟩, ?_, ?_⟩
      · rwa [Memory.length_slice, toNat_setWidth_off]
      · rw [toNat_setWidth_off]
  · have hlen (h : count.toNat ≤ vals.length) : (wordBytes (vals.take count.toNat)).length = 8 * count.toNat := by
      rw [Memory.length_wordBytes, List.length_take, Nat.min_eq_left h]
    simp only [copyData, returns_bind, getReg_returns, mem_returns, returns_stopIf, store_returns, Vm.CanCopy, Vm.copied, not_lt]
    constructor
    · rintro ⟨_, _, ⟨rfl, rfl⟩, _, _, ⟨-, rfl, rfl⟩, _, _, ⟨hvals, rfl⟩, hdst, rfl⟩
      rw [hlen hvals, toNat_setWidth_off] at hdst
      exact ⟨⟨hvals, hdst⟩, by rw [toNat_setWidth_off]⟩
    · rintro ⟨⟨hvals, hdst⟩, rfl⟩
      have hsp : (vm.reg .sp).setWidth 32 ≤ vm.ram.size := Nat.le_of_add_right_le hdst
      refine ⟨_, _, ⟨rfl, rfl⟩, _, _, ⟨hsp, rfl, rfl⟩, (), _, ⟨hvals, rfl⟩, ?_, ?_⟩
      · rwa [hlen hvals, toNat_setWidth_off]
      · rw [toNat_setWidth_off]

theorem pushn_returns : (pushn data count).Returns vm off vm' ↔
    vm.HasRoomFor (vm.reg .sp) count ∧ vm.CanCopy (vm.reg .sp - wordsSize count) data count ∧
      off = ((vm.reg .sp - wordsSize count).setWidth 32).setWidth 64 ∧
      vm' = (vm.setReg .sp (vm.reg .sp - wordsSize count)).copied data count := by
  have hcopy : (vm.setReg .sp (vm.reg .sp - wordsSize count)).CanCopy
      ((vm.setReg .sp (vm.reg .sp - wordsSize count)).reg .sp) data count ↔
        vm.CanCopy (vm.reg .sp - wordsSize count) data count := by
    rw [Vm.reg_setReg]
    rcases data with _ | _ | _ <;> exact Iff.rfl
  simp only [pushn, returns_bind, returns_get, abortIf_returns, setReg_returns, copyData_returns, getReg_returns,
    mem_returns, BitVec.not_le, Vm.HasRoomFor]
  constructor
  · rintro ⟨_, _, ⟨rfl, rfl⟩, _, _, ⟨hsb, rfl⟩, _, _, rfl, _, _, ⟨hcan, rfl⟩, _, _, ⟨rfl, rfl⟩, hle, rfl, rfl⟩
    rw [reg_copied, Vm.reg_setReg] at hle ⊢
    rw [size_copied] at hle
    exact ⟨⟨hsb, hle⟩, hcopy.mp hcan, rfl, rfl⟩
  · rintro ⟨⟨hsb, hle⟩, hcan, rfl, rfl⟩
    refine ⟨_, _, ⟨rfl, rfl⟩, (), _, ⟨hsb, rfl⟩, (), _, rfl, (), _, ⟨hcopy.mpr hcan, rfl⟩, _, _, ⟨rfl, rfl⟩, ?_⟩
    rw [reg_copied, Vm.reg_setReg, size_copied]
    exact ⟨hle, rfl, rfl⟩

/-! ### Leaving a frame -/

theorem dropArgs_returns {n : U32} {u : Unit} : (dropArgs n).Returns vm u vm' ↔
    (n ≠ 0 → vm.HasWords (vm.reg .sp) (n.setWidth 8)) ∧ vm' = vm.setReg .sp (vm.reg .sp + wordsSize (n.setWidth 8)) := by
  have hzero : vm.reg .sp + wordsSize ((0 : U32).setWidth 8) = vm.reg .sp := by
    change vm.reg .sp + 0 = _
    simp
  unfold dropArgs
  split
  · rename_i hne
    simp only [returns_bind, popn_returns, returns_pure, Vm.HasWords]
    constructor
    · rintro ⟨_, _, ⟨h1, h2, -, rfl⟩, -, rfl⟩
      exact ⟨fun _ => ⟨h1, h2⟩, rfl⟩
    · rintro ⟨h, rfl⟩
      exact ⟨_, _, ⟨(h hne).1, (h hne).2, rfl, rfl⟩, trivial, rfl⟩
  · rename_i hz
    obtain rfl := not_not.mp hz
    rw [hzero, Vm.setReg_reg]
    exact ⟨fun h => ⟨fun hne => absurd rfl hne, (returns_pure.mp h).2⟩, fun h => returns_pure.mpr ⟨rfl, h.2⟩⟩

theorem pushResults_returns {n : U32} {u : Unit} : (pushResults data n).Returns vm u vm' ↔
    (n ≠ 0 → vm.HasRoomFor (vm.reg .sp) (n.setWidth 8) ∧
      vm.CanCopy (vm.reg .sp - wordsSize (n.setWidth 8)) data (n.setWidth 8)) ∧
    vm' = if n = 0 then vm else (vm.setReg .sp (vm.reg .sp - wordsSize (n.setWidth 8))).copied data (n.setWidth 8) := by
  unfold pushResults
  split
  · rename_i hne
    simp only [returns_bind, pushn_returns, returns_pure]
    constructor
    · rintro ⟨_, _, ⟨hroom, hcopy, -, rfl⟩, -, rfl⟩
      exact ⟨fun _ => ⟨hroom, hcopy⟩, rfl⟩
    · rintro ⟨h, rfl⟩
      exact ⟨_, _, ⟨(h hne).1, (h hne).2, rfl, rfl⟩, trivial, rfl⟩
  · rename_i hz
    rw [if_pos (not_not.mp hz)]
    exact ⟨fun h => ⟨fun hne => absurd hne hz, (returns_pure.mp h).2⟩, fun h => returns_pure.mpr ⟨rfl, h.2⟩⟩

/-- A word that is popped to a register, and then the rest. -/
theorem pop_to_returns {α : Type} {r : Register} {m : VmM α} {a : α} {sp : U64} (hsp : vm.reg .sp = sp) :
    (do setReg r (← pop); m : VmM α).Returns vm a vm' ↔ vm.HasWord sp ∧
      m.Returns ((vm.setReg .sp (sp + 8)).setReg r (vm.ram.word (sp.setWidth 32).toNat)) a vm' := by
  subst hsp
  simp only [returns_bind, pop_returns, setReg_returns]
  constructor
  · rintro ⟨_, _, ⟨hpop, rfl, rfl⟩, _, _, rfl, h⟩
    exact ⟨hpop, h⟩
  · rintro ⟨hpop, h⟩
    exact ⟨_, _, ⟨hpop, rfl, rfl⟩, (), _, rfl, h⟩

/-- The number of arguments is popped, then they are, and then the rest. -/
theorem pop_args_returns {α : Type} {m : VmM α} {a : α} {sp : U64} (hsp : vm.reg .sp = sp) :
    (do dropArgs ((← pop).setWidth 32); m : VmM α).Returns vm a vm' ↔
      (vm.HasWord sp ∧ ((vm.ram.word (sp.setWidth 32).toNat).setWidth 32 ≠ (0 : U32) →
        vm.HasWords (sp + 8) ((vm.ram.word (sp.setWidth 32).toNat).setWidth 8))) ∧
      m.Returns (vm.setReg .sp (sp + 8 + wordsSize ((vm.ram.word (sp.setWidth 32).toNat).setWidth 8))) a vm' := by
  subst hsp
  have hcut : ∀ x : U64, ((x.setWidth 32).setWidth 8 : U8) = x.setWidth 8 := fun x =>
    BitVec.setWidth_setWidth_of_le x (by decide)
  simp only [returns_bind, pop_returns, dropArgs_returns]
  constructor
  · rintro ⟨_, _, ⟨hpop, rfl, rfl⟩, _, _, ⟨hargs, rfl⟩, h⟩
    rw [Vm.reg_setReg, hcut] at hargs
    rw [Vm.reg_setReg, hcut, Vm.setReg_setReg] at h
    exact ⟨⟨hpop, hargs⟩, h⟩
  · rintro ⟨⟨hpop, hargs⟩, h⟩
    refine ⟨_, _, ⟨hpop, rfl, rfl⟩, (), _, ⟨?_, rfl⟩, ?_⟩
    · rw [Vm.reg_setReg, hcut]
      exact hargs
    · rw [Vm.reg_setReg, hcut, Vm.setReg_setReg]
      exact h

theorem leave_iff {n : U32} {u : Unit} : (leave data n).Returns vm u vm' ↔
    (vm.HasWord (vm.reg .bp) ∧ vm.HasWord (vm.reg .bp + 8) ∧ vm.HasWord (vm.reg .bp + 16) ∧
      (vm.storedArgs.setWidth 32 ≠ (0 : U32) → vm.HasWords (vm.reg .bp + 24) (vm.storedArgs.setWidth 8))) ∧
    (pushResults data n >>= fun _ => push (pure (n.setWidth 64))).Returns vm.unframed u vm' := by
  have h16 : vm.reg .bp + 8 + 8 = vm.reg .bp + 16 := by rw [BitVec.add_assoc]; rfl
  have h24 : vm.reg .bp + 16 + 8 = vm.reg .bp + 24 := by rw [BitVec.add_assoc]; rfl
  have hstart : (leave data n).Returns vm u vm' ↔ (do
      setReg .bp (← pop)
      setReg .ip (← pop)
      dropArgs ((← pop).setWidth 32)
      pushResults data n
      push (pure (n.setWidth 64)) : VmM Unit).Returns (vm.setReg .sp (vm.reg .bp)) u vm' := by
    unfold leave
    rw [returns_bind]
    simp only [getReg_returns]
    constructor
    · rintro ⟨_, _, ⟨rfl, rfl⟩, h⟩
      obtain ⟨_, t, ht, h⟩ := returns_bind.mp h
      obtain rfl := setReg_returns.mp ht
      exact h
    · intro h
      exact ⟨_, _, ⟨rfl, rfl⟩, returns_bind.mpr ⟨(), _, setReg_returns.mpr rfl, h⟩⟩
  have hsp : ∀ (t : Vm) (r : Register) (x y : U64), r ≠ .sp → ((t.setReg .sp x).setReg r y).reg .sp = x := by
    intro t r x y hr
    rw [Vm.reg_setReg_of_ne _ _ (Ne.symm hr), Vm.reg_setReg]
  rw [hstart, pop_to_returns (Vm.reg_setReg ..), pop_to_returns (hsp _ _ _ _ (by decide)), h16, Vm.setReg_setReg,
    pop_args_returns (hsp _ _ _ _ (by decide)), h24]
  constructor
  · rintro ⟨hw1, hw2, ⟨hw3, hargs⟩, h⟩
    exact ⟨⟨hw1, hw2, hw3, hargs⟩, h⟩
  · rintro ⟨⟨hw1, hw2, hw3, hargs⟩, h⟩
    exact ⟨hw1, hw2, ⟨hw3, hargs⟩, h⟩

theorem sp_results {n : U32} : (if n = 0 then vm
    else (vm.setReg .sp (vm.reg .sp - wordsSize (n.setWidth 8))).copied data (n.setWidth 8)).reg .sp =
      vm.reg .sp - wordsSize (n.setWidth 8) := by
  split
  · rename_i hz
    subst hz
    exact (BitVec.sub_zero _).symm
  · rw [reg_copied, Vm.reg_setReg]

theorem canCopy_congr {t : Vm} {sp : U64} (h : t.ram.size = vm.ram.size) : t.CanCopy sp data count ↔ vm.CanCopy sp data count := by
  unfold Vm.CanCopy
  rw [h]

theorem canPush_congr {t : Vm} {sp : U64} (h : t.ram.size = vm.ram.size) (h' : t.ram.sb = vm.ram.sb) :
    t.CanPush sp ↔ vm.CanPush sp := by
  unfold Vm.CanPush
  rw [h, h']

theorem limits_results {n : U32} : (if n = 0 then vm
    else (vm.setReg .sp (vm.reg .sp - wordsSize (n.setWidth 8))).copied data (n.setWidth 8)).ram.size = vm.ram.size ∧
    (if n = 0 then vm
      else (vm.setReg .sp (vm.reg .sp - wordsSize (n.setWidth 8))).copied data (n.setWidth 8)).ram.sb = vm.ram.sb := by
  split
  · exact ⟨rfl, rfl⟩
  · rcases data with _ | _ | _ <;> exact ⟨rfl, rfl⟩

theorem leave_returns {n : U32} {u : Unit} : (leave data n).Returns vm u vm' → vm.CanLeave data n ∧
    vm'.reg .sp = vm.spAbove - wordsSize (n.setWidth 8) - 8 := by
  intro h
  obtain ⟨⟨hw1, hw2, hw3, hargs⟩, h⟩ := leave_iff.mp h
  obtain ⟨_, t, hres, hpush⟩ := returns_bind.mp h
  obtain ⟨hroom, rfl⟩ := pushResults_returns.mp hres
  obtain ⟨hcan, rfl⟩ := push_pure_returns.mp hpush
  have hsp : vm.unframed.reg .sp = vm.spAbove := Vm.reg_setReg ..
  have hsize : vm.unframed.ram.size = vm.ram.size := rfl
  rw [canPush_congr limits_results.1 limits_results.2, sp_results, hsp] at hcan
  rw [hsp, canCopy_congr hsize] at hroom
  rw [reg_sp_pushed, sp_results, hsp]
  exact ⟨⟨hw1, hw2, hw3, hargs, hroom, hcan⟩, rfl⟩

theorem returns_leave {n : U32} (h : vm.CanLeave data n) : ∃ vm', (leave data n).Returns vm () vm' := by
  obtain ⟨hw1, hw2, hw3, hargs, hroom, hcan⟩ := h
  have hsp : vm.unframed.reg .sp = vm.spAbove := Vm.reg_setReg ..
  have hsize : vm.unframed.ram.size = vm.ram.size := rfl
  refine ⟨_, leave_iff.mpr ⟨⟨hw1, hw2, hw3, hargs⟩, returns_bind.mpr ⟨(), _, pushResults_returns.mpr ⟨?_, rfl⟩,
    push_pure_returns.mpr ⟨?_, rfl⟩⟩⟩⟩
  · rw [hsp, canCopy_congr hsize]
    exact hroom
  · rw [canPush_congr limits_results.1 limits_results.2, sp_results, hsp]
    exact hcan

/-! ### What the counts stand for -/

/-- The words of two counts, which are cut to a byte. -/
theorem toInt_frame (bp : U64) (k n : U8) :
    (bp + 24 + wordsSize k - wordsSize n - 8 - bp).toInt = 16 + 8 * (k.toNat : Int) - 8 * (n.toNat : Int) := by
  have hk := toNat_wordsSize k
  have hn := toNat_wordsSize n
  have hk8 := k.isLt
  have hn8 := n.isLt
  generalize wordsSize k = x, wordsSize n = y at *
  have hcancel : bp + 24 + x - y - 8 - bp = x + 16 - y := by bv_omega
  have h16 : (16 : U64).toNat = 16 := rfl
  rw [hcancel, BitVec.toInt_eq_toNat_cond, BitVec.toNat_sub, BitVec.toNat_add, h16]
  split <;> omega

theorem toNat_byte_eq_iff {x : U64} : ((x.setWidth 8 : U8).toNat : Int) = x.toInt ↔ 0 ≤ x.toInt ∧ x.toInt < 256 := by
  have hx := BitVec.toInt_eq_toNat_cond x
  have hlt := x.isLt
  rw [BitVec.toNat_setWidth]
  split at hx <;> omega

theorem toNat_byte (x : U64) : ((x.setWidth 8 : U8).toNat : Int) = x.toInt % 256 := by
  have hx := BitVec.toInt_eq_toNat_cond x
  have hlt := x.isLt
  rw [BitVec.toNat_setWidth]
  split at hx <;> omega

/-! ### The instructions -/

section Instructions
variable {host : Host} {instr : Instruction} {iip : U64} {u : Unit}

theorem execute_iff : (execute host instr iip).Returns vm u vm' ↔ vm.FindsOperands instr ∧
    (apply host instr iip (vm.operandA instr).place (vm.operandB instr).place).Returns vm u vm' := by
  unfold execute Vm.FindsOperands
  rw [returns_bind]
  by_cases hosz : instr.osz = 0
  · have hstop : operands instr = stop .unreachable := by rw [operands, hosz]
    rw [hstop]
    refine iff_of_false ?_ fun h => h.1.1 hosz
    rintro ⟨_, _, h, -⟩
    exact returns_stop h
  · simp only [operands_returns hosz]
    constructor
    · rintro ⟨_, _, ⟨hA, hB, rfl, rfl⟩, h⟩
      exact ⟨⟨hosz, hA, hB⟩, h⟩
    · rintro ⟨⟨-, hA, hB⟩, h⟩
      exact ⟨_, _, ⟨hA, hB, rfl, rfl⟩, h⟩

theorem popn_iff (hop : instr.op = some .popn) : (execute host instr iip).Returns vm u vm' ↔
    vm.CompletesPopn instr ∧ vm' = vm.setReg .sp (vm.reg .sp + wordsSize ((vm.count instr).setWidth 8)) := by
  rw [execute_iff, apply, hop]
  simp only [returns_bind, read_returns, popn_returns, returns_pure]
  constructor
  · rintro ⟨hfind, _, _, ⟨hA, rfl, rfl⟩, _, _, ⟨h1, h2, -, rfl⟩, -, rfl⟩
    exact ⟨⟨hfind, hA, h1, h2⟩, rfl⟩
  · rintro ⟨⟨hfind, hA, h1, h2⟩, rfl⟩
    exact ⟨hfind, _, _, ⟨hA, rfl, rfl⟩, _, _, ⟨h1, h2, rfl, rfl⟩, trivial, rfl⟩

/-- `alloca` writes to its first operand and then makes room. -/
theorem alloca_iff (hop : instr.op = some .alloca) : (execute host instr iip).Returns vm u vm' ↔
    vm.CompletesAlloca instr ∧ vm' = (vm.roomWritten instr).setReg .sp
      ((vm.roomWritten instr).reg .sp - wordsSize ((vm.allocaCount instr).setWidth 8)) := by
  have hcut : (((vm.allocaCount instr).setWidth 32 : U32).setWidth 8 : U8) = (vm.allocaCount instr).setWidth 8 :=
    BitVec.setWidth_setWidth_of_le _ (by decide)
  have hprint (o : Output) : ∀ u t, (print o).Returns vm u t ↔ True ∧ u = () ∧ t = { vm with stdout := vm.stdout ++ [o] } :=
    fun u t => by simp
  have hget (t' : Vm) : ∀ v t, (getReg .sp).Returns t' v t ↔ True ∧ v = t'.reg .sp ∧ t = t' := fun v t => by simp
  have hwrite (t' : Vm) (p : Place) (v : U64) : ∀ u t, (write p v .quad).Returns t' u t ↔
      p.Present t'.ram.size 8 ∧ u = () ∧ t = t'.writeAt p v .quad := fun u t => by simp [Mode.size]
  have hpushn (t' : Vm) (n : U8) : ((do let _ ← pushn none n : VmM Unit)).Returns t' u vm' ↔
      t'.HasRoomFor (t'.reg .sp) n ∧ vm' = t'.setReg .sp (t'.reg .sp - wordsSize n) := by
    simp only [returns_bind, pushn_none_returns, returns_pure, Vm.HasRoomFor]
    constructor
    · rintro ⟨_, _, ⟨h1, h2, -, rfl⟩, -, rfl⟩
      exact ⟨⟨h1, h2⟩, rfl⟩
    · rintro ⟨⟨h1, h2⟩, rfl⟩
      exact ⟨_, _, ⟨h1, h2, rfl, rfl⟩, trivial, rfl⟩
  rw [execute_iff, apply, hop]
  unfold alloca
  rw [returns_bind_of_iff fun _ _ => read_returns, returns_bind_of_iff (hprint _), returns_bind_of_iff (hget _),
    returns_bind_of_iff (hwrite _ _ _), hpushn]
  dsimp only
  rw [← Vm.allocaCount, hcut]
  constructor
  · rintro ⟨hfind, hB, -, -, hA, hroom, rfl⟩
    exact ⟨⟨hfind, hB, hA, hroom⟩, rfl⟩
  · rintro ⟨⟨hfind, hB, hA, hroom⟩, rfl⟩
    exact ⟨hfind, hB, trivial, trivial, hA, hroom, rfl⟩

theorem popResults_returns {n : U32} {x : Option Data} : (popResults n).Returns vm x vm' ↔
    (n ≠ 0 → vm.HasWords (vm.reg .sp) (n.setWidth 8)) ∧
      x = (if n = 0 then none else some (.ram (((vm.reg .sp).setWidth 32).setWidth 64))) ∧
      vm' = if n = 0 then vm else vm.setReg .sp (vm.reg .sp + wordsSize (n.setWidth 8)) := by
  unfold popResults
  by_cases hz : n = 0
  · rw [if_neg (not_not.mpr hz), if_pos hz, if_pos hz, returns_pure]
    exact ⟨fun h => ⟨fun hne => absurd hz hne, h⟩, fun h => h.2⟩
  · rw [if_pos hz, if_neg hz, if_neg hz]
    simp only [returns_bind, popn_returns, returns_pure]
    constructor
    · rintro ⟨_, _, ⟨h1, h2, rfl, rfl⟩, rfl, rfl⟩
      exact ⟨fun _ => ⟨h1, h2⟩, rfl, rfl⟩
    · rintro ⟨h, rfl, rfl⟩
      exact ⟨_, _, ⟨(h hz).1, (h hz).2, rfl, rfl⟩, rfl, rfl⟩

theorem canLeave_setReg_sp {n : U32} {x : U64} : (vm.setReg .sp x).CanLeave data n ↔ vm.CanLeave data n := Iff.rfl

theorem ret_iff (hop : instr.op = some .ret) : (execute host instr iip).Returns vm u vm' ↔
    (vm.FindsOperands instr ∧ (vm.operandA instr).place.Present vm.ram.size instr.modeB.size ∧
      ((vm.count instr).setWidth 32 ≠ (0 : U32) → vm.HasWords (vm.reg .sp) ((vm.count instr).setWidth 8))) ∧
    (leave (vm.results instr) ((vm.count instr).setWidth 32)).Returns (if (vm.count instr).setWidth 32 = (0 : U32) then vm
      else vm.setReg .sp (vm.reg .sp + wordsSize ((vm.count instr).setWidth 8))) u vm' := by
  have hcut : (((vm.count instr).setWidth 32 : U32).setWidth 8 : U8) = (vm.count instr).setWidth 8 :=
    BitVec.setWidth_setWidth_of_le _ (by decide)
  rw [execute_iff, apply, hop]
  unfold ret
  rw [returns_bind_of_iff fun _ _ => read_returns, returns_bind_of_iff fun _ _ => popResults_returns]
  rw [← Vm.count, hcut, and_assoc, and_assoc]
  rfl

theorem ret_returns (hop : instr.op = some .ret) (h : (execute host instr iip).Returns vm u vm') : vm.CompletesRet instr ∧
    vm'.reg .sp = vm.spAbove - wordsSize ((vm.count instr).setWidth 8) - 8 := by
  have hcut : (((vm.count instr).setWidth 32 : U32).setWidth 8 : U8) = (vm.count instr).setWidth 8 :=
    BitVec.setWidth_setWidth_of_le _ (by decide)
  obtain ⟨⟨hfind, hA, hwords⟩, h⟩ := (ret_iff hop).mp h
  obtain ⟨hcan, hsp⟩ := leave_returns h
  rw [hcut] at hsp
  split at hcan <;> rename_i hz
  · rw [if_pos hz] at hsp
    exact ⟨⟨hfind, hA, hwords, hcan⟩, hsp⟩
  · rw [if_neg hz] at hsp
    exact ⟨⟨hfind, hA, hwords, canLeave_setReg_sp.mp hcan⟩, hsp⟩

theorem returns_ret (hop : instr.op = some .ret) (h : vm.CompletesRet instr) :
    ∃ vm', (execute host instr iip).Returns vm () vm' := by
  obtain ⟨hfind, hA, hwords, hcan⟩ := h
  simp only [ret_iff hop]
  have hcan' : (if (vm.count instr).setWidth 32 = (0 : U32) then vm
      else vm.setReg .sp (vm.reg .sp + wordsSize ((vm.count instr).setWidth 8))).CanLeave (vm.results instr)
        ((vm.count instr).setWidth 32) := by
    split
    · exact hcan
    · exact canLeave_setReg_sp.mpr hcan
  obtain ⟨vm', hleave⟩ := returns_leave hcan'
  exact ⟨vm', ⟨hfind, hA, hwords⟩, hleave⟩

end Instructions

/-! ### How far `sp` is moved -/

/-- A step that completes leaves `sp` at this distance from an address. -/
def MovesSp (m : VmM Unit) (vm : Vm) (start : U64) (d : Int) : Prop :=
  ∀ vm', m.Returns vm () vm' → (vm'.reg .sp - start).toInt = d

section Moves
variable {host : Host} {instr : Instruction} {iip : U64}

theorem toInt_up (x : U64) (n : U8) : (x + wordsSize n - x).toInt = 8 * (n.toNat : Int) := by
  have hn := toNat_wordsSize n
  have hn8 := n.isLt
  generalize wordsSize n = y at *
  have hcancel : x + y - x = y := by bv_omega
  rw [hcancel, BitVec.toInt_eq_toNat_cond]
  split <;> omega

theorem toInt_down (x : U64) (n : U8) : (x - wordsSize n - x).toInt = -(8 * (n.toNat : Int)) := by
  have hn := toNat_wordsSize n
  have hn8 := n.isLt
  generalize wordsSize n = y at *
  have hcancel : x - y - x = 0 - y := by bv_omega
  rw [hcancel, BitVec.toInt_eq_toNat_cond, BitVec.toNat_sub]
  split <;> simp_all <;> omega

theorem moves_popn (hop : instr.op = some .popn) :
    MovesSp (execute host instr iip) vm (vm.reg .sp) (8 * (vm.count instr).toInt) ↔
      (vm.CompletesPopn instr → 0 ≤ (vm.count instr).toInt ∧ (vm.count instr).toInt < 256) := by
  rw [← toNat_byte_eq_iff]
  constructor
  · intro h hcomp
    have hmoved := h _ ((popn_iff hop).mpr ⟨hcomp, rfl⟩)
    rw [Vm.reg_setReg, toInt_up] at hmoved
    omega
  · intro h vm' hr
    obtain ⟨hcomp, rfl⟩ := (popn_iff hop).mp hr
    rw [Vm.reg_setReg, toInt_up, h hcomp]

theorem sp_writeAt {p : Place} {v : U64} :
    (vm.writeAt p v .quad).reg .sp = if p = .reg 6 then v else vm.reg .sp := by
  have hsix : ∀ n : Fin 16, Register.ofNat? n = some .sp ↔ n = 6 := by decide
  have hmerge (x y : U64) : mergeLow 8 x y = y := by
    apply BitVec.eq_of_toNat_eq
    have hx := x.isLt
    have hy := y.isLt
    rw [mergeLow, BitVec.toNat_ofNat]
    omega
  cases p with
  | reg n =>
    simp only [Vm.writeAt, Place.reg.injEq, ← hsix]
    split
    · rename_i r hr
      by_cases hsp : r = .sp
      · rw [if_pos (hsp ▸ hr), hsp, Vm.reg_setReg]
        exact hmerge _ _
      · rw [if_neg fun h => hsp (Option.some.inj (hr.symm.trans h)), Vm.reg_setReg_of_ne _ _ (Ne.symm hsp)]
    · rename_i hr
      rw [if_neg fun h => absurd (hr.symm.trans h) (by simp)]
  | _ => exact (if_neg (by simp)).symm

/-- Where `alloca` begins to make room: a word lower, when the place of the room is written to `sp` itself. -/
theorem sp_roomWritten : (vm.roomWritten instr).reg .sp =
    if vm.DestinationIsSp instr then vm.reg .sp - 8 else vm.reg .sp := sp_writeAt

theorem moves_alloca (hop : instr.op = some .alloca) :
    MovesSp (execute host instr iip) vm (vm.reg .sp) (-(8 * (vm.allocaCount instr).toInt)) ↔
      (vm.CompletesAlloca instr → ¬vm.DestinationIsSp instr ∧
        0 ≤ (vm.allocaCount instr).toInt ∧ (vm.allocaCount instr).toInt < 256) := by
  rw [← toNat_byte_eq_iff]
  have hmoved : ((vm.roomWritten instr).reg .sp - wordsSize ((vm.allocaCount instr).setWidth 8) - vm.reg .sp).toInt =
      -(8 * (vm.allocaCount instr).toInt) ↔ ¬vm.DestinationIsSp instr ∧
        (((vm.allocaCount instr).setWidth 8 : U8).toNat : Int) = (vm.allocaCount instr).toInt := by
    rw [sp_roomWritten]
    split
    · rename_i hdest
      have hbyte := toNat_byte (vm.allocaCount instr)
      have hn := toNat_wordsSize ((vm.allocaCount instr).setWidth 8)
      have hn8 := ((vm.allocaCount instr).setWidth 8 : U8).isLt
      have h8 : (8 : U64).toNat = 8 := rfl
      refine iff_of_false (fun h => ?_) fun h => h.1 hdest
      generalize wordsSize ((vm.allocaCount instr).setWidth 8) = y at *
      have hcancel : vm.reg .sp - 8 - y - vm.reg .sp = 0 - (y + 8) := by bv_omega
      rw [hcancel, BitVec.toInt_eq_toNat_cond, BitVec.toNat_sub, BitVec.toNat_add, h8] at h
      split at h <;> simp_all <;> omega
    · rename_i hdest
      rw [toInt_down]
      constructor
      · exact fun h => ⟨hdest, by omega⟩
      · exact fun h => by rw [h.2]
  constructor
  · intro h hcomp
    have hd := h _ ((alloca_iff hop).mpr ⟨hcomp, rfl⟩)
    rw [Vm.reg_setReg] at hd
    exact hmoved.mp hd
  · intro h vm' hr
    obtain ⟨hcomp, rfl⟩ := (alloca_iff hop).mp hr
    rw [Vm.reg_setReg]
    exact hmoved.mpr (h hcomp)

theorem toInt_spAbove (n : U8) : (vm.spAbove - wordsSize n - 8 - vm.reg .bp).toInt =
    16 + 8 * (vm.storedArgs.toInt % 256) - 8 * (n.toNat : Int) := by
  rw [← toNat_byte]
  exact toInt_frame _ _ _

theorem moves_ret (hop : instr.op = some .ret) :
    MovesSp (execute host instr iip) vm (vm.reg .bp)
      (16 + 8 * vm.storedArgs.toInt - 8 * (vm.count instr).toInt) ↔
      (vm.CompletesRet instr → (vm.count instr).toInt / 256 = vm.storedArgs.toInt / 256) := by
  have hsame : 16 + 8 * (vm.storedArgs.toInt % 256) - 8 * (((vm.count instr).setWidth 8 : U8).toNat : Int) =
      16 + 8 * vm.storedArgs.toInt - 8 * (vm.count instr).toInt ↔
        (vm.count instr).toInt / 256 = vm.storedArgs.toInt / 256 := by
    have hn := toNat_byte (vm.count instr)
    omega
  constructor
  · intro h hcomp
    obtain ⟨vm', hr⟩ := returns_ret hop hcomp
    have hd := h vm' hr
    rw [(ret_returns hop hr).2, toInt_spAbove] at hd
    exact hsame.mp hd
  · intro h vm' hr
    obtain ⟨hcomp, hsp⟩ := ret_returns hop hr
    rw [hsp, toInt_spAbove]
    exact hsame.mpr (h hcomp)

theorem moves_returnx {vals : Data} {n : U32} :
    MovesSp (returnx vals n) vm (vm.reg .bp) (16 + 8 * vm.storedArgs.toInt - 8 * (n.toNat : Int)) ↔
      (vm.CanLeave (some vals) n → (n.toNat : Int) / 256 = vm.storedArgs.toInt / 256) := by
  have hsame : 16 + 8 * (vm.storedArgs.toInt % 256) - 8 * ((n.setWidth 8 : U8).toNat : Int) =
      16 + 8 * vm.storedArgs.toInt - 8 * (n.toNat : Int) ↔ (n.toNat : Int) / 256 = vm.storedArgs.toInt / 256 := by
    rw [BitVec.toNat_setWidth]
    omega
  constructor
  · intro h hcan
    obtain ⟨vm', hr⟩ := returns_leave hcan
    have hd := h vm' hr
    rw [(leave_returns hr).2, toInt_spAbove] at hd
    exact hsame.mp hd
  · intro h vm' hr
    obtain ⟨hcan, hsp⟩ := leave_returns hr
    rw [hsp, toInt_spAbove]
    exact hsame.mpr (h hcan)

end Moves

end VmM

end Cyntatic
