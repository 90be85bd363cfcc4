import Cyntatic.Theorems.Frames
import Cyntatic.Theorems.Sandbox

/-! # Operations on two operands

An operation of `BINARY_OPS` leaves the low bytes of its result in the first operand, and changes nothing else. -/

namespace Cyntatic
open Library

/-! ### The operations of C -/

namespace OpCode

/-- What the operation makes of two `i64`, where C says. A sum, a difference or a product that is no `i64` is truncated
    when it is written. -/
def cOperation (opc : OpCode) (a b : Int) : Option Int :=
  match opc with
  | add => some (a + b)
  | sub => some (a - b)
  | and => some (if a ≠ 0 ∧ b ≠ 0 then 1 else 0)
  | or => some (if a ≠ 0 ∨ b ≠ 0 then 1 else 0)
  | sar => if 0 ≤ b ∧ b < 64 then some (a >>> b.toNat) else none
  | sal => if 0 ≤ b ∧ b < 64 then some (a * 2 ^ b.toNat) else none
  | xor => some (BitVec.ofInt 64 a ^^^ BitVec.ofInt 64 b).toInt
  | bor => some (BitVec.ofInt 64 a ||| BitVec.ofInt 64 b).toInt
  | band => some (BitVec.ofInt 64 a &&& BitVec.ofInt 64 b).toInt
  | mul => some (a * b)
  | div => if b = 0 ∨ a = -2 ^ 63 ∧ b = -1 then none else some (a.tdiv b)
  | _ => none

/-- The operations that depend on the low bits of their operands alone. -/
def modular {w : Nat} (opc : OpCode) : Option (BitVec w → BitVec w → BitVec w) :=
  match opc with
  | add => some (· + ·)
  | sub => some (· - ·)
  | mul => some (· * ·)
  | xor => some (· ^^^ ·)
  | bor => some (· ||| ·)
  | band => some (· &&& ·)
  | _ => none

end OpCode

/-! ### Where the operands are -/

/-- A register, or the bytes from an address on. -/
inductive Location where
  | reg (r : Register)
  | mem (addr : U64)

/-- The low bytes at a location, as a number. -/
def Vm.low (vm : Vm) (n : Nat) : Location → BitVec (8 * n)
  | .reg r => (vm.reg r).setWidth (8 * n)
  | .mem addr => BitVec.ofNat (8 * n) (leNat (vm.ram.slice addr.toNat n))

/-- The first operand is in a register, or in memory that a register addresses. -/
inductive Instruction.Destination (instr : Instruction) (vm : Vm) : Location → Prop
  | reg {r : Register} (hra : Register.ofNat? instr.ra = some r) (hiam : instr.iam = false) :
      Destination instr vm (.reg r)
  | mem {r : Register} (hra : Register.ofNat? instr.ra = some r) (hiam : instr.iam = true)
      (hin : (vm.reg r).toNat + instr.imd.size ≤ vm.ram.size.toNat) : Destination instr vm (.mem (vm.reg r))

/-- The second operand is in a register, in memory that a register addresses, with an offset or none, or in the
    instruction. -/
inductive Instruction.Source (instr : Instruction) (vm : Vm) : (m : Mode) → BitVec (8 * m.size) → Prop
  | reg {r : Register} (hrmd : instr.rmd = .reg) (hrb : Register.ofNat? instr.rb = some r) (hibm : instr.ibm = false) :
      Source instr vm instr.imd (vm.low instr.imd.size (.reg r))
  | mem {r : Register} {d : U64} (hrmd : instr.rmd = .reg) (hrb : Register.ofNat? instr.rb = some r) (hibm : instr.ibm = true)
      (hd : d = if instr.iea then instr.ii else 0) (hbase : (vm.reg r).toNat ≤ vm.ram.size.toNat)
      (hin : (vm.reg r + d).toNat + instr.imd.size ≤ vm.ram.size.toNat) :
      Source instr vm instr.imd (vm.low instr.imd.size (.mem (vm.reg r + d)))
  | imm (hrmd : instr.rmd = .imm) (hibm : instr.ibm = false) :
      Source instr vm instr.ims (instr.ii.setWidth (8 * instr.ims.size))

/-- Nothing changes but the low bytes at a location. -/
structure Vm.ChangedOnly (vm vm' : Vm) (loc : Location) (n : Nat) : Prop where
  regs : ∀ r, loc ≠ .reg r → vm'.reg r = vm.reg r
  high : ∀ r i, loc = .reg r → n ≤ i → byteAt (vm'.reg r) i = byteAt (vm.reg r) i
  bytes : ∀ i, (∀ addr, loc = .mem addr → i < addr.toNat ∨ addr.toNat + n ≤ i) → vm'.ram.bytes i = vm.ram.bytes i
  rest : vm' = { vm with regs := vm'.regs, ram := { vm.ram with bytes := vm'.ram.bytes } }

/-! ### Low bytes -/

section Low
variable {old x : U64} {n i : Nat} {vm : Vm}

theorem toNat_mergeLow_of_le (hn : 8 * n ≤ 64) :
    (mergeLow n old x).toNat = old.toNat / 2 ^ (8 * n) * 2 ^ (8 * n) + x.toNat % 2 ^ (8 * n) := by
  have hdvd : 2 ^ 64 = 2 ^ (64 - 8 * n) * 2 ^ (8 * n) := by
    rw [← Nat.pow_add]
    congr 1
    omega
  have hdiv : old.toNat / 2 ^ (8 * n) < 2 ^ (64 - 8 * n) := by
    rw [Nat.div_lt_iff_lt_mul (Nat.two_pow_pos _), ← hdvd]
    exact old.isLt
  have hmod : x.toNat % 2 ^ (8 * n) < 2 ^ (8 * n) := Nat.mod_lt _ (Nat.two_pow_pos _)
  have hlt : old.toNat / 2 ^ (8 * n) * 2 ^ (8 * n) + x.toNat % 2 ^ (8 * n) < 2 ^ 64 := by
    have hle := Nat.mul_le_mul_right (2 ^ (8 * n)) hdiv
    rw [← hdvd, Nat.succ_mul] at hle
    omega
  rw [mergeLow, BitVec.toNat_ofNat, Nat.mod_eq_of_lt hlt]

theorem setWidth_mergeLow (hn : 8 * n ≤ 64) : (mergeLow n old x).setWidth (8 * n) = x.setWidth (8 * n) := by
  apply BitVec.eq_of_toNat_eq
  rw [BitVec.toNat_setWidth, BitVec.toNat_setWidth, toNat_mergeLow_of_le hn, Nat.mul_add_mod_self_right, Nat.mod_mod]

theorem byteAt_mergeLow (hn : 8 * n ≤ 64) (hi : n ≤ i) : byteAt (mergeLow n old x) i = byteAt old i := by
  apply BitVec.eq_of_toNat_eq
  have hpow : 2 ^ (8 * i) = 2 ^ (8 * n) * 2 ^ (8 * (i - n)) := by
    rw [← Nat.pow_add]
    congr 1
    omega
  have hmod : x.toNat % 2 ^ (8 * n) < 2 ^ (8 * n) := Nat.mod_lt _ (Nat.two_pow_pos _)
  rw [byteAt_toNat, byteAt_toNat, toNat_mergeLow_of_le hn, hpow, ← Nat.div_div_eq_div_mul, ← Nat.div_div_eq_div_mul,
    Nat.mul_comm, Nat.mul_add_div (Nat.two_pow_pos _), Nat.div_eq_of_lt hmod, Nat.add_zero]

end Low

/-! ### The operands -/

section Operands
variable {vm : Vm} {instr : Instruction} {loc : Location} {x : U64} {m : Mode} {b : BitVec (8 * m.size)} {r : Register}

variable (vm) in
theorem Register.eq_of_ofNat? {n : Fin 16} (h : Register.ofNat? n = some r) : n < Register.count ∧ vm.reg? n = some (vm.reg r) := by
  refine ⟨Register.ofNat?_isSome_iff.mp (h ▸ rfl), ?_⟩
  rw [Vm.reg?, h, Option.map_some]

/-- An address below the size of the memory is not cut. -/
theorem setWidth_addr {addr : U64} {size : U32} (h : addr.toNat ≤ size.toNat) :
    (addr.setWidth 32).toNat = addr.toNat ∧ (addr.setWidth 32).setWidth 64 = addr := by
  have hsize := size.isLt
  have hnat : (addr.setWidth 32).toNat = addr.toNat := by
    rw [BitVec.toNat_setWidth]
    omega
  refine ⟨hnat, BitVec.eq_of_toNat_eq ?_⟩
  rw [BitVec.toNat_setWidth, hnat]
  omega

/-- What is known of an operand that is found. -/
structure Found (vm : Vm) (instr : Instruction) (o : Operand) (m : Mode) (v : BitVec (8 * m.size)) : Prop where
  fits : o.AddrFits
  goesOn : ¬o.Aborts vm.ram.size
  present : o.place.Present vm.ram.size m.size
  readAt : vm.readAt instr o.place m = v.signExtend 64

theorem found_reg {n : Fin 16} (hn : Register.ofNat? n = some r) {d : U64} :
    Found vm instr (vm.regOperand n false d) m (vm.low m.size (.reg r)) where
  fits := trivial
  goesOn := id
  present := (Register.eq_of_ofNat? vm hn).1
  readAt := by
    change signTrunc m.size ((vm.reg? n).getD 0) = _
    rw [(Register.eq_of_ofNat? vm hn).2]
    rfl

theorem found_mem {n : Fin 16} (hn : Register.ofNat? n = some r) {d : U64} (hbase : (vm.reg r).toNat ≤ vm.ram.size.toNat)
    (hin : (vm.reg r + d).toNat + m.size ≤ vm.ram.size.toNat) :
    Found vm instr (vm.regOperand n true d) m (vm.low m.size (.mem (vm.reg r + d))) := by
  obtain ⟨hcount, hreg⟩ := Register.eq_of_ofNat? vm hn
  obtain ⟨hnat, haddr⟩ := setWidth_addr hbase
  have hop : vm.regOperand n true d = .mem (some n) (vm.reg r) d := by rw [Vm.regOperand, if_pos rfl, hreg, Option.getD_some]
  have hplace : (Operand.mem (some n) (vm.reg r) d).place = .ram (vm.reg r + d) (vm.reg r + d) := by
    rw [Operand.place, haddr]
  rw [hop]
  refine ⟨hcount, ?_, ?_, ?_⟩
  · rw [Operand.Aborts, BitVec.not_lt, BitVec.le_def, hnat]
    exact hbase
  · rw [hplace]
    exact hin
  · rw [hplace]
    rfl

theorem Instruction.Source.found (h : instr.Source vm m b) (hosz : instr.osz = 3) :
    instr.modeB = m ∧ Found vm instr (vm.operandB instr) m b := by
  have hne : instr.osz ≠ 1 := by rw [hosz]; decide
  rw [Vm.operandB, if_pos hosz, Instruction.modeB]
  cases h with
  | reg hrmd hrb hibm =>
    rw [if_pos ⟨hne, hrmd⟩, if_pos hrmd, hibm]
    exact ⟨rfl, found_reg hrb⟩
  | mem hrmd hrb hibm hd hbase hin =>
    rw [if_pos ⟨hne, hrmd⟩, if_pos hrmd, hibm, ← hd]
    exact ⟨rfl, found_mem hrb hbase hin⟩
  | imm hrmd hibm =>
    have hreg : ¬instr.rmd = .reg := by rw [hrmd]; decide
    rw [if_neg (fun h => hreg h.2), if_neg hreg, hibm]
    exact ⟨rfl, trivial, id, trivial, rfl⟩

theorem Instruction.Destination.found (h : instr.Destination vm loc) (hosz : instr.osz = 3) :
    Found vm instr (vm.operandA instr) instr.imd (vm.low instr.imd.size loc) := by
  have htwo : ¬(instr.osz = 2 ∧ instr.rmd = .imm) := by rw [hosz]; exact fun h => absurd h.1 (by decide)
  rw [Vm.operandA, if_neg htwo, if_pos (.inr hosz)]
  cases h with
  | reg hra hiam =>
    rw [hiam]
    exact found_reg hra
  | mem hra hiam hin =>
    have hzero : ∀ y : U64, y + 0 = y := fun y => by simp
    have hmem : Found vm instr (vm.regOperand instr.ra true 0) instr.imd (vm.low instr.imd.size (.mem (vm.reg _ + 0))) :=
      found_mem hra (Nat.le_of_add_right_le hin) (by rwa [hzero])
    rw [hzero] at hmem
    rw [hiam]
    exact hmem

/-- What writing to the first operand does. -/
theorem Instruction.Destination.writeAt (h : instr.Destination vm loc) (hosz : instr.osz = 3) :
    (vm.writeAt (vm.operandA instr).place x instr.imd).low instr.imd.size loc = x.setWidth (8 * instr.imd.size) ∧
      vm.ChangedOnly (vm.writeAt (vm.operandA instr).place x instr.imd) loc instr.imd.size := by
  have htwo : ¬(instr.osz = 2 ∧ instr.rmd = .imm) := by rw [hosz]; exact fun h => absurd h.1 (by decide)
  have hbits := instr.imd.size_bits
  rw [Vm.operandA, if_neg htwo, if_pos (.inr hosz)]
  cases h with
  | @reg r hra hiam =>
    have hwrite : vm.writeAt (vm.regOperand instr.ra instr.iam 0).place x instr.imd =
        vm.setReg r (mergeLow instr.imd.size (vm.reg r) x) := by
      rw [hiam, Vm.regOperand, if_neg (by decide), Operand.place, Vm.writeAt, hra]
    rw [hwrite]
    refine ⟨?_, ?_, ?_, fun _ _ => rfl, rfl⟩
    · rw [Vm.low, Vm.reg_setReg, setWidth_mergeLow hbits]
    · intro r' hne
      exact Vm.reg_setReg_of_ne _ _ fun heq => hne (by rw [heq])
    · rintro r' i heq hi
      obtain rfl : r = r' := by injection heq
      rw [Vm.reg_setReg, byteAt_mergeLow hbits hi]
  | @mem r hra hiam hin =>
    obtain ⟨hnat, haddr⟩ := setWidth_addr (Nat.le_of_add_right_le hin)
    have hzero : ∀ y : U64, y + 0 = y := fun y => by simp
    have hwrite : vm.writeAt (vm.regOperand instr.ra instr.iam 0).place x instr.imd =
        vm.setBytes (vm.reg r).toNat (leBytes instr.imd.size x) := by
      rw [hiam, Vm.regOperand, if_pos rfl, (Register.eq_of_ofNat? vm hra).2, Option.getD_some, Operand.place, haddr, hzero]
      rfl
    rw [hwrite]
    refine ⟨?_, fun _ _ => rfl, ?_, ?_, rfl⟩
    · have hslice := Memory.slice_store vm.ram (vm.reg r).toNat (leBytes instr.imd.size x)
      rw [length_leBytes] at hslice
      rw [Vm.low]
      change BitVec.ofNat _ (leNat ((vm.ram.store (vm.reg r).toNat (leBytes instr.imd.size x)).slice _ _)) = _
      rw [hslice, leNat_leBytes]
      apply BitVec.eq_of_toNat_eq
      rw [BitVec.toNat_ofNat, BitVec.toNat_setWidth, Nat.mod_mod]
    · rintro r' i heq
      cases heq
    · intro i hi
      change (vm.ram.store (vm.reg r).toNat (leBytes instr.imd.size x)).bytes i = _
      rcases hi _ rfl with hlt | hge
      · exact Memory.bytes_store_of_lt hlt
      · exact Memory.bytes_store_of_le (by rwa [length_leBytes])

end Operands

/-! ### The operations -/

namespace VmM
open Prog

section Operations
variable {opc : OpCode} {a b x : U64} {v : Int} {instr : Instruction} {rA rB : Place} {ta tb : Mode} {vm : Vm} {host : Host}
  {iip : U64}

theorem binary_returns {f : U64 → U64 → Except Stop U64} (hA : rA.Present vm.ram.size ta.size)
    (hB : rB.Present vm.ram.size tb.size) (hf : f (vm.readAt instr rA ta) (vm.readAt instr rB tb) = .ok x) :
    (binary instr rA rB ta tb f).Returns vm () (vm.writeAt rA x ta) := by
  refine returns_bind.mpr ⟨_, vm, read_returns.mpr ⟨hA, rfl, rfl⟩, returns_bind.mpr ⟨_, vm, read_returns.mpr ⟨hB, rfl, rfl⟩, ?_⟩⟩
  rw [hf]
  exact write_returns.mpr ⟨hA, rfl⟩

/-- An operand that is left out makes no difference. -/
theorem shortCircuit_returns {short : Bool} (hA : rA.Present vm.ram.size ta.size) (hB : rB.Present vm.ram.size tb.size)
    (hx : x = if (vm.readAt instr rA ta != 0) = short then (if short then 1 else 0)
      else if vm.readAt instr rB tb != 0 then 1 else 0) :
    (shortCircuit instr rA rB ta tb short).Returns vm () (vm.writeAt rA x ta) := by
  refine returns_bind.mpr ⟨_, vm, read_returns.mpr ⟨hA, rfl, rfl⟩, ?_⟩
  subst hx
  split
  · exact write_returns.mpr ⟨hA, rfl⟩
  · exact returns_bind.mpr ⟨_, vm, read_returns.mpr ⟨hB, rfl, rfl⟩, write_returns.mpr ⟨hA, rfl⟩⟩

theorem ne_zero_iff_toInt : (a != 0) = true ↔ a.toInt ≠ 0 := by
  rw [bne_iff_ne, ne_eq, ne_eq, ← BitVec.toInt_inj]
  rfl

theorem toNat_amount (h : 0 ≤ b.toInt ∧ b.toInt < 64) : b.toNat < 64 ∧ b.toInt.toNat = b.toNat := by
  have hmsb := BitVec.toInt_eq_toNat_cond b
  have hlt := b.isLt
  split at hmsb <;> omega

theorem shift_sar (hv : OpCode.sar.cOperation a.toInt b.toInt = some v) :
    shift BitVec.sshiftRight a b = .ok (BitVec.ofInt 64 v) := by
  change (if 0 ≤ b.toInt ∧ b.toInt < 64 then some (a.toInt >>> b.toInt.toNat) else none) = some v at hv
  split at hv
  · rename_i hb
    obtain ⟨hlt, hnat⟩ := toNat_amount hb
    obtain rfl := Option.some.inj hv
    rw [shift, if_pos hlt, hnat, ← BitVec.toInt_sshiftRight, BitVec.ofInt_toInt]
  · cases hv

theorem shift_sal (hv : OpCode.sal.cOperation a.toInt b.toInt = some v) :
    shift (fun a n => a <<< n) a b = .ok (BitVec.ofInt 64 v) := by
  change (if 0 ≤ b.toInt ∧ b.toInt < 64 then some (a.toInt * 2 ^ b.toInt.toNat) else none) = some v at hv
  split at hv
  · rename_i hb
    obtain ⟨hlt, hnat⟩ := toNat_amount hb
    obtain rfl := Option.some.inj hv
    rw [shift, if_pos hlt, hnat, BitVec.shiftLeft_eq_mul_twoPow, BitVec.ofInt_mul, BitVec.ofInt_toInt]
    have hpow : BitVec.ofInt 64 (2 ^ b.toNat) = BitVec.twoPow 64 b.toNat := by
      apply BitVec.eq_of_toNat_eq
      rw [BitVec.toNat_twoPow, ← BitVec.toNat_ofNat, ← BitVec.ofInt_natCast, Nat.cast_pow, Nat.cast_ofNat]
    rw [hpow]
  · cases hv

theorem divide_div (hv : OpCode.div.cOperation a.toInt b.toInt = some v) :
    divide a b = .ok (BitVec.ofInt 64 v) := by
  change (if b.toInt = 0 ∨ a.toInt = -2 ^ 63 ∧ b.toInt = -1 then none else some (a.toInt.tdiv b.toInt)) = some v at hv
  split at hv
  · cases hv
  · rename_i hok
    obtain rfl := Option.some.inj hv
    have hgood : ¬(b = 0 ∨ a = BitVec.intMin 64 ∧ b = -1) := by
      intro hbad
      refine hok (hbad.imp (fun h => ?_) fun h => ?_)
      · rw [h]
        rfl
      · rw [h.1, h.2]
        exact ⟨rfl, rfl⟩
    rw [divide, if_neg hgood]
    refine congrArg _ (BitVec.eq_of_toInt_eq ?_)
    rw [BitVec.toInt_sdiv, BitVec.toInt_ofInt]

theorem apply_returns (hop : instr.op = some opc) (hA : rA.Present vm.ram.size instr.imd.size)
    (hB : rB.Present vm.ram.size instr.modeB.size)
    (hv : opc.cOperation (vm.readAt instr rA instr.imd).toInt (vm.readAt instr rB instr.modeB).toInt = some v) :
    (apply host instr iip rA rB).Returns vm () (vm.writeAt rA (BitVec.ofInt 64 v) instr.imd) := by
  rw [apply, hop]
  cases opc
  case sar => exact binary_returns hA hB (shift_sar hv)
  case sal => exact binary_returns hA hB (shift_sal hv)
  case div => exact binary_returns hA hB (divide_div hv)
  case and | or =>
    obtain rfl := Option.some.inj hv
    refine shortCircuit_returns hA hB ?_
    simp only [← ne_zero_iff_toInt]
    cases vm.readAt instr rA instr.imd != 0 <;> cases vm.readAt instr rB instr.modeB != 0 <;> rfl
  case add =>
    obtain rfl := Option.some.inj hv
    exact binary_returns hA hB (congrArg Except.ok (by rw [BitVec.ofInt_add, BitVec.ofInt_toInt, BitVec.ofInt_toInt]))
  case sub =>
    obtain rfl := Option.some.inj hv
    refine binary_returns hA hB (congrArg Except.ok ?_)
    rw [Int.sub_eq_add_neg, BitVec.ofInt_add, BitVec.ofInt_neg, BitVec.ofInt_toInt, BitVec.ofInt_toInt, BitVec.sub_eq_add_neg]
  case mul =>
    obtain rfl := Option.some.inj hv
    exact binary_returns hA hB (congrArg Except.ok (by rw [BitVec.ofInt_mul, BitVec.ofInt_toInt, BitVec.ofInt_toInt]))
  case xor | bor | band =>
    obtain rfl := Option.some.inj hv
    exact binary_returns hA hB (congrArg Except.ok (by rw [BitVec.ofInt_toInt, BitVec.ofInt_toInt, BitVec.ofInt_toInt]))
  all_goals cases hv

end Operations

end VmM

/-! ### The low bytes of a result -/

section Modular
variable {n : Nat} {opc : OpCode} {v : Int}

theorem setWidth_ofInt (hn : n ≤ 64) (v : Int) : (BitVec.ofInt 64 v).setWidth n = BitVec.ofInt n v := by
  have hdvd : ((2 ^ n : Nat) : Int) ∣ ((2 ^ 64 : Nat) : Int) := Int.natCast_dvd_natCast.mpr (Nat.pow_dvd_pow 2 hn)
  have hpos : 0 ≤ v % ((2 ^ 64 : Nat) : Int) := Int.emod_nonneg _ (by decide)
  apply BitVec.eq_of_toNat_eq
  rw [BitVec.toNat_setWidth, BitVec.toNat_ofInt, BitVec.toNat_ofInt, ← Int.emod_emod_of_dvd v hdvd,
    Int.toNat_emod hpos (Int.natCast_nonneg _), Int.toNat_natCast]

theorem OpCode.modular_of_cOperation {f : BitVec n → BitVec n → BitVec n} {a b : BitVec n} (hn : n ≤ 64)
    (hf : opc.modular = some f) (hv : opc.cOperation a.toInt b.toInt = some v) : BitVec.ofInt n v = f a b := by
  have hext : ∀ x : BitVec n, (BitVec.ofInt 64 x.toInt).setWidth n = x := by
    intro x
    rw [setWidth_ofInt hn, BitVec.ofInt_toInt]
  have hbits : ∀ x : U64, BitVec.ofInt n x.toInt = x.setWidth n := by
    intro x
    rw [← setWidth_ofInt hn, BitVec.ofInt_toInt]
  cases opc
  case add =>
    obtain rfl := Option.some.inj hv
    obtain rfl := Option.some.inj hf
    rw [BitVec.ofInt_add, BitVec.ofInt_toInt, BitVec.ofInt_toInt]
  case sub =>
    obtain rfl := Option.some.inj hv
    obtain rfl := Option.some.inj hf
    rw [Int.sub_eq_add_neg, BitVec.ofInt_add, BitVec.ofInt_neg, BitVec.ofInt_toInt, BitVec.ofInt_toInt]
    exact (BitVec.sub_eq_add_neg a b).symm
  case mul =>
    obtain rfl := Option.some.inj hv
    obtain rfl := Option.some.inj hf
    rw [BitVec.ofInt_mul, BitVec.ofInt_toInt, BitVec.ofInt_toInt]
  case xor =>
    obtain rfl := Option.some.inj hv
    obtain rfl := Option.some.inj hf
    rw [hbits, BitVec.setWidth_xor, hext, hext]
  case bor =>
    obtain rfl := Option.some.inj hv
    obtain rfl := Option.some.inj hf
    rw [hbits, BitVec.setWidth_or, hext, hext]
  case band =>
    obtain rfl := Option.some.inj hv
    obtain rfl := Option.some.inj hf
    rw [hbits, BitVec.setWidth_and, hext, hext]
  all_goals cases hf

end Modular

/-- An operation on two operands leaves the low bytes of what C makes of the operands in the first one. -/
theorem VmM.execute_operator (host : Host) (instr : Instruction) (iip : U64) (vm : Vm) {opc : OpCode} {loc : Location} {m : Mode}
    {b : BitVec (8 * m.size)} {v : Int} (hosz : instr.osz = 3) (hop : instr.op = some opc) (hdst : instr.Destination vm loc)
    (hsrc : instr.Source vm m b) (hv : opc.cOperation (vm.low instr.imd.size loc).toInt b.toInt = some v) :
    ∃ vm', (execute host instr iip).Returns vm () vm' ∧ vm'.low instr.imd.size loc = BitVec.ofInt _ v ∧
      vm.ChangedOnly vm' loc instr.imd.size ∧
      ∀ b' f, instr.Source vm instr.imd b' → opc.modular = some f →
        vm'.low instr.imd.size loc = f (vm.low instr.imd.size loc) b' := by
  obtain ⟨hmode, hB⟩ := hsrc.found hosz
  have hA := hdst.found hosz
  subst hmode
  have hbits := instr.imd.size_bits
  have hsrcInt : (vm.readAt instr (vm.operandB instr).place instr.modeB).toInt = b.toInt := by
    rw [hB.readAt, BitVec.toInt_signExtend_of_le instr.modeB.size_bits]
  have hdstInt : (vm.readAt instr (vm.operandA instr).place instr.imd).toInt = (vm.low instr.imd.size loc).toInt := by
    rw [hA.readAt, BitVec.toInt_signExtend_of_le hbits]
  obtain ⟨hlow, hchanged⟩ := hdst.writeAt (x := BitVec.ofInt 64 v) hosz
  rw [setWidth_ofInt hbits] at hlow
  refine ⟨_, ?_, hlow, hchanged, fun b' f hsrc' hf => ?_⟩
  · refine Prog.returns_bind.mpr ⟨_, vm, (operands_returns (by rw [hosz]; decide)).mpr
      ⟨⟨hA.fits, hA.goesOn⟩, ⟨hB.fits, hB.goesOn⟩, rfl, rfl⟩, ?_⟩
    exact apply_returns hop hA.present hB.present (by rwa [hsrcInt, hdstInt])
  · obtain ⟨hmode', hB'⟩ := hsrc'.found hosz
    have hread : vm.readAt instr (vm.operandB instr).place instr.modeB = b'.signExtend 64 := by
      rw [hmode']
      exact hB'.readAt
    have hb : b'.toInt = b.toInt := by
      rw [← hsrcInt, hread, BitVec.toInt_signExtend_of_le hbits]
    rw [hlow]
    exact OpCode.modular_of_cOperation hbits hf (by rwa [hb])

/-- `sub.b [r1], 1`, where `r1` addresses a zero byte -/
theorem VmM.execute_operator_sub : ∃ vm', (execute ⟨fun _ _ _ vm => .ok () vm⟩
      { osz := 3, opc := 26, ra := 1, iam := true, rmd := .imm, ii := 1 } 0).Returns edgeVm () vm' ∧
    vm'.low 1 (.mem 60) = 0xFF ∧ edgeVm.ChangedOnly vm' (.mem 60) 1 := by
  have hv : OpCode.sub.cOperation (edgeVm.low 1 (.mem 60)).toInt ((1 : U64).setWidth 8).toInt = some (-1) := by decide
  obtain ⟨vm', hr, hlow, hchanged, -⟩ := execute_operator ⟨fun _ _ _ vm => .ok () vm⟩
    { osz := 3, opc := 26, ra := 1, iam := true, rmd := .imm, ii := 1 } 0 edgeVm rfl rfl
    (.mem (r := .r1) rfl rfl (by decide)) (.imm rfl rfl) hv
  exact ⟨vm', hr, hlow, hchanged⟩

end Cyntatic
