import Cyntatic.Theorems.Frames

/-! Whether `ret` copies the results to where they are: the words that it copies from are below `bp`, and those that it
    copies to below the end of the arguments. -/

namespace Cyntatic
open Library

variable {vm a b c d : Vm} {n m k : Nat} {args : List U64}

/-- A callee with `n` arguments, and with `k` words on top of its stack above `m` others. -/
structure Framed (vm : Vm) (n m k : Nat) : Prop where
  nargs_le : n ≤ 255
  nret_le : k ≤ 255
  nargs : vm.ram.word ((vm.reg .bp).toNat + 16) = BitVec.ofNat 64 n
  sp : (vm.reg .sp).toNat + 8 * (k + m) = (vm.reg .bp).toNat
  size_le : (vm.reg .bp).toNat + 24 + 8 * n ≤ vm.ram.size.toNat

/-- A callee that is called, and keeps its frame, is one. -/
theorem Calls.framed (h : Calls a b c args) (body : Body c d) (hk : k ≤ 255)
    (hsp : (d.reg .sp).toNat + 8 * (k + m) = (c.reg .bp).toNat) : Framed d args.length m k := by
  have hsize := Nat.le_trans h.ok.sp_le h.ok.bp_le
  have hf := h.frame.kept body.keepsFrame hsize
  refine ⟨h.nargs_le, hk, hf.nargs, ?_, ?_⟩
  · rw [hsp, body.keepsFrame.bp]
  · rw [hf.bp, hf.size]
    exact hsize

theorem Memory.length_words {ram : Memory} {off k : Nat} : (ram.words off k).length = k := by
  induction k generalizing off with
  | zero => rfl
  | succ k ih => rw [Memory.words, List.length_cons, ih]

namespace VmM
open Prog

/-- Where the results end up overlaps with where they are. -/
theorem pushResults_overlaps (src : U64) (hk : k ≤ 255) (hs : (a.reg .sp).toNat ≤ a.ram.size.toNat)
    (hlt : (a.reg .sp).toNat < src.toNat + 16 * k) (hle : src.toNat + 8 * k ≤ (a.reg .sp).toNat) :
    (pushResults (some (.ram src)) (BitVec.ofNat 32 k)).Ends (fun e => e.IsAbort ∨ e = .overlap) (fun _ _ => False) a := by
  have hlen : (BitVec.ofNat 32 k).toNat = k := by
    rw [BitVec.toNat_ofNat]
    omega
  have hne : BitVec.ofNat 32 k ≠ 0 := by
    intro h
    rw [h] at hlen
    have : (0 : U32).toNat = 0 := rfl
    omega
  have hcount : ((BitVec.ofNat 32 k).setWidth 8 : U8).toNat = k := by
    rw [BitVec.toNat_setWidth, hlen]
    omega
  have hsize : (wordsSize ((BitVec.ofNat 32 k).setWidth 8)).toNat = 8 * k := by rw [toNat_wordsSize, hcount]
  have hsub : (a.reg .sp - wordsSize ((BitVec.ofNat 32 k).setWidth 8)).toNat = (a.reg .sp).toNat - 8 * k := by
    rw [BitVec.toNat_sub, hsize]
    omega
  rw [pushResults, if_pos hne]
  refine ends_bind.mpr (ends_bind_of_returns (returns_get.mpr ⟨rfl, rfl⟩) (ends_bind.mpr ?_))
  refine ends_stopIf (fun _ => .inl ⟨_, _, rfl⟩) fun _ => ?_
  refine ends_bind_of_returns (setReg_returns (u := ()).mpr rfl) (ends_bind.mpr ?_)
  generalize he : a.setReg .sp (a.reg .sp - wordsSize ((BitVec.ofNat 32 k).setWidth 8)) = e
  have hsp : (e.reg .sp).toNat = (a.reg .sp).toNat - 8 * k := by rw [← he, Vm.reg_setReg, hsub]
  have hram : e.ram = a.ram := by rw [← he]; rfl
  have hmem : (mem ((e.reg .sp).setWidth 32)).Returns e (e.reg .sp) e := mem_at (by rw [hram]; omega)
  refine ends_bind_of_returns (getReg_returns.mpr ⟨rfl, rfl⟩) (ends_bind_of_returns hmem ?_)
  refine ends_bind_of_returns (load_returns.mpr ⟨by rw [hram]; omega, rfl, rfl⟩) ?_
  have hoverlap : overlaps (e.reg .sp) src (wordsSize ((BitVec.ofNat 32 k).setWidth 8)).toNat = true := by
    simp only [overlaps, Bool.and_eq_true, decide_eq_true_eq, hsize, hsp]
    omega
  exact ends_bind.mpr (ends_stopIf (fun _ => .inr rfl) fun hno => absurd hoverlap hno)

/-- A `ret` comes to the pushes of the results, at the end of the arguments. -/
theorem ret_reaches (hf : Framed vm n m k) {host : Host} {instr : Instruction} {iip v : U64} {rA rB : Place}
    (hop : instr.op = some .ret) (hops : (operands instr).Returns vm (rA, rB) vm)
    (hread : (read instr rA instr.modeB).Returns vm v vm) (hv : v.setWidth 32 = BitVec.ofNat 32 k) :
    ∃ e : Vm, e.ram = vm.ram ∧ (e.reg .sp).toNat = (vm.reg .bp).toNat + 24 + 8 * n ∧
      ∀ {E : Stop → Prop} {Q : Unit → Vm → Prop},
        (do pushResults (if k = 0 then none else some (.ram (vm.reg .sp))) (BitVec.ofNat 32 k)
            push (pure ((BitVec.ofNat 32 k).setWidth 64))).Ends E Q e →
          (execute host instr iip).Ends E Q vm := by
  have hsp := hf.sp
  have hle := hf.size_le
  obtain ⟨sp, hpop⟩ := popResults_framed hf.nret_le (show (vm.reg .sp).toNat + 8 * k ≤ vm.ram.size.toNat by omega)
  have hbp : (vm.setReg .sp sp).reg .bp = vm.reg .bp := Vm.reg_setReg_of_ne _ _ (by decide)
  have hnargs : (vm.setReg .sp sp).ram.word (((vm.setReg .sp sp).reg .bp).toNat + 16) = BitVec.ofNat 64 n := by
    rw [hbp]
    exact hf.nargs
  obtain ⟨e, hram, hesp, -, -, hrest⟩ := leave_reaches (if k = 0 then none else some (.ram (vm.reg .sp)))
    (BitVec.ofNat 32 k) hf.nargs_le hnargs (by rw [hbp]; exact hle)
  rw [hbp] at hesp
  refine ⟨e, hram, hesp, fun {E Q} hends => ends_bind_of_returns hops ?_⟩
  simp only [apply, hop, ret]
  refine ends_bind_of_returns hread ?_
  rw [hv]
  exact ends_bind_of_returns hpop (hrest hends)

/-- The results are copied, and their number is pushed, where they were far enough below. -/
theorem pushes_end (src : U64) (hk : k ≤ 255) (hs : (a.reg .sp).toNat ≤ a.ram.size.toNat) (h8 : 8 < (a.reg .sp).toNat - 8 * k)
    (hle : src.toNat + 16 * k ≤ (a.reg .sp).toNat) :
    (do pushResults (if k = 0 then none else some (.ram src)) (BitVec.ofNat 32 k)
        push (pure ((BitVec.ofNat 32 k).setWidth 64))).Ends Stop.IsAbort (fun _ _ => True) a := by
  have hlen : (a.ram.words src.toNat k).length = k := Memory.length_words
  have hdata : (a.ram.words src.toNat k).length ≠ 0 → ∃ d, (if k = 0 then none else some (Data.ram src)) = some d ∧
      d.Holds a.ram src.toNat (a.ram.words src.toNat k) := by
    intro hne
    rw [hlen] at hne
    exact ⟨.ram src, if_neg hne, rfl, by rw [hlen]⟩
  have hpush := pushResults_ends src.toNat (by rwa [hlen]) hdata hs (by rwa [hlen])
  rw [hlen] at hpush
  refine ends_bind.mpr (hpush.mono fun _ f hgrows => ?_)
  have hsp := hgrows.1.sp
  have hsize := hgrows.1.size
  exact (push_ends (by omega) (by rw [hsize]; omega)).mono fun _ _ _ => trivial

end VmM

open Prog VmM in
/-- A return that does not abort copies between regions that are apart just when it has at most three results more than
    there are arguments and other words in its frame. -/
theorem ret_copies_apart (hf : Framed vm n m k) {host : Host} {instr : Instruction} {iip v : U64} {rA rB : Place}
    (hop : instr.op = some .ret) (hops : (VmM.operands instr).Returns vm (rA, rB) vm)
    (hread : (VmM.read instr rA instr.modeB).Returns vm v vm) (hv : v.setWidth 32 = BitVec.ofNat 32 k)
    (hok : (VmM.execute host instr iip).Ends (fun e => ¬e.IsAbort) (fun _ _ => True) vm) :
    (VmM.execute host instr iip).Ends (· ≠ .overlap) (fun _ _ => True) vm ↔ k ≤ n + m + 3 := by
  have hk := hf.nret_le
  have hsp := hf.sp
  have hle := hf.size_le
  obtain ⟨e, hram, hesp, hrest⟩ := ret_reaches hf hop hops hread hv
  have hs : (e.reg .sp).toNat ≤ e.ram.size.toNat := by
    rw [hesp, hram]
    exact hle
  constructor
  · intro happart
    by_contra hmany
    have hne : k ≠ 0 := by omega
    rw [if_neg hne] at hrest
    have hover : (execute host instr iip).Ends (fun e => e.IsAbort ∨ e = .overlap) (fun _ _ => False) vm :=
      hrest (ends_bind.mpr
        ((pushResults_overlaps (vm.reg .sp) hk hs (by omega) (by omega)).mono fun _ _ h => h.elim))
    refine Ends.elim (((hover.and hok).and happart).imp (fun x hx => ?_) fun _ _ h => h.1.1)
    rcases hx.1.1 with habort | hoverlap
    · exact hx.1.2 habort
    · exact hx.2 hoverlap
  · intro hfew
    refine (hrest (pushes_end (vm.reg .sp) hk hs ?_ (by omega))).imp (fun x hx => ?_) fun _ _ h => h
    · omega
    · rintro rfl
      obtain ⟨fmt, as, h⟩ := hx
      cases h

/-- A callee with one argument returns one result. -/
theorem ret_copies_apart_one :
    (VmM.execute .idle { osz := 2, opc := 2, rmd := .imm, ims := .byte, ii := 1 } 20).Ends (· ≠ .overlap) (fun _ _ => True)
      (calleeVm.pushed 42) := by
  have hf : Framed (calleeVm.pushed 42) 1 0 1 := ⟨by decide, by decide, by decide +kernel, by decide +kernel, by decide +kernel⟩
  obtain ⟨_, _, hret, -⟩ := Prog.exists_of_passes
    (m := VmM.execute .idle { osz := 2, opc := 2, rmd := .imm, ims := .byte, ii := 1 } 20) (s := calleeVm.pushed 42)
    (p := fun _ _ => true) (by decide +kernel)
  exact (@ret_copies_apart _ 1 0 1 hf .idle { osz := 2, opc := 2, rmd := .imm, ims := .byte, ii := 1 } 20 1 .imm .null rfl
    rfl rfl rfl (Prog.ends_of_returns hret trivial)).mpr (by decide)

/-- A callee without arguments that pushes four results. -/
def fourResultsVm : Vm :=
  ((((((emptyStackVm.pushed 0).entered.setReg .ip 16).pushed 1).pushed 2).pushed 3).pushed 4)

/-- The words that a return of four results copies from and to have one in common. -/
theorem results_overlap : Framed fourResultsVm 0 0 4 ∧
    (VmM.execute .idle { osz := 2, opc := 2, rmd := .imm, ims := .byte, ii := 4 } 20).Ends (· = .overlap) (fun _ _ => False)
      fourResultsVm := by
  have hf : Framed fourResultsVm 0 0 4 := ⟨by decide, by decide, by decide +kernel, by decide +kernel, by decide +kernel⟩
  exact ⟨hf, (rfl : Stop.overlap = .overlap)⟩

end Cyntatic
