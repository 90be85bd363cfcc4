import Cyntatic.Compiler.Asm
import Cyntatic.Compiler.Mnemonics
import Cyntatic.Theorems.Idents

/-! # The lookup of mnemonics is exact

The tree is built with `strcasecmp` and searched with `RbTree_strncasecmp`. On the mnemonics, which are in lower case,
both are the order of the strings in upper case. -/

namespace Cyntatic
open Library
open RbTreeBase (case2Color)

/-! ### Comparison -/

/-- The bytes of a string in upper case, as signed numbers. -/
def upperOf (bs : List U8) : List Int := (bs.map toUpper).map BitVec.toInt

theorem upperOf_inj {bs cs : List U8} : upperOf bs = upperOf cs ↔ bs.map toUpper = cs.map toUpper :=
  (List.map_injective_iff.mpr fun _ _ h => BitVec.toInt_inj.mp h).eq_iff

theorem toInt_toUpper (b : U8) : (toUpper b).toInt = toupper b.toInt := by
  rw [toUpper, toupper]
  by_cases h : 97 ≤ b ∧ b ≤ 122
  · have hint : b.toInt = b.toNat := BitVec.toInt_eq_toNat_of_lt (by bv_omega)
    have hint' : (b - 32).toInt = (b - 32).toNat := BitVec.toInt_eq_toNat_of_lt (by bv_omega)
    rw [if_pos h, hint, hint', if_pos (by bv_omega)]
    bv_omega
  · rw [if_neg h, if_neg]
    rintro ⟨hlow, hhigh⟩
    have hcond := BitVec.toInt_eq_toNat_cond b
    split at hcond
    · exact h (by bv_omega)
    · omega

theorem upperOf_eq (bs : List U8) : upperOf bs = bs.map fun b => toupper b.toInt := by
  rw [upperOf, List.map_map]
  exact List.map_congr_left fun b _ => toInt_toUpper b

section
variable {mem : CharMemory} {s1 s2 : Ptr} {bs cs : List U8}

theorem strncasecmp_eq {upper : Int → Int} (h1 : BytesAt mem s1 bs) (h2 : CString mem s2 cs) :
    rbTreeStrncasecmp upper mem s1 bs.length s2 = lexCompare (fun b => upper b.toInt) bs cs := by
  induction bs generalizing s1 s2 cs with
  | nil =>
    cases cs with
    | nil => exact if_pos h2.2.1
    | cons c cs =>
      obtain ⟨hp, hc, -⟩ := h2.cons
      exact if_neg (hp ▸ hc)
  | cons b bs ih =>
    obtain ⟨h1b, h1bs⟩ := h1
    cases cs with
    | nil =>
      rw [List.length_cons, rbTreeStrncasecmp, if_pos h2.2.1]
      rfl
    | cons c cs =>
      obtain ⟨hp, hc, hrest⟩ := h2.cons
      rw [List.length_cons, rbTreeStrncasecmp, if_neg (hp ▸ hc), h1b, hp, lexCompare, ih h1bs hrest]

theorem strncasecmp_sign (h1 : BytesAt mem s1 bs) (h2 : CString mem s2 cs) :
    (rbTreeStrncasecmp toupper mem s1 bs.length s2 < 0 ↔ upperOf bs < upperOf cs) ∧
      (0 < rbTreeStrncasecmp toupper mem s1 bs.length s2 ↔ upperOf cs < upperOf bs) := by
  rw [strncasecmp_eq h1 h2, upperOf_eq, upperOf_eq]
  exact ⟨lexCompare_neg, lexCompare_pos⟩

theorem toLower_ne_zero {b : U8} (h : b ≠ 0) : toLower b ≠ 0 := by
  rw [toLower]
  split
  · bv_omega
  · exact h

theorem strcasecmp_eq {n : Nat} (h1 : CString mem s1 bs) (h2 : CString mem s2 cs) (hn : bs.length < n) :
    (strcasecmp mem s1 s2 n).sign = (lexCompare (fun b => ((toLower b).toNat : Int)) bs cs).sign := by
  have hpos {c : U8} (hc : c ≠ 0) : 0 < (toLower c).toNat :=
    Nat.pos_of_ne_zero fun h => toLower_ne_zero hc (BitVec.eq_of_toNat_eq h)
  induction bs generalizing s1 s2 cs n with
  | nil =>
    obtain ⟨n, rfl⟩ : ∃ m, n = m + 1 := ⟨n - 1, by omega⟩
    have hp : mem s1 = 0 := h1.2.1
    cases cs with
    | nil =>
      have hp' : mem s2 = 0 := h2.2.1
      rw [strcasecmp, hp, hp', if_neg (not_not.mpr rfl), if_pos rfl]
      rfl
    | cons c cs =>
      obtain ⟨hp', hc0, -⟩ := h2.cons
      rw [strcasecmp, hp, hp', show toLower 0 = 0 from rfl, if_pos (Ne.symm (toLower_ne_zero hc0))]
      exact Int.sign_eq_neg_one_of_neg (by have := hpos hc0; simpa using this)
  | cons b bs ih =>
    obtain ⟨n, rfl⟩ : ∃ m, n = m + 1 := ⟨n - 1, by omega⟩
    obtain ⟨hp, hb0, hrest⟩ := h1.cons
    cases cs with
    | nil =>
      have hp' : mem s2 = 0 := h2.2.1
      rw [strcasecmp, hp, hp', show toLower 0 = 0 from rfl, if_pos (toLower_ne_zero hb0)]
      exact Int.sign_eq_one_of_pos (by have := hpos hb0; simpa using this)
    | cons c cs =>
      obtain ⟨hp', -, hrest'⟩ := h2.cons
      rw [strcasecmp, hp, hp', if_neg hb0, lexCompare]
      by_cases hbc : toLower b = toLower c
      · rw [if_neg (not_not.mpr hbc), if_neg (not_not.mpr (by rw [hbc]))]
        exact ih hrest hrest' (Nat.lt_of_succ_lt_succ hn)
      · rw [if_pos hbc, if_pos fun heq => hbc (BitVec.eq_of_toNat_eq (Int.natCast_inj.mp heq))]

/-- A string of letters in lower case. -/
def Lowercase (bs : List U8) : Prop := ∀ b ∈ bs, 97 ≤ b ∧ b ≤ 122

theorem toLower_lowercase {b : U8} (h : 97 ≤ b ∧ b ≤ 122) : toLower b = b := by
  rw [toLower, if_neg]
  bv_omega

theorem toupper_lowercase {b : U8} (h : 97 ≤ b ∧ b ≤ 122) : toupper b.toInt = (b.toNat : Int) - 32 := by
  have hint : b.toInt = b.toNat := BitVec.toInt_eq_toNat_of_lt (by bv_omega)
  rw [hint, toupper, if_pos]
  bv_omega

theorem strcasecmp_sign {n : Nat} (h1 : CString mem s1 bs) (h2 : CString mem s2 cs) (hb : Lowercase bs)
    (hc : Lowercase cs) (hn : bs.length < n) : strcasecmp mem s1 s2 n < 0 ↔ upperOf bs < upperOf cs := by
  have hdiff {b c : U8} (hmem : b ∈ bs) (hmem' : c ∈ cs) :
      toupper b.toInt - toupper c.toInt = ((toLower b).toNat : Int) - (toLower c).toNat := by
    rw [toupper_lowercase (hb b hmem), toupper_lowercase (hc c hmem'), toLower_lowercase (hb b hmem),
      toLower_lowercase (hc c hmem')]
    omega
  have hsign : (lexCompare (fun b => toupper b.toInt) bs cs).sign = (lexCompare (fun b => ((toLower b).toNat : Int)) bs cs).sign := by
    refine sign_lexCompare_congr (fun b hmem c hmem' heq => ?_) fun b c hbc => ?_
    · have := hdiff hmem hmem'
      omega
    · obtain ⟨hmem, hmem', -⟩ := firstDifference_spec hbc
      rw [hdiff hmem hmem']
  rw [← Int.sign_neg_iff, strcasecmp_eq h1 h2 hn, ← hsign, Int.sign_neg_iff, lexCompare_neg, upperOf_eq, upperOf_eq]

end

namespace OpCodeNames

/-! ### The tree -/

abbrev Entry := OpCode × List Char × Nat

/-- The mnemonic of an entry in upper case. -/
def keyOf (entry : Entry) : List Int := upperOf (ascii entry.2.1)

theorem lowercase_table : ∀ entry ∈ OpCode.table, Lowercase (ascii entry.2.1) := by
  have hall : ∀ entry ∈ OpCode.table, (ascii entry.2.1).all (fun b => 97 ≤ b ∧ b ≤ 122) = true := by decide
  intro entry hentry b hb
  exact of_decide_eq_true (List.all_eq_true.mp (hall entry hentry) b hb)

theorem nodup_table : (OpCode.table.map keyOf).Nodup := by decide

/-- The string literals of the mnemonics. -/
def Literals (mem : CharMemory) (name : OpCode → Ptr) : Prop :=
  ∀ entry ∈ OpCode.table, CString mem (name entry.1) (ascii entry.2.1)

/-- The tree of some entries, with the key of each node. -/
structure Holds (node name : OpCode → Ptr) (entries : List Entry) (list : RbTreeBase VmOpCodeNamePair)
    (t : ColorTree Ptr) (key : Ptr → List Int) : Prop where
  tree : list.Tree t
  nodes : t.toList.Perm (entries.map fun entry => node entry.1)
  data : ∀ entry ∈ entries, list.data (node entry.1) = pairOf name entry
  keys : ∀ entry ∈ entries, key (node entry.1) = keyOf entry
  sorted : t.toList.Pairwise fun p q => key p < key q

variable {node name : OpCode → Ptr} {entries rest : List Entry} {list : RbTreeBase VmOpCodeNamePair}
  {t : ColorTree Ptr} {key : Ptr → List Int} {mem : CharMemory} {entry : Entry}

theorem Holds.setCompare {compare : VmOpCodeNamePair → BitVec 32 → VmOpCodeNamePair → Int}
    (h : Holds node name entries list t key) : Holds node name entries { list with compare } t key :=
  ⟨h.tree.setCompare, h.nodes, h.data, h.keys, h.sorted⟩

theorem Holds.exists_entry (h : Holds node name entries list t key) {p : Ptr} (hp : p ∈ t.toList) :
    ∃ entry ∈ entries, p = node entry.1 ∧ list.data p = pairOf name entry ∧ key p = keyOf entry := by
  obtain ⟨entry, hmem, rfl⟩ := List.mem_map.mp (h.nodes.mem_iff.mp hp)
  exact ⟨entry, hmem, rfl, h.data entry hmem, h.keys entry hmem⟩

theorem Holds.node_mem (h : Holds node name entries list t key) (hmem : entry ∈ entries) : node entry.1 ∈ t.toList :=
  h.nodes.mem_iff.mpr (List.mem_map.mpr ⟨entry, hmem, rfl⟩)

/-- On the mnemonics, the comparison for an insertion is that of the keys. -/
theorem cmp_entry (hlit : Literals mem name) {e f : Entry} (he : e ∈ OpCode.table) (hf : f ∈ OpCode.table) :
    VmOpCodeNamePair.cmp mem (pairOf name e) 0 (pairOf name f) < 0 ↔ keyOf e < keyOf f := by
  rw [VmOpCodeNamePair.cmp, rbTreeCaseCmpString, if_pos rfl]
  refine strcasecmp_sign (hlit e he) (hlit f hf) (lowercase_table e he) (lowercase_table f hf) ?_
  have hshort : ∀ e ∈ OpCode.table, (ascii e.2.1).length < 8 := by decide
  exact (hshort e he).trans (by decide)

/-- A new entry. -/
theorem Holds.add (h : Holds node name entries list t key) (hcompare : list.compare = VmOpCodeNamePair.cmp mem)
    (hlit : Literals mem name) (htable : ∀ e ∈ entry :: entries, e ∈ OpCode.table)
    (hnode : Nodes (node entry.1 :: entries.map fun e => node e.1)) (hkey : ∀ e ∈ entries, keyOf e ≠ keyOf entry) :
    ∃ list' t' key', Yields (list.add (node entry.1) (pairOf name entry) 0) (list', node entry.1) ∧
      list'.compare = list.compare ∧
      Holds node name (entry :: entries) (list'.setData (node entry.1) (pairOf name entry)) t' key' := by
  have hnode' : Nodes (node entry.1 :: t.toList) := hnode.perm (h.nodes.symm.cons _)
  have hfresh := (List.nodup_cons.mp hnode'.nodup).1
  obtain ⟨list', hrun, hdata, hcompare', htree⟩ :=
    @RbTreeBase.add_yields _ _ (pairOf name entry) 0 _ _ h.tree hnode'
  have hother {e : Entry} (he : e ∈ entries) : node e.1 ≠ node entry.1 := fun heq => hfresh (heq ▸ h.node_mem he)
  have hlt : ∀ p ∈ t.toList, list.goesLeft (pairOf name entry) 0 p = true ↔ keyOf entry < key p := by
    intro p hp
    obtain ⟨e, he, -, hpair, hkeyp⟩ := h.exists_entry hp
    rw [RbTreeBase.goesLeft, decide_eq_true_iff, hcompare, hpair, hkeyp]
    exact cmp_entry hlit (htable _ List.mem_cons_self) (htable e (List.mem_cons_of_mem _ he))
  have hnew : ∀ p ∈ t.toList, key p ≠ keyOf entry := by
    intro p hp
    obtain ⟨e, he, -, -, hkeyp⟩ := h.exists_entry hp
    exact hkeyp ▸ hkey e he
  refine ⟨list', _, Function.update key (node entry.1) (keyOf entry), hrun, hcompare', htree.setData, ?_, ?_, ?_,
    pairwise_insert h.sorted hlt hnew hfresh⟩
  · exact (RbTreeBase.perm_insert ..).trans (h.nodes.cons _)
  · intro e he
    change Function.update list'.data _ _ _ = _
    rw [hdata]
    rcases List.mem_cons.mp he with rfl | he
    · exact Function.update_self ..
    · rw [Function.update_of_ne (hother he)]
      exact h.data e he
  · intro e he
    rcases List.mem_cons.mp he with rfl | he
    · exact Function.update_self ..
    · rw [Function.update_of_ne (hother he)]
      exact h.keys e he

theorem Holds.addPairs (h : Holds node name entries list t key) (hcompare : list.compare = VmOpCodeNamePair.cmp mem)
    (hlit : Literals mem name) (htable : ∀ e ∈ rest ++ entries, e ∈ OpCode.table)
    (hnodes : Nodes ((rest ++ entries).map fun e => node e.1)) (hkeys : ((rest ++ entries).map keyOf).Nodup) :
    ∃ list' t' key', Yields (fun n => OpCodeNames.addPairs node name n rest list) list' ∧
      ∃ all, all.Perm (rest ++ entries) ∧ Holds node name all list' t' key' := by
  induction rest generalizing list entries t key with
  | nil => exact ⟨list, t, key, yields_of_eq fun _ => rfl, entries, .refl _, h⟩
  | cons entry rest ih =>
    have hperm : (rest ++ entry :: entries).Perm (entry :: rest ++ entries) := List.perm_middle
    have hsub : (entry :: entries).Sublist (entry :: rest ++ entries) := (List.sublist_append_right rest entries).cons_cons entry
    obtain ⟨list₁, t₁, key₁, hrun₁, hcompare₁, h₁⟩ := h.add hcompare hlit (fun e he => htable e (hsub.subset he))
      (hnodes.sublist (hsub.map fun e : Entry => node e.1)) fun e he heq => by
        have hnodup := hkeys.sublist (hsub.map keyOf)
        exact (List.nodup_cons.mp hnodup).1 (List.mem_map.mpr ⟨e, he, heq⟩)
    obtain ⟨list', t', key', hrun, all, hall, h'⟩ := ih h₁ (hcompare₁.trans hcompare)
      (fun e he => htable e (hperm.mem_iff.mp he)) (hnodes.perm (hperm.symm.map _)) ((hperm.map keyOf).nodup_iff.mpr hkeys)
    exact ⟨list', t', key', hrun₁.bind hrun, all, hall.trans hperm, h'⟩

theorem Holds.perm {entries' : List Entry} (h : Holds node name entries list t key) (hperm : entries.Perm entries') :
    Holds node name entries' list t key :=
  ⟨h.tree, h.nodes.trans (hperm.map _), fun e he => h.data e (hperm.mem_iff.mpr he),
    fun e he => h.keys e (hperm.mem_iff.mpr he), h.sorted⟩

/-! ### Lookup -/

/-- A lookup for a mnemonic comes to its node, and any other lookup comes to `NULL`. -/
theorem Holds.find (h : Holds node name OpCode.table list t key) (hlit : Literals mem name) {instr : Ptr}
    {len : BitVec 32} {word : List U8} (hword : BytesAt mem instr word) (hlen : word.length = len.toNat)
    (hne : word ≠ []) {info : OpCodeInfo} :
    ∃ p, Yields ({ list with compare := VmOpCodeNamePair.cmp mem }.find ⟨instr, info⟩ len) p ∧
      ((∃ entry ∈ OpCode.table, keyOf entry = upperOf word ∧ p = node entry.1) ∨
        (p = 0 ∧ ∀ entry ∈ OpCode.table, keyOf entry ≠ upperOf word)) := by
  let list₀ := { list with compare := VmOpCodeNamePair.cmp mem }
  have h₀ : Holds node name OpCode.table list₀ t key := h.setCompare
  have hlen0 : len ≠ 0 := by
    rintro rfl
    exact hne (List.length_eq_zero_iff.mp hlen)
  have hsign {p : Ptr} (hp : p ∈ t.toList) :
      (list₀.compare ⟨instr, info⟩ len (list₀.data p) < 0 ↔ upperOf word < key p) ∧
        (0 < list₀.compare ⟨instr, info⟩ len (list₀.data p) ↔ key p < upperOf word) := by
    obtain ⟨entry, hmem, -, hpair, hkey⟩ := h₀.exists_entry hp
    change (VmOpCodeNamePair.cmp mem _ _ _ < 0 ↔ _) ∧ (0 < VmOpCodeNamePair.cmp mem _ _ _ ↔ _)
    rw [hpair, hkey, VmOpCodeNamePair.cmp, rbTreeCaseCmpString, if_neg hlen0, ← hlen]
    exact strncasecmp_sign hword (hlit entry hmem)
  have hzero {p : Ptr} (hp : p ∈ t.toList) :
      list₀.compare ⟨instr, info⟩ len (list₀.data p) = 0 ↔ key p = upperOf word := by
    obtain ⟨hneg, hpos⟩ := hsign hp
    constructor
    · intro heq
      refine le_antisymm (not_lt.mp fun hlt => ?_) (not_lt.mp fun hlt => ?_)
      · have := hneg.mpr hlt
        omega
      · have := hpos.mpr hlt
        omega
    · intro heq
      rw [heq] at hneg hpos
      have hnotneg := hneg.not.mpr (lt_irrefl _)
      have hnotpos := hpos.not.mpr (lt_irrefl _)
      omega
  have hfind := @RbTreeBase.findFrom_yields _ list₀ ⟨instr, info⟩ len _ _ h₀.tree.nodes h₀.tree.holds.2
  rw [← h₀.tree.holds.1] at hfind
  refine ⟨_, hfind, ?_⟩
  cases hs : t.search fun p => list₀.compare ⟨instr, info⟩ len (list₀.data p) with
  | some p =>
    obtain ⟨hp, heq⟩ := mem_of_search hs
    obtain ⟨entry, hmem, hnode, -, hkey⟩ := h₀.exists_entry hp
    exact .inl ⟨entry, hmem, hkey ▸ (hzero hp).mp heq, hnode⟩
  | none =>
    refine .inr ⟨rfl, fun entry hmem heq => ?_⟩
    have hp := h₀.node_mem hmem
    refine ne_zero_of_search (h.sorted.imp_of_mem fun hp hq hpq => ?_) hs _ hp ((hzero hp).mpr ?_)
    · obtain ⟨hneg, hpos⟩ := hsign hp
      obtain ⟨hneg', hpos'⟩ := hsign hq
      exact ⟨fun hlt => hneg'.mpr ((hneg.mp hlt).trans hpq), fun hlt => hpos.mpr (hpq.trans (hpos'.mp hlt))⟩
    · rw [h₀.keys entry hmem, heq]

/-! ### Runs -/

/-- When the list is marked as initialised, it is the tree of the whole of `VM_OP_CODES`. -/
def Ready (node name : OpCode → Ptr) (s : OpCodeNames) : Prop :=
  s.initialized = true → ∃ t key, Holds node name OpCode.table s.list t key

theorem initCodeNamePairs_yields {s : OpCodeNames} (hready : Ready node name s)
    (hnodes : Nodes (OpCode.table.map fun entry => node entry.1)) (hlit : Literals mem name) :
    ∃ s', Yields (s.initCodeNamePairs mem node name) s' ∧ s'.initialized = true ∧ Ready node name s' := by
  cases hinit : s.initialized with
  | true =>
    refine ⟨s, yields_of_eq fun n => ?_, hinit, hready⟩
    rw [initCodeNamePairs, hinit]
    rfl
  | false =>
    have hempty : Holds node name [] { s.list with root := 0, compare := VmOpCodeNamePair.cmp mem } .nil fun _ => [] :=
      ⟨RbTreeBase.empty_tree rfl, .refl _, by simp, by simp, .nil⟩
    obtain ⟨list, t, key, hrun, all, hall, h⟩ := @Holds.addPairs _ _ _ OpCode.table _ _ _ _ hempty rfl hlit
      (by simp) (by simpa using hnodes) (by simpa using nodup_table)
    rw [List.append_nil] at hall
    refine ⟨⟨list, true⟩, (hrun.map fun list => (⟨list, true⟩ : OpCodeNames)).congr fun n => ?_, rfl, fun _ => ⟨t, key, h.perm hall⟩⟩
    rw [initCodeNamePairs, if_pos hinit]
    cases OpCodeNames.addPairs node name n OpCode.table _ <;> rfl

/-- Whatever a call is for, it keeps the list. -/
theorem getOpcodeForInstr_ready {s s' : OpCodeNames} (hready : Ready node name s)
    (hnodes : Nodes (OpCode.table.map fun entry => node entry.1)) (hlit : Literals mem name) {instr : Ptr}
    {len : BitVec 32} {info : OpCodeInfo} (hcall : Yields (s.getOpcodeForInstr mem node name instr len) (s', info)) :
    Ready node name s' := by
  obtain ⟨s₁, hinit, -, hready₁⟩ := initCodeNamePairs_yields hready hnodes hlit
  obtain ⟨n, hn⟩ := hcall.exists_some
  obtain ⟨s₂, hs₂, hfind⟩ := Option.bind_eq_some_iff.mp hn
  obtain rfl := hinit.eq_of_some hs₂
  obtain ⟨it, -, hit⟩ := Option.bind_eq_some_iff.mp hfind
  split at hit
  · obtain ⟨rfl, -⟩ := Prod.mk.inj (Option.some.inj hit)
    exact hready₁
  · obtain ⟨rfl, -⟩ := Prod.mk.inj (Option.some.inj hit)
    exact hready₁

theorem keyOf_inj {e f : Entry} (he : e ∈ OpCode.table) (hf : f ∈ OpCode.table) (heq : keyOf e = keyOf f) : e = f :=
  List.inj_on_of_nodup_map nodup_table he hf heq

/-- A call comes to the op code of the entry with the mnemonic, or to `opcCOUNT`. -/
theorem getOpcodeForInstr_yields {s : OpCodeNames} (hready : Ready node name s)
    (hnodes : Nodes (OpCode.table.map fun entry => node entry.1)) (hlit : Literals mem name) {instr : Ptr}
    {len : BitVec 32} {word : List U8} (hword : BytesAt mem instr word) (hlen : word.length = len.toNat)
    (hne : word ≠ []) :
    ∃ s' info, Yields (s.getOpcodeForInstr mem node name instr len) (s', info) ∧
      ((∃ entry ∈ OpCode.table, keyOf entry = upperOf word ∧ info = ⟨some entry.1, entry.2.2⟩) ∨
        (info = ⟨none, 0⟩ ∧ ∀ entry ∈ OpCode.table, keyOf entry ≠ upperOf word)) := by
  obtain ⟨s', hinit, hinitialized, hready'⟩ := initCodeNamePairs_yields hready hnodes hlit
  obtain ⟨t, key, h⟩ := hready' hinitialized
  obtain ⟨p, hfind, hp⟩ := @Holds.find _ _ _ _ _ _ h hlit _ _ _ hword hlen hne ⟨some .halt, 0⟩
  have hrun := hinit.bind (h := fun s n => ({ s.list with compare := VmOpCodeNamePair.cmp mem }.find
    ⟨instr, ⟨some .halt, 0⟩⟩ len n).map fun it => (s, if it = 0 then (⟨none, 0⟩ : OpCodeInfo) else (s.list.data it).s))
    (hfind.map fun it => (s', if it = 0 then (⟨none, 0⟩ : OpCodeInfo) else (s'.list.data it).s))
  refine ⟨s', _, hrun.congr fun n => ?_, ?_⟩
  · rw [getOpcodeForInstr]
    cases s.initCodeNamePairs mem node name n with
    | none => rfl
    | some s₁ =>
      simp only [Option.bind_eq_bind, Option.bind_some]
      cases { s₁.list with compare := VmOpCodeNamePair.cmp mem }.find ⟨instr, ⟨some .halt, 0⟩⟩ len n with
      | none => rfl
      | some it =>
        rw [Option.bind_some, Option.map_some]
        split <;> rfl
  · rcases hp with ⟨entry, hmem, hkey, rfl⟩ | ⟨rfl, hnone⟩
    · have hnonzero : node entry.1 ≠ 0 := hnodes.nonzero _ (List.mem_map.mpr ⟨entry, hmem, rfl⟩)
      refine .inl ⟨entry, hmem, hkey, ?_⟩
      rw [if_neg hnonzero, h.data entry hmem]
      rfl
    · exact .inr ⟨if_pos rfl, hnone⟩

/-- The states before a call: the first one, and those that calls leave. -/
inductive Reaches (node name : OpCode → Ptr) : OpCodeNames → Prop
  | start {s : OpCodeNames} (h : s.initialized = false) : Reaches node name s
  | call {s s' : OpCodeNames} {mem : CharMemory} {instr : Ptr} {len : BitVec 32} {info : OpCodeInfo}
      (h : Reaches node name s) (hlit : Literals mem name)
      (hcall : Yields (s.getOpcodeForInstr mem node name instr len) (s', info)) : Reaches node name s'

theorem Reaches.ready {s : OpCodeNames} (h : Reaches node name s)
    (hnodes : Nodes (OpCode.table.map fun entry => node entry.1)) : Ready node name s := by
  induction h with
  | start h => exact fun h' => absurd (h.symm.trans h') (by simp)
  | call h hlit hcall ih => exact getOpcodeForInstr_ready ih hnodes hlit hcall

theorem lookup?_of_mem {word : List U8} (hmem : entry ∈ OpCode.table) (hkey : keyOf entry = upperOf word) :
    OpCode.lookup? word = some (entry.1, entry.2.2) := by
  rw [OpCode.lookup?]
  generalize hfind : OpCode.table.find? _ = result
  cases result with
  | none => exact absurd (decide_eq_true (upperOf_inj.mp hkey)) (List.find?_eq_none.mp hfind entry hmem)
  | some found =>
    have hsame := List.find?_some hfind
    have hfound : keyOf found = upperOf word := upperOf_inj.mpr (of_decide_eq_true hsame)
    rw [keyOf_inj (List.mem_of_find?_eq_some hfind) hmem (hfound.trans hkey.symm)]
    rfl

theorem lookup?_of_notMem {word : List U8} (h : ∀ entry ∈ OpCode.table, keyOf entry ≠ upperOf word) :
    OpCode.lookup? word = none := by
  rw [OpCode.lookup?, List.find?_eq_none.mpr, Option.map_none]
  intro entry hmem heq
  exact h entry hmem (upperOf_inj.mpr (of_decide_eq_true heq))

/-- The assembler's table of mnemonics is what the lookup gives. -/
theorem getOpcodeForInstr_lookup? {s : OpCodeNames} (h : Reaches node name s)
    (hnodes : Nodes (OpCode.table.map fun entry => node entry.1)) (hlit : Literals mem name) {instr : Ptr}
    {len : BitVec 32} {word : List U8} (hword : BytesAt mem instr word) (hlen : word.length = len.toNat)
    (hne : word ≠ []) : ∃ s', Yields (s.getOpcodeForInstr mem node name instr len)
      (s', (OpCode.lookup? word).elim ⟨none, 0⟩ fun opc => ⟨some opc.1, opc.2⟩) := by
  obtain ⟨s', info, hrun, hinfo⟩ := getOpcodeForInstr_yields (h.ready hnodes) hnodes hlit hword hlen hne
  refine ⟨s', ?_⟩
  rcases hinfo with ⟨entry, hmem, hkey, rfl⟩ | ⟨rfl, hnone⟩
  · rwa [lookup?_of_mem hmem hkey]
  · rwa [lookup?_of_notMem hnone]

/-- A lookup for a mnemonic, in letters of either case, gives its op code and the number of its arguments, and any
    other lookup gives `opcCOUNT`. -/
theorem getOpcodeForInstr_exact {s : OpCodeNames} (h : Reaches node name s)
    (hnodes : Nodes (OpCode.table.map fun entry => node entry.1)) (hlit : Literals mem name) {instr : Ptr}
    {len : BitVec 32} {word : List U8} (hword : BytesAt mem instr word) (hlen : word.length = len.toNat)
    (hne : word ≠ []) :
    ∃ s' info, Yields (s.getOpcodeForInstr mem node name instr len) (s', info) ∧
      (∀ entry ∈ OpCode.table, (ascii entry.2.1).map toUpper = word.map toUpper → info = ⟨some entry.1, entry.2.2⟩) ∧
      ((∀ entry ∈ OpCode.table, (ascii entry.2.1).map toUpper ≠ word.map toUpper) → info = ⟨none, 0⟩) := by
  obtain ⟨s', info, hrun, hinfo⟩ := getOpcodeForInstr_yields (h.ready hnodes) hnodes hlit hword hlen hne
  refine ⟨s', info, hrun, fun entry hmem heq => ?_, fun hnone => ?_⟩
  · rcases hinfo with ⟨found, hfound, hkey, rfl⟩ | ⟨-, hnone⟩
    · rw [keyOf_inj hfound hmem (hkey.trans (upperOf_inj.mpr heq).symm)]
    · exact absurd (upperOf_inj.mpr heq) (hnone entry hmem)
  · rcases hinfo with ⟨found, hfound, hkey, -⟩ | ⟨rfl, -⟩
    · exact absurd (upperOf_inj.mp hkey) (hnone found hfound)
    · rfl

/-- A first lookup of the word "Popn", with the literals from the address 4096 on. -/
theorem getOpcodeForInstr_exact_popn :
    ∃ (s s' : OpCodeNames) (mem : CharMemory) (node name : OpCode → Ptr) (info : OpCodeInfo),
      Reaches node name s ∧ Yields (s.getOpcodeForInstr mem node name 16 4) (s', info) ∧ info = ⟨some .popn, 1⟩ := by
  let s : OpCodeNames := ⟨⟨0, fun _ _ _ => 0, fun _ => 0, fun _ => 0, fun _ => 0, fun _ => ⟨0, ⟨none, 0⟩⟩⟩, false⟩
  let node : OpCode → Ptr := fun o => BitVec.ofNat 64 (1024 + 32 * o.toNat)
  let name : OpCode → Ptr := fun o => BitVec.ofNat 64 (4096 + 16 * o.toNat)
  let mem : CharMemory := fun q =>
    if q < 4096 then (ascii ['P', 'o', 'p', 'n']).getD (q.toNat - 16) 0
    else (OpCode.table[(q.toNat - 4096) / 16]?.map fun entry => (ascii entry.2.1).getD (q.toNat % 16) 0).getD 0
  have hreaches : Reaches node name s := .start rfl
  have hnodes : Nodes (OpCode.table.map fun entry => node entry.1) := by
    have hnodup : (OpCode.table.map fun entry => node entry.1).Nodup := by decide +kernel
    have haddr : ∀ entry ∈ OpCode.table, node entry.1 ≠ 0 ∧ node entry.1 &&& 1 = 0 := by decide +kernel
    exact ⟨hnodup, List.forall_mem_map.mpr fun entry hmem => (haddr entry hmem).1,
      List.forall_mem_map.mpr fun entry hmem => (haddr entry hmem).2⟩
  have hlit : Literals mem name := by
    have hliteral : ∀ entry ∈ OpCode.table,
      0 ∉ ascii entry.2.1 ∧ BytesAt mem (name entry.1) (ascii entry.2.1 ++ [0]) := by decide +kernel
    exact hliteral
  have hword : BytesAt mem 16 (ascii ['P', 'o', 'p', 'n']) := by decide +kernel
  obtain ⟨s', info, hrun, hfound, -⟩ := @getOpcodeForInstr_exact _ _ _ _ hreaches hnodes hlit 16 4 _ hword rfl (by simp [ascii])
  exact ⟨s, s', mem, node, name, info, hreaches, hrun,
    hfound (.popn, ['p', 'o', 'p', 'n'], 1) (by decide) (by decide)⟩

end OpCodeNames

end Cyntatic
