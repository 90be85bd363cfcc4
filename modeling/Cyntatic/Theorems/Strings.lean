import Cyntatic.Compiler.Ident

/-! # Strings in memory

The bytes of a string, and what `strncpy` and `strndup` make of them. -/

namespace Cyntatic

/-! ### Bytes in memory -/

section
variable {mem mem' : CharMemory} {p q : Ptr} {n : Nat}

/-- Some bytes from an address on. -/
def BytesAt (mem : CharMemory) (p : Ptr) : List (BitVec 8) → Prop
  | [] => True
  | b :: bs => mem p = b ∧ BytesAt mem (p + 1) bs

instance decidableBytesAt (mem : CharMemory) : (p : Ptr) → (bs : List (BitVec 8)) → Decidable (BytesAt mem p bs)
  | _, [] => .isTrue trivial
  | p, b :: bs =>
    have := decidableBytesAt mem (p + 1) bs
    inferInstanceAs (Decidable (mem p = b ∧ BytesAt mem (p + 1) bs))

theorem succ_add (p : Ptr) (i : Nat) : p + 1 + BitVec.ofNat 64 i = p + BitVec.ofNat 64 (i + 1) := by
  rw [BitVec.add_assoc, Nat.add_comm i 1, BitVec.ofNat_add]
  rfl

theorem mem_addresses : q ∈ addresses p n ↔ ∃ i < n, q = p + BitVec.ofNat 64 i := by
  induction n generalizing p with
  | zero => simp [addresses]
  | succ n ih =>
    rw [addresses, List.mem_cons, ih]
    constructor
    · rintro (rfl | ⟨i, hi, rfl⟩)
      · exact ⟨0, Nat.zero_lt_succ n, (BitVec.add_zero q).symm⟩
      · exact ⟨i + 1, Nat.succ_lt_succ hi, succ_add p i⟩
    · rintro ⟨i, hi, rfl⟩
      cases i with
      | zero => exact .inl (BitVec.add_zero p)
      | succ i => exact .inr ⟨i, Nat.lt_of_succ_lt_succ hi, (succ_add p i).symm⟩

theorem notMem_addresses_succ (h : n < 2 ^ 64) : p ∉ addresses (p + 1) n := by
  rw [mem_addresses]
  rintro ⟨i, hi, heq⟩
  rw [succ_add] at heq
  have hzero : BitVec.ofNat 64 (i + 1) = 0 := BitVec.self_eq_add_right.mp heq
  have hmod := congrArg BitVec.toNat hzero
  rw [BitVec.toNat_ofNat, Nat.mod_eq_of_lt (by omega)] at hmod
  cases hmod

theorem end_notMem_addresses (h : n < 2 ^ 64) : p + BitVec.ofNat 64 n ∉ addresses p n := by
  rw [mem_addresses]
  rintro ⟨i, hi, heq⟩
  have hmod := congrArg BitVec.toNat (BitVec.add_right_inj _ |>.mp heq)
  rw [BitVec.toNat_ofNat, BitVec.toNat_ofNat, Nat.mod_eq_of_lt h, Nat.mod_eq_of_lt (by omega)] at hmod
  omega

theorem BytesAt.congr {bs : List (BitVec 8)} (h : BytesAt mem p bs)
    (hsame : ∀ q ∈ addresses p bs.length, mem' q = mem q) : BytesAt mem' p bs := by
  induction bs generalizing p with
  | nil => trivial
  | cons b bs ih =>
    exact ⟨(hsame p List.mem_cons_self).trans h.1, ih h.2 fun q hq => hsame q (List.mem_cons_of_mem _ hq)⟩

theorem bytesAt_append {bs cs : List (BitVec 8)} :
    BytesAt mem p (bs ++ cs) ↔ BytesAt mem p bs ∧ BytesAt mem (p + BitVec.ofNat 64 bs.length) cs := by
  induction bs generalizing p with
  | nil => simp [BytesAt]
  | cons b bs ih => rw [List.cons_append, BytesAt, BytesAt, ih, succ_add, List.length_cons, and_assoc]

/-- A string that ends with its first NUL. -/
def CString (mem : CharMemory) (p : Ptr) (bs : List (BitVec 8)) : Prop := 0 ∉ bs ∧ BytesAt mem p (bs ++ [0])

theorem CString.congr {bs : List (BitVec 8)} (h : CString mem p bs)
    (hsame : ∀ q ∈ addresses p (bs.length + 1), mem' q = mem q) : CString mem' p bs :=
  ⟨h.1, h.2.congr fun q hq => hsame q (by simpa using hq)⟩

theorem CString.cons {b : BitVec 8} {bs : List (BitVec 8)} (h : CString mem p (b :: bs)) :
    mem p = b ∧ b ≠ 0 ∧ CString mem (p + 1) bs := by
  obtain ⟨hno, hp, hrest⟩ := h
  obtain ⟨hb, hbs⟩ := not_or.mp (List.mem_cons.not.mp hno)
  exact ⟨hp, Ne.symm hb, hbs, hrest⟩

theorem CString.unique {bs cs : List (BitVec 8)} (h : CString mem p bs) (h' : CString mem p cs) : bs = cs := by
  induction bs generalizing p cs with
  | nil =>
    cases cs with
    | nil => rfl
    | cons c cs =>
      obtain ⟨hp, hc, -⟩ := h'.cons
      exact absurd (hp.symm.trans h.2.1) hc
  | cons b bs ih =>
    obtain ⟨hp, hb, hrest⟩ := h.cons
    cases cs with
    | nil => exact absurd (hp.symm.trans h'.2.1) hb
    | cons c cs =>
      obtain ⟨hp', -, hrest'⟩ := h'.cons
      rw [hp.symm.trans hp', ih hrest hrest']

/-! ### Texts -/

/-- Up to `n` bytes from an address on, before the first NUL. -/
def textAt (mem : CharMemory) (p : Ptr) : Nat → List U8
  | 0 => []
  | n + 1 => if mem p = 0 then [] else mem p :: textAt mem (p + 1) n

theorem textAt_congr (h : ∀ q ∈ addresses p n, mem' q = mem q) : textAt mem' p n = textAt mem p n := by
  induction n generalizing p with
  | zero => rfl
  | succ n ih =>
    rw [textAt, textAt, h p List.mem_cons_self, ih fun q hq => h q (List.mem_cons_of_mem _ hq)]

theorem noNul_textAt : 0 ∉ textAt mem p n := by
  induction n generalizing p with
  | zero => exact List.not_mem_nil
  | succ n ih =>
    rw [textAt]
    split
    · exact List.not_mem_nil
    · rename_i hne
      exact List.mem_cons.not.mpr (not_or.mpr ⟨Ne.symm hne, ih⟩)

theorem length_textAt_le : (textAt mem p n).length ≤ n := by
  induction n generalizing p with
  | zero => exact Nat.le_refl 0
  | succ n ih =>
    rw [textAt]
    split
    · exact Nat.zero_le _
    · exact Nat.succ_le_succ ih

theorem textAt_of_bytesAt {bs : List U8} (h : BytesAt mem p bs) (hno : 0 ∉ bs) : textAt mem p bs.length = bs := by
  induction bs generalizing p with
  | nil => rfl
  | cons b bs ih =>
    obtain ⟨hb, hbs⟩ := not_or.mp (List.mem_cons.not.mp hno)
    rw [List.length_cons, textAt, h.1, if_neg (Ne.symm hb), ih h.2 hbs]

theorem textAt_eq_nil (h : mem p = 0) : textAt mem p n = [] := by
  cases n with
  | zero => rfl
  | succ n => exact if_pos h

theorem textAt_of_cstring {bs : List U8} (h : CString mem p bs) (hn : bs.length < n) : textAt mem p n = bs := by
  induction bs generalizing p n with
  | nil => exact textAt_eq_nil h.2.1
  | cons b bs ih =>
    obtain ⟨n, rfl⟩ : ∃ m, n = m + 1 := ⟨n - 1, by omega⟩
    obtain ⟨hp, hb, hrest⟩ := h.cons
    rw [textAt, hp, if_neg hb, ih hrest (Nat.lt_of_succ_lt_succ hn)]

/-! ### Copies -/

theorem strncpy_of_notMem {mem : CharMemory} {dst src q : Ptr} {n : Nat} (h : q ∉ addresses dst n) :
    strncpy mem dst src n q = mem q := by
  induction n generalizing mem dst src with
  | zero => rfl
  | succ n ih =>
    obtain ⟨hq, hrest⟩ := not_or.mp (List.mem_cons.not.mp h)
    rw [strncpy, ih hrest, Function.update_of_ne hq]

/-- `strncpy` copies a text, and writes zeros after it. -/
theorem strncpy_text {dst src : Ptr} (hn : n < 2 ^ 64) (hfresh : ∀ q ∈ addresses dst n, q ∉ addresses src n) :
    BytesAt (strncpy mem dst src n) dst (textAt mem src n ++ List.replicate (n - (textAt mem src n).length) 0) := by
  induction n generalizing mem dst src with
  | zero => trivial
  | succ n ih =>
    have hlt : n < 2 ^ 64 := by omega
    have hself (src' : Ptr) : strncpy (Function.update mem dst (mem src)) (dst + 1) src' n dst = mem src := by
      rw [strncpy_of_notMem (notMem_addresses_succ hlt), Function.update_self]
    have hsrc : src ≠ dst := fun heq => hfresh dst List.mem_cons_self (heq ▸ List.mem_cons_self)
    rw [strncpy, textAt]
    by_cases hzero : mem src = 0
    · rw [if_pos hzero, if_pos hzero, List.nil_append, List.length_nil, Nat.sub_zero, List.replicate_succ]
      refine ⟨(hself src).trans hzero, ?_⟩
      have hrest := @ih (Function.update mem dst (mem src)) (dst + 1) src hlt fun q hq hmem => by
        obtain ⟨i, hi, rfl⟩ := mem_addresses.mp hmem
        exact hfresh _ (List.mem_cons_of_mem _ hq) (mem_addresses.mpr ⟨i, by omega, rfl⟩)
      rwa [textAt_eq_nil (by rwa [Function.update_of_ne hsrc]), List.nil_append, List.length_nil, Nat.sub_zero] at hrest
    · rw [if_neg hzero, if_neg hzero, List.cons_append, List.length_cons, Nat.add_sub_add_right]
      refine ⟨hself (src + 1), ?_⟩
      have hrest := @ih (Function.update mem dst (mem src)) (dst + 1) (src + 1) hlt fun q hq hmem =>
        hfresh q (List.mem_cons_of_mem _ hq) (List.mem_cons_of_mem _ hmem)
      rwa [textAt_congr fun q hq => ?_] at hrest
      refine Function.update_of_ne ?_ ..
      rintro rfl
      exact hfresh q List.mem_cons_self (List.mem_cons_of_mem _ hq)

/-- What `strndup` makes of a text is a string. -/
theorem cstring_strncpy {dst src : Ptr} (hn : n < 2 ^ 64) (hfresh : ∀ q ∈ addresses dst n, q ∉ addresses src n) :
    CString (Function.update (strncpy mem dst src n) (dst + BitVec.ofNat 64 n) 0) dst (textAt mem src n) := by
  have hle : (textAt mem src n).length ≤ n := length_textAt_le
  have hlen : (textAt mem src n ++ List.replicate (n - (textAt mem src n).length) (0 : U8)).length = n := by
    rw [List.length_append, List.length_replicate, Nat.add_sub_cancel' hle]
  have hcopy := @strncpy_text mem n dst src hn hfresh
  have hall : BytesAt (Function.update (strncpy mem dst src n) (dst + BitVec.ofNat 64 n) 0) dst
      (textAt mem src n ++ List.replicate (n - (textAt mem src n).length) 0 ++ [0]) := by
    refine bytesAt_append.mpr ⟨hcopy.congr fun q hq => Function.update_of_ne ?_ .., ?_, trivial⟩
    · rintro rfl
      rw [hlen] at hq
      exact end_notMem_addresses hn hq
    · rw [hlen]
      exact Function.update_self ..
  rw [List.append_assoc, ← List.replicate_succ', List.replicate_succ, List.append_cons] at hall
  exact ⟨noNul_textAt, (bytesAt_append.mp hall).1⟩

end

namespace IdentCache
variable {s : IdentCache} {name str : Ptr} {size : BitVec 32}

/-- The copy of a text is a string, and the memory of the other names stays. -/
theorem strndup_text (hfits : size + 1 ≠ 0) (hname : name ≠ 0)
    (hsource : ∀ q ∈ addresses name (size.toNat + 1), q ∉ addresses str size.toNat) :
    ∃ mem', s.strndup name str size =
      some { s with mem := mem', names := addresses name (size.toNat + 1) ++ s.names } ∧
      CString mem' name (textAt s.mem str size.toNat) ∧ ∀ q ∉ addresses name (size.toNat + 1), mem' q = s.mem q := by
  have hlt : size.toNat < 2 ^ 64 := by omega
  have hend : name + size.setWidth 64 = name + BitVec.ofNat 64 size.toNat := by rw [BitVec.ofNat_toNat]
  have hmem {q : Ptr} (hq : q ∈ addresses name size.toNat) : q ∈ addresses name (size.toNat + 1) := by
    obtain ⟨i, hi, rfl⟩ := mem_addresses.mp hq
    exact mem_addresses.mpr ⟨i, by omega, rfl⟩
  refine ⟨_, if_neg (not_or.mpr ⟨hfits, hname⟩), ?_, fun q hq => ?_⟩
  · rw [hend]
    exact cstring_strncpy hlt fun q hq => hsource q (hmem hq)
  · rw [hend, Function.update_of_ne, strncpy_of_notMem fun h => hq (hmem h)]
    rintro rfl
    exact hq (mem_addresses.mpr ⟨size.toNat, Nat.lt_succ_self _, rfl⟩)

end IdentCache

end Cyntatic
