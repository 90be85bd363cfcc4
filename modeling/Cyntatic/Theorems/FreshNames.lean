import Cyntatic.Theorems.Idents
import Cyntatic.Theorems.Numbers

/-! # Generated identifiers

A generated identifier is new when no call before it was for its characters. This holds in every run, also when a string
is empty or has a NUL, so that the cache is not in order; what a node has is the text of the call that made it. -/

namespace Cyntatic
open Library
open RbTreeBase (case2Color)

/-! ### Texts and numbers in memory -/

section
variable {mem mem' : CharMemory} {p q : Ptr} {n : Nat}

theorem storeBytes_of_notMem {bs : List U8} (h : q ∉ addresses p bs.length) : storeBytes mem p bs q = mem q := by
  induction bs generalizing mem p with
  | nil => rfl
  | cons b bs ih =>
    obtain ⟨hq, hrest⟩ := not_or.mp (List.mem_cons.not.mp h)
    rw [storeBytes, ih hrest, Function.update_of_ne hq]

theorem bytesAt_storeBytes {bs : List U8} (hlen : bs.length < 2 ^ 64) : BytesAt (storeBytes mem p bs) p bs := by
  induction bs generalizing mem p with
  | nil => trivial
  | cons b bs ih =>
    rw [List.length_cons] at hlen
    refine ⟨?_, ih (by omega)⟩
    rw [storeBytes, storeBytes_of_notMem (notMem_addresses_succ (by omega)), Function.update_self]

theorem strlen_eq : strlen mem p n = (textAt mem p n).length := by
  induction n generalizing p with
  | zero => rfl
  | succ n ih =>
    rw [strlen, textAt]
    split
    · rfl
    · rw [ih, List.length_cons]

theorem length_textAt {m : Nat} (h : n ≤ (textAt mem p m).length) : (textAt mem p n).length = n := by
  induction n generalizing p m with
  | zero => rfl
  | succ n ih =>
    cases m with
    | zero => cases h
    | succ m =>
      rw [textAt] at h ⊢
      by_cases hzero : mem p = 0
      · rw [if_pos hzero] at h
        cases h
      · rw [if_neg hzero, List.length_cons] at h
        rw [if_neg hzero, List.length_cons, ih (Nat.le_of_succ_le_succ h)]

theorem addresses_mono {m : Nat} (h : n ≤ m) (hq : q ∈ addresses p n) : q ∈ addresses p m := by
  obtain ⟨i, hi, rfl⟩ := mem_addresses.mp hq
  exact mem_addresses.mpr ⟨i, Nat.lt_of_lt_of_le hi h, rfl⟩

theorem add_mem_addresses {m : Nat} (hq : q ∈ addresses (p + BitVec.ofNat 64 n) m) : q ∈ addresses p (n + m) := by
  obtain ⟨i, hi, rfl⟩ := mem_addresses.mp hq
  rw [BitVec.add_assoc, ← BitVec.ofNat_add]
  exact mem_addresses.mpr ⟨n + i, Nat.add_lt_add_left hi n, rfl⟩

/-- A text, and then other bytes and a NUL after it. -/
theorem joined_of_notMem {dst src : Ptr} {bs : List U8} (h : q ∉ addresses dst (n + (bs.length + 1))) :
    storeBytes (strncpy mem dst src n) (dst + BitVec.ofNat 64 n) (bs ++ [0]) q = mem q := by
  rw [storeBytes_of_notMem fun hmem => ?_, strncpy_of_notMem fun hmem => h (addresses_mono (Nat.le_add_right ..) hmem)]
  rw [List.length_append, List.length_singleton] at hmem
  exact h (add_mem_addresses hmem)

theorem bytesAt_joined {dst src : Ptr} {bs : List U8} (htext : (textAt mem src n).length = n)
    (hlt : n + (bs.length + 1) < 2 ^ 64) (hfresh : ∀ q ∈ addresses dst n, q ∉ addresses src n) :
    BytesAt (storeBytes (strncpy mem dst src n) (dst + BitVec.ofNat 64 n) (bs ++ [0])) dst (textAt mem src n ++ bs) := by
  have hcopy := @strncpy_text mem n dst src (by omega) hfresh
  rw [htext, Nat.sub_self, List.replicate_zero, List.append_nil] at hcopy
  have hrest := @bytesAt_storeBytes (strncpy mem dst src n) (dst + BitVec.ofNat 64 n) (bs ++ [0])
    (by rw [List.length_append, List.length_singleton]; omega)
  refine bytesAt_append.mpr ⟨hcopy.congr fun q hq => storeBytes_of_notMem fun hmem => ?_, ?_⟩
  · -- the two parts do not overlap
    rw [htext] at hq
    obtain ⟨i, hi, rfl⟩ := mem_addresses.mp hq
    obtain ⟨j, hj, heq⟩ := mem_addresses.mp hmem
    rw [List.length_append, List.length_singleton] at hj
    rw [BitVec.add_assoc, ← BitVec.ofNat_add] at heq
    have hmod := congrArg BitVec.toNat (BitVec.add_right_inj _ |>.mp heq)
    rw [BitVec.toNat_ofNat, BitVec.toNat_ofNat, Nat.mod_eq_of_lt (by omega), Nat.mod_eq_of_lt (by omega)] at hmod
    omega
  · rw [htext]
    exact (bytesAt_append.mp hrest).1

end

/-! ### Generated texts -/

/-- The text of a generated identifier: a prefix, and the number of those before it. -/
def generatedText (mem : CharMemory) (pfx : Ptr) (count : BitVec 32) : List U8 :=
  textAt mem pfx (strlen mem pfx (2 ^ 64) % 2 ^ 32) ++ decimal count.toNat

section
variable {mem : CharMemory} {pfx : Ptr} {count : BitVec 32}

theorem noNul_decimal {n : Nat} : 0 ∉ decimal n := fun hmem => by cases isDigit_of_mem_decimal hmem

theorem noNul_generatedText : 0 ∉ generatedText mem pfx count :=
  List.mem_append.not.mpr (not_or.mpr ⟨noNul_textAt, noNul_decimal⟩)

theorem isDigit_of_generatedText {c : U8} (h : generatedText mem pfx count = [c]) : isDigit c = true := by
  obtain ⟨d, hd⟩ := List.exists_mem_of_ne_nil _ (decimal_ne_nil count.toNat)
  have hmem : d ∈ generatedText mem pfx count := List.mem_append_right _ hd
  rw [h] at hmem
  exact List.mem_singleton.mp hmem ▸ isDigit_of_mem_decimal hd

theorem length_decimal_le (h : count.toNat < 2 ^ 32) : (decimal count.toNat).length ≤ 10 := by
  rw [decimal, ascii, List.length_map, Nat.length_toDigits_le_iff (by decide) (by decide)]
  omega

theorem length_generatedText :
    (generatedText mem pfx count).length = strlen mem pfx (2 ^ 64) % 2 ^ 32 + (decimal count.toNat).length := by
  rw [generatedText, List.length_append, length_textAt (Nat.le_trans (Nat.mod_le ..) (Nat.le_of_eq strlen_eq))]

end

/-- A string before the number. -/
theorem generatedText_eq {ps : List U8} (h : CString mem pfx ps) (hlen : ps.length < 2 ^ 32) :
    generatedText mem pfx count = ps ++ decimal count.toNat := by
  have htext : textAt mem pfx (2 ^ 64) = ps := textAt_of_cstring h (Nat.lt_trans hlen (by decide))
  rw [generatedText, strlen_eq, htext, Nat.mod_eq_of_lt hlen, textAt_of_bytesAt (bytesAt_append.mp h.2).1 h.1]

namespace IdentCache

/-- A call for an identifier: the text that it was for, whether the text was generated, and the name that it gave. -/
structure Call where
  text : List U8
  generated : Bool
  name : Ptr

/-- The tree of a cache, where each node has the text of a call, or is one of the first identifiers. -/
structure Texts (s : IdentCache) (calls : List Call) (t : ColorTree Ptr) (content : Ptr → List U8) : Prop where
  tree : s.rbt.Tree t
  nodes : t.toList.Perm s.nodes
  string : ∀ p ∈ t.toList, CString s.mem (s.rbt.data p) (content p)
  owned : ∀ p ∈ t.toList, ∀ q ∈ addresses (s.rbt.data p) ((content p).length + 1), q ∈ s.names
  called : ∀ p ∈ t.toList, content p ∈ [[0x6b], [0x6a], [0x69]] ∨ ∃ c ∈ calls, c.text = content p
  known : ∀ c ∈ calls, c.name ∈ s.names

variable {s s' : IdentCache} {calls : List Call} {t : ColorTree Ptr} {content : Ptr → List U8} {node name str p : Ptr}
  {size : BitVec 32}

theorem Texts.keep (h : Texts s calls t content) {mem' : CharMemory} (hmem : ∀ q ∈ s.names, mem' q = s.mem q) :
    Texts { s with mem := mem' } calls t content where
  tree := h.tree
  nodes := h.nodes
  string := fun p hp => (h.string p hp).congr fun q hq => hmem q (h.owned p hp q hq)
  owned := h.owned
  called := h.called
  known := h.known

/-- A call that finds a node. -/
theorem Texts.found (h : Texts s calls t content) (hp : p ∈ t.toList) (c : Call) (hname : c.name = s.rbt.data p) :
    Texts { s with rbt := { s.rbt with compare := rbTreeCmpString s.mem } } (c :: calls) t content where
  tree := h.tree.setCompare
  nodes := h.nodes
  string := h.string
  owned := h.owned
  called := fun q hq => (h.called q hq).imp_right fun ⟨d, hd, hdq⟩ => ⟨d, List.mem_cons_of_mem _ hd, hdq⟩
  known := fun d hd => by
    rcases List.mem_cons.mp hd with rfl | hd
    · exact hname ▸ h.owned p hp _ List.mem_cons_self
    · exact h.known d hd

/-- A call that makes a node. -/
theorem Texts.added (h : Texts s calls t content) {lt : Ptr → Bool} {c : Call}
    (htree : s'.rbt.Tree (t.insert case2Color lt node)) (hdata : s'.rbt.data = Function.update s.rbt.data node c.name)
    (hnodes : s'.nodes = node :: s.nodes) (hmem : ∀ q ∈ s.names, s'.mem q = s.mem q) (hnames : ∀ q ∈ s.names, q ∈ s'.names)
    (hstring : CString s'.mem c.name c.text) (hown : ∀ q ∈ addresses c.name (c.text.length + 1), q ∈ s'.names)
    (hnode : node ∉ t.toList) :
    Texts s' (c :: calls) (t.insert case2Color lt node) (Function.update content node c.text) := by
  have hperm := RbTreeBase.perm_insert lt t node
  have hstrings {p : Ptr} (hp : p ∈ (t.insert case2Color lt node).toList) :=
    strings_insert h.string h.owned hmem hnames hstring hown hnode hp
  refine ⟨htree, ?_, fun p hp => ?_, fun p hp => ?_, fun p hp => ?_, fun d hd => ?_⟩
  · rw [hnodes]
    exact hperm.trans (h.nodes.cons _)
  · rw [hdata]
    exact (hstrings hp).1
  · rw [hdata]
    exact (hstrings hp).2
  · rcases List.mem_cons.mp (hperm.mem_iff.mp hp) with rfl | hp
    · exact .inr ⟨c, List.mem_cons_self, by rw [Function.update_self]⟩
    · rw [Function.update_of_ne (show p ≠ node from fun heq => hnode (heq ▸ hp))]
      exact (h.called p hp).imp_right fun ⟨d, hd, hdp⟩ => ⟨d, List.mem_cons_of_mem _ hd, hdp⟩
  · rcases List.mem_cons.mp hd with rfl | hd
    · exact hown _ List.mem_cons_self
    · exact hnames _ (h.known d hd)

/-- `Ident_foa` gives the name of a node that compares equal, or a new name. -/
theorem Texts.foa (h : Texts s calls t content) (hfresh : s.Fresh node name str size)
    (hcall : Yields (s.foa node name str size) (s', p)) (generated : Bool) :
    (∃ t' content', Texts s' (⟨textAt s.mem str size.toNat, generated, p⟩ :: calls) t' content') ∧
      (p ∉ s.names ∨ ∃ q ∈ t.toList, rbTreeCmpString s.mem str size (s.rbt.data q) = 0) := by
  let rbt := { s.rbt with compare := rbTreeCmpString s.mem }
  have htree : rbt.Tree t := h.tree.setCompare
  cases hs : t.search fun p => rbt.compare str size (rbt.data p) with
  | some q =>
    obtain ⟨hq, hzero⟩ := mem_of_search hs
    obtain ⟨rfl, rfl⟩ := Prod.mk.inj (hcall.unique (foa_of_found (RbTreeBase.findOrAdd_found htree hs)))
    exact ⟨⟨t, content, h.found hq _ rfl⟩, .inr ⟨q, hq, hzero⟩⟩
  | none =>
    have hnode : Nodes (node :: t.toList) := hfresh.node.perm (h.nodes.symm.cons _)
    obtain ⟨rbt', hrun, hdata, -, htree'⟩ := RbTreeBase.findOrAdd_added htree hnode hs
    have hmem : node ∉ t.toList := (List.nodup_cons.mp hnode.nodup).1
    obtain ⟨mem', hdup, hstring, hkeep⟩ := @strndup_text { s with rbt := rbt', nodes := node :: s.nodes } _ _ _ hfresh.fits
      hfresh.nonzero hfresh.source
    obtain ⟨rfl, rfl⟩ := Prod.mk.inj (hcall.unique (foa_of_added hrun hdup))
    refine ⟨⟨_, _, h.added htree'.setData ?_ rfl (fun q hq => hkeep q fun hq' => hfresh.names q hq' hq)
      (fun q hq => List.mem_append_right _ hq) hstring (fun q hq => List.mem_append_left _ ?_) hmem⟩, .inl fun hp =>
      hfresh.names p List.mem_cons_self hp⟩
    · change Function.update rbt'.data node p = _
      rw [hdata]
    · obtain ⟨i, hi, rfl⟩ := mem_addresses.mp hq
      exact mem_addresses.mpr ⟨i, Nat.lt_of_lt_of_le hi (Nat.succ_le_succ length_textAt_le), rfl⟩

theorem foa_used (hcall : Yields (s.foa node name str size) (s', p)) :
    (s'.nodes = s.nodes ∧ s'.names = s.names) ∨
      (s'.nodes = node :: s.nodes ∧ s'.names = addresses name (size.toNat + 1) ++ s.names) := by
  obtain ⟨n, hn⟩ := hcall.exists_some
  rw [foa] at hn
  obtain ⟨⟨rbt, added, q⟩, -, hn⟩ := Option.bind_eq_some_iff.mp hn
  cases added with
  | false =>
    obtain ⟨rfl, -⟩ := Prod.mk.inj (Option.some.inj hn)
    exact .inl ⟨rfl, rfl⟩
  | true =>
    obtain ⟨s'', hdup, hn⟩ := Option.bind_eq_some_iff.mp hn
    obtain ⟨rfl, -⟩ := Prod.mk.inj (Option.some.inj hn)
    rw [strndup] at hdup
    split at hdup
    · cases hdup
    · obtain rfl := Option.some.inj hdup
      exact .inr ⟨rfl, rfl⟩

end IdentCache

namespace Idents
open IdentCache (Call Texts Fresh)
variable {g g' : Idents} {calls : List Call} {node name str pfx p : Ptr}

/-- The array of `Ident_genVariable`, which is neither in the names nor in the prefix. -/
structure OnStack (g : Idents) (str pfx : Ptr) (len : Nat) : Prop where
  names : ∀ q ∈ addresses str (len + 16), q ∉ g.cache.names
  source : ∀ q ∈ addresses str (len + 16), q ∉ addresses pfx len

/-- The result of `Ident_genVariable`, from that of `Ident_foa`. -/
def counted (g : Idents) (r : IdentCache × Ptr) : Idents × Ptr := (⟨r.1, g.variableCounts + 1⟩, r.2)

/-- `Ident_genVariable` is `Ident_foa` of the generated text. -/
theorem genVariable_eq (hwrap : strlen g.cache.mem pfx (2 ^ 64) % 2 ^ 32 + 16 < 2 ^ 32)
    (hstack : g.OnStack str pfx (strlen g.cache.mem pfx (2 ^ 64) % 2 ^ 32)) :
    ∃ mem' size, (∀ n, g.genVariable node name str pfx n = ({ g.cache with mem := mem' }.foa node name str size n).map g.counted) ∧
      (∀ q ∈ g.cache.names, mem' q = g.cache.mem q) ∧ BytesAt mem' str (generatedText g.cache.mem pfx g.variableCounts) ∧
      size = BitVec.ofNat 32 (generatedText g.cache.mem pfx g.variableCounts).length ∧
      (generatedText g.cache.mem pfx g.variableCounts).length = size.toNat := by
  set len := strlen g.cache.mem pfx (2 ^ 64) % 2 ^ 32 with hlen
  set digits := decimal g.variableCounts.toNat with hdigits
  have hlen' : (BitVec.ofNat 32 (strlen g.cache.mem pfx (2 ^ 64))).toNat = len := BitVec.toNat_ofNat ..
  have hdigits' : digits.length ≤ 10 := length_decimal_le g.variableCounts.isLt
  have hlen64 : (BitVec.ofNat 32 (strlen g.cache.mem pfx (2 ^ 64))).setWidth 64 = BitVec.ofNat 64 len := by
    rw [← hlen', BitVec.ofNat_toNat]
  have hsize : BitVec.ofNat 32 (strlen g.cache.mem pfx (2 ^ 64)) + BitVec.ofNat 32 digits.length =
      BitVec.ofNat 32 (generatedText g.cache.mem pfx g.variableCounts).length := by
    rw [length_generatedText, BitVec.ofNat_add, ← hlen, ← hlen', BitVec.ofNat_toNat, BitVec.setWidth_eq]
  refine ⟨storeBytes (strncpy g.cache.mem str pfx len) (str + BitVec.ofNat 64 len) (digits ++ [0]), _, fun n => ?_,
    fun q hq => ?_, ?_, rfl, ?_⟩
  · rw [genVariable]
    simp only [hlen', if_neg (Nat.not_le.mpr hwrap), hlen64, ← hsize]
    exact Option.map_eq_bind.symm
  · exact joined_of_notMem fun hmem => hstack.names q (addresses_mono (by omega) hmem) hq
  · exact bytesAt_joined (length_textAt (hlen ▸ Nat.le_trans (Nat.mod_le ..) (Nat.le_of_eq strlen_eq))) (by omega)
      fun q hq => hstack.source q (addresses_mono (by omega) hq)
  · rw [BitVec.toNat_ofNat, Nat.mod_eq_of_lt]
    rw [length_generatedText, ← hlen, ← hdigits]
    omega

theorem fits_of_genVariable (hcall : Yields (g.genVariable node name str pfx) (g', p)) :
    strlen g.cache.mem pfx (2 ^ 64) % 2 ^ 32 + 16 < 2 ^ 32 := by
  refine Nat.lt_of_not_le fun hwrap => ?_
  obtain ⟨n, hn⟩ := hcall.exists_some
  rw [genVariable] at hn
  simp only [BitVec.toNat_ofNat, if_pos hwrap] at hn
  cases hn

theorem foa_of_genVariable {mem' : CharMemory} {size : BitVec 32} (hcall : Yields (g.genVariable node name str pfx) (g', p))
    (heq : ∀ n, g.genVariable node name str pfx n = ({ g.cache with mem := mem' }.foa node name str size n).map g.counted) :
    Yields ({ g.cache with mem := mem' }.foa node name str size) (g'.cache, p) := by
  have hcall' := hcall.congr fun n => (heq n).symm
  obtain ⟨n, hn⟩ := hcall'.exists_some
  obtain ⟨r, -, hr⟩ := Option.map_eq_some_iff.mp hn
  obtain ⟨rfl, rfl⟩ := Prod.mk.inj hr
  refine hcall'.of_map fun x hx => ?_
  obtain ⟨hcache, hname⟩ := Prod.mk.inj hx
  exact Prod.ext (Idents.mk.inj hcache).1 hname

theorem generatedText_ne_nil {mem : CharMemory} {count : BitVec 32} : generatedText mem pfx count ≠ [] := fun hnil =>
  decimal_ne_nil _ (List.append_eq_nil_iff.mp hnil).2

/-- In a cache in order a call of `Ident_genVariable` comes to a name. -/
theorem genVariable_canonical {cs : List (List U8 × Ptr)} {t : ColorTree Ptr} {content : Ptr → List U8}
    (hc : IdentCache.Canonical g.cache cs t content) (hwrap : strlen g.cache.mem pfx (2 ^ 64) % 2 ^ 32 + 16 < 2 ^ 32)
    (hstack : g.OnStack str pfx (strlen g.cache.mem pfx (2 ^ 64) % 2 ^ 32))
    (hfresh : g.cache.Fresh node name str (BitVec.ofNat 32 (generatedText g.cache.mem pfx g.variableCounts).length)) :
    ∃ g' p t' content', Yields (g.genVariable node name str pfx) (g', p) ∧
      IdentCache.Canonical g'.cache ((generatedText g.cache.mem pfx g.variableCounts, p) :: cs) t' content' := by
  obtain ⟨mem', size, heq, hmem, hbytes, rfl, hsize⟩ := @genVariable_eq g node name str pfx hwrap hstack
  obtain ⟨s', p, t', content', hrun, hc'⟩ := (hc.keep hmem).foa ⟨hbytes, hsize, generatedText_ne_nil, noNul_generatedText⟩
    fun _ => ⟨hfresh.node, hfresh.nonzero, hfresh.fits, hfresh.names, hfresh.source⟩
  exact ⟨_, p, t', content', (hrun.map g.counted).congr heq, hc'⟩

/-- The caches after `IdentCache_init` and calls for identifiers, the latest call first. Before a call the rest of the
    program may change the memory outside the names. -/
inductive Runs : List Call → Idents → Prop
  | init {s s' : IdentCache} {nodeI nodeJ nodeK i j k : Ptr} (hi : CString s.mem i [0x69])
      (hj : CString s.mem j [0x6a]) (hk : CString s.mem k [0x6b]) (hnodes : Nodes [nodeK, nodeJ, nodeI])
      (hcall : Yields (s.init nodeI nodeJ nodeK i j k) s') : Runs [] ⟨s', 0⟩
  | foa {calls : List Call} {g : Idents} {s' : IdentCache} {mem : CharMemory} {node name str p : Ptr} {size : BitVec 32}
      (h : Runs calls g) (hmem : ∀ q ∈ g.cache.names, mem q = g.cache.mem q)
      (hfresh : Fresh { g.cache with mem } node name str size)
      (hcall : Yields ({ g.cache with mem }.foa node name str size) (s', p)) :
      Runs (⟨textAt mem str size.toNat, false, p⟩ :: calls) { g with cache := s' }
  | genVariable {calls : List Call} {g g' : Idents} {mem : CharMemory} {node name str pfx p : Ptr} (h : Runs calls g)
      (hmem : ∀ q ∈ g.cache.names, mem q = g.cache.mem q)
      (hstack : g.OnStack str pfx (strlen mem pfx (2 ^ 64) % 2 ^ 32))
      (hfresh : g.cache.Fresh node name str (BitVec.ofNat 32 (generatedText mem pfx g.variableCounts).length))
      (hcall : Yields ({ g with cache := { g.cache with mem } }.genVariable node name str pfx) (g', p)) :
      Runs (⟨generatedText mem pfx g.variableCounts, true, p⟩ :: calls) g'
  | genLabel {calls : List Call} {g g' : Idents} {mem : CharMemory} {node name str l p : Ptr} (h : Runs calls g)
      (hmem : ∀ q ∈ g.cache.names, mem q = g.cache.mem q) (hl : CString mem l [0x4c])
      (hstack : g.OnStack str l (strlen mem l (2 ^ 64) % 2 ^ 32))
      (hfresh : g.cache.Fresh node name str (BitVec.ofNat 32 (generatedText mem l g.variableCounts).length))
      (hcall : Yields ({ g with cache := { g.cache with mem } }.genLabel node name str l) (g', p)) :
      Runs (⟨generatedText mem l g.variableCounts, true, p⟩ :: calls) g'

/-- One call of `Ident_genVariable`. -/
theorem genVariable_texts {t : ColorTree Ptr} {content : Ptr → List U8} {mem : CharMemory}
    (h : Texts g.cache calls t content) (hmem : ∀ q ∈ g.cache.names, mem q = g.cache.mem q)
    (hstack : g.OnStack str pfx (strlen mem pfx (2 ^ 64) % 2 ^ 32))
    (hfresh : g.cache.Fresh node name str (BitVec.ofNat 32 (generatedText mem pfx g.variableCounts).length))
    (hcall : Yields ({ g with cache := { g.cache with mem } }.genVariable node name str pfx) (g', p)) :
    (∃ t' content', Texts g'.cache (⟨generatedText mem pfx g.variableCounts, true, p⟩ :: calls) t' content') ∧
      ((∀ c ∈ calls, generatedText mem pfx g.variableCounts ≠ c.text) → ∀ c ∈ calls, p ≠ c.name) := by
  let gm : Idents := { g with cache := { g.cache with mem } }
  obtain ⟨mem', size, heq, hmem', hbytes, rfl, hsize⟩ := @genVariable_eq gm node name str pfx (fits_of_genVariable hcall)
    ⟨hstack.names, hstack.source⟩
  have htext := textAt_of_bytesAt hbytes noNul_generatedText
  rw [hsize] at htext
  have h' := (h.keep hmem).keep hmem'
  obtain ⟨hnext, hold⟩ := h'.foa ⟨hfresh.node, hfresh.nonzero, hfresh.fits, hfresh.names, hfresh.source⟩
    (@foa_of_genVariable gm _ _ _ _ _ _ _ _ hcall heq) true
  refine ⟨htext ▸ hnext, fun hnew c hc heq => ?_⟩
  rcases hold with hp | ⟨q, hq, hzero⟩
  · exact hp (heq ▸ h.known c hc)
  · have heq' := eq_of_cmpString hbytes hsize generatedText_ne_nil (h'.string q hq) hzero
    rcases h.called q hq with hfirst | ⟨d, hd, hdq⟩
    · -- the first identifiers end with a letter
      rw [heq'] at hfirst
      simp only [List.mem_cons, List.not_mem_nil, or_false] at hfirst
      rcases hfirst with hk | hj | hi
      · cases isDigit_of_generatedText hk
      · cases isDigit_of_generatedText hj
      · cases isDigit_of_generatedText hi
    · exact hnew d hd (heq'.symm.trans hdq.symm)

theorem Runs.texts (h : Runs calls g) : ∃ t content, Texts g.cache calls t content := by
  induction h with
  | @init s s' nodeI nodeJ nodeK i j k hi hj hk hnodes hcall =>
    obtain ⟨s₁, t, content, hrun, -, hc⟩ := IdentCache.init_canonical hi hj hk hnodes
    obtain rfl := hrun.unique hcall
    refine ⟨t, content, hc.tree, hc.nodes, hc.string, hc.owned, fun p hp => .inl ?_, by simp⟩
    have hcalled := List.mem_map_of_mem (f := Prod.fst) (hc.called p hp)
    exact hcalled
  | foa h hmem hfresh hcall ih =>
    obtain ⟨t, content, htexts⟩ := ih
    exact ((htexts.keep hmem).foa hfresh hcall false).1
  | genVariable h hmem hstack hfresh hcall ih =>
    obtain ⟨t, content, htexts⟩ := ih
    exact (genVariable_texts htexts hmem hstack hfresh hcall).1
  | genLabel h hmem hl hstack hfresh hcall ih =>
    obtain ⟨t, content, htexts⟩ := ih
    exact (genVariable_texts htexts hmem hstack hfresh hcall).1

/-- A generated name is not the name of a call before it, where no call before it was for its text. -/
theorem run_fresh (h : Runs calls g) (hnew : calls.Pairwise fun e c => e.generated → e.text ≠ c.text) :
    calls.Pairwise fun e c => e.generated → e.name ≠ c.name := by
  induction h with
  | init hi hj hk hnodes hcall => exact .nil
  | foa h hmem hfresh hcall ih =>
    obtain ⟨hhead, htail⟩ := List.pairwise_cons.mp hnew
    exact .cons (fun c hc hgen => by cases hgen) (ih htail)
  | genVariable h hmem hstack hfresh hcall ih =>
    obtain ⟨hhead, htail⟩ := List.pairwise_cons.mp hnew
    obtain ⟨t, content, htexts⟩ := h.texts
    exact .cons (fun c hc _ => (genVariable_texts htexts hmem hstack hfresh hcall).2
      (fun c hc => hhead c hc rfl) c hc) (ih htail)
  | genLabel h hmem hl hstack hfresh hcall ih =>
    obtain ⟨hhead, htail⟩ := List.pairwise_cons.mp hnew
    obtain ⟨t, content, htexts⟩ := h.texts
    exact .cons (fun c hc _ => (genVariable_texts htexts hmem hstack hfresh hcall).2
      (fun c hc => hhead c hc rfl) c hc) (ih htail)

/-- A program with the strings `i`, `j`, `k`, `L` and `L0`, before `IdentCache_init`. -/
def strings : IdentCache where
  rbt := ⟨0, fun _ _ _ => 0, fun _ => 0, fun _ => 0, fun _ => 0, fun _ => 0⟩
  mem := fun q =>
    if q = 16 then 0x69 else if q = 32 then 0x6a else if q = 48 then 0x6b
    else if q = 64 ∨ q = 80 then 0x4c else if q = 81 then 0x30 else 0
  nodes := []
  names := []

theorem notMem_of_all {xs ys : List Ptr} (h : xs.all fun q => decide (q ∉ ys)) : ∀ q ∈ xs, q ∉ ys :=
  fun q hq => of_decide_eq_true (List.all_eq_true.mp h q hq)

/-- `Ident_foa` of one of these strings, and then the first `Ident_genLabel`. -/
theorem runs_foa_genLabel {str : Ptr} {size : BitVec 32} {bs : List U8} (hgiven : IdentCache.Given strings.mem str size bs)
    (hfits : size + 1 ≠ 0) (hsource : ∀ q ∈ addresses 1024 (size.toNat + 1), q ∉ addresses str size.toNat)
    (hnames : ∀ q ∈ addresses 1024 (size.toNat + 1), q ∉ addresses 16 2 ++ addresses 32 2 ++ addresses 48 2)
    (hfar : ∀ q ∈ addresses 1024 (size.toNat + 1), q ∉ addresses 64 2 ++ addresses 2048 3 ++ addresses 4096 17) :
    ∃ p q g s t content, Runs [⟨[0x4c, 0x30], true, p⟩, ⟨bs, false, q⟩] g ∧
      IdentCache.Canonical s [([0x4c, 0x30], p), (bs, q), ([0x6b], 48), ([0x6a], 32), ([0x69], 16)] t content := by
  have hi : CString strings.mem 16 [0x69] := ⟨by simp, rfl, rfl, trivial⟩
  have hj : CString strings.mem 32 [0x6a] := ⟨by simp, rfl, rfl, trivial⟩
  have hk : CString strings.mem 48 [0x6b] := ⟨by simp, rfl, rfl, trivial⟩
  have hnodes : Nodes [160, 128, 96] := ⟨by simp, by simp, by simp⟩
  obtain ⟨s₁, t₁, c₁, hinit, hmem₁, hc₁⟩ := IdentCache.init_canonical hi hj hk hnodes
  have hrun₁ : Runs [] ⟨s₁, 0⟩ := .init hi hj hk hnodes hinit
  have hs₁ : strings.init 96 128 160 16 32 48 10 = some s₁ := hinit.eq_some (by decide +kernel)
  have hnodes₁ : s₁.nodes = [160, 128, 96] := by
    refine Option.some.inj ((congrArg (Option.map IdentCache.nodes) hs₁).symm.trans ?_)
    decide +kernel
  have hnames₁ : s₁.names = addresses 16 2 ++ addresses 32 2 ++ addresses 48 2 := by
    refine Option.some.inj ((congrArg (Option.map IdentCache.names) hs₁).symm.trans ?_)
    decide +kernel
  have hfresh₁ : Fresh s₁ 192 1024 str size :=
    ⟨hnodes₁ ▸ ⟨by simp, by simp, by simp⟩, by simp, hfits, hnames₁ ▸ hnames, hsource⟩
  obtain ⟨s₂, q, t₂, c₂, hfoa, hc₂⟩ := hc₁.foa (hmem₁ ▸ hgiven) fun _ => hfresh₁
  have hrun₂ := hrun₁.foa (fun _ _ => rfl) hfresh₁ hfoa
  have hused := IdentCache.foa_used hfoa
  have hnodes₂ : Nodes (224 :: s₂.nodes) := by
    rcases hused with ⟨heq, -⟩ | ⟨heq, -⟩
    · exact heq ▸ hnodes₁ ▸ ⟨by simp, by simp, by simp⟩
    · exact heq ▸ hnodes₁ ▸ ⟨by simp, by simp, by simp⟩
  have hfree {a : Ptr} (ha : a ∈ addresses 64 2 ++ addresses 2048 3 ++ addresses 4096 17) : a ∉ s₂.names := by
    have hstart : a ∉ s₁.names := by
      rw [hnames₁]
      exact notMem_of_all (by decide) a ha
    intro hmem
    rcases hused with ⟨-, heq⟩ | ⟨-, heq⟩
    · exact hstart (heq ▸ hmem)
    · rcases List.mem_append.mp (heq ▸ hmem) with hmem | hmem
      · exact hfar a hmem ha
      · exact hstart hmem
  -- the strings are still where they were
  let mem : CharMemory := fun a => if a ∈ s₂.names then s₂.mem a else strings.mem a
  have hl : CString mem 64 [0x4c] := ⟨by simp, if_neg (hfree (by decide)), if_neg (hfree (by decide)), trivial⟩
  have htext : generatedText mem 64 0 = [0x4c, 0x30] := generatedText_eq hl (by decide)
  have hlen : strlen mem 64 (2 ^ 64) % 2 ^ 32 = 1 := by
    rw [strlen_eq, textAt_of_cstring hl (by decide)]
    rfl
  let g₂ : Idents := ⟨{ s₂ with mem }, 0⟩
  have hstack : g₂.OnStack 4096 64 (strlen mem 64 (2 ^ 64) % 2 ^ 32) := by
    rw [hlen]
    exact ⟨fun a ha => hfree (List.mem_append_right _ ha), notMem_of_all (by decide)⟩
  have hfresh₂ : g₂.cache.Fresh 224 2048 4096 (BitVec.ofNat 32 (generatedText mem 64 0).length) := by
    rw [htext]
    exact ⟨hnodes₂, by simp, by decide, fun a ha => hfree (List.mem_append_left _ (List.mem_append_right _ ha)),
      notMem_of_all (by decide)⟩
  obtain ⟨g₃, p, t₃, c₃, hgen, hc₃⟩ := @genVariable_canonical g₂ 224 2048 4096 64 _ _ _ (hc₂.keep fun a ha => if_pos ha)
    (hlen ▸ by decide) hstack hfresh₂
  have hrun₃ := @Runs.genLabel _ ⟨s₂, 0⟩ g₃ mem 224 2048 4096 64 p hrun₂ (fun a ha => if_pos ha) hl
    ⟨hstack.names, hstack.source⟩ ⟨hfresh₂.node, hfresh₂.nonzero, hfresh₂.fits, hfresh₂.names, hfresh₂.source⟩ hgen
  have hbs : textAt s₁.mem str size.toNat = bs := by
    rw [hmem₁, ← hgiven.length]
    exact textAt_of_bytesAt hgiven.bytes hgiven.noNul
  change Runs [⟨generatedText mem 64 0, true, p⟩, ⟨textAt s₁.mem str size.toNat, false, q⟩] g₃ at hrun₃
  change IdentCache.Canonical _ ((generatedText mem 64 0, p) :: _) _ _ at hc₃
  rw [htext] at hrun₃ hc₃
  rw [hbs] at hrun₃
  exact ⟨p, q, g₃, _, t₃, c₃, hrun₃, hc₃⟩

/-- A label after the identifier `i`. -/
theorem run_fresh_i : ∃ p q g, Runs [⟨[0x4c, 0x30], true, p⟩, ⟨[0x69], false, q⟩] g ∧ p ≠ q := by
  obtain ⟨p, q, g, -, -, -, hrun, -⟩ := @runs_foa_genLabel 16 1 [0x69] ⟨⟨rfl, trivial⟩, rfl, by simp, by simp⟩ (by decide)
    (notMem_of_all (by decide)) (notMem_of_all (by decide)) (notMem_of_all (by decide))
  have hnew := run_fresh hrun (by simp)
  exact ⟨p, q, g, hrun, (List.pairwise_cons.mp hnew).1 _ List.mem_cons_self rfl⟩

/-- After the identifier `L0` the first label is that identifier. -/
theorem not_fresh : ¬ ∀ calls g, Runs calls g → calls.countP Call.generated < 2 ^ 32 →
    calls.Pairwise fun e c => e.generated → e.name ≠ c.name := by
  intro hall
  obtain ⟨p, q, g, s, t, content, hrun, hc⟩ := @runs_foa_genLabel 80 2 [0x4c, 0x30]
    ⟨⟨rfl, rfl, trivial⟩, rfl, by simp, by simp⟩ (by decide) (notMem_of_all (by decide)) (notMem_of_all (by decide))
    (notMem_of_all (by decide))
  have hpq : p = q := (hc.name_eq_iff (c := ([0x4c, 0x30], p)) (d := ([0x4c, 0x30], q)) (by simp) (by simp)).mpr rfl
  exact (List.pairwise_cons.mp (hall _ g hrun (by simp))).1 _ List.mem_cons_self rfl hpq

end Idents

end Cyntatic
