import Cyntatic.Library.Compare
import Cyntatic.Theorems.Strings
import Cyntatic.Theorems.TreeRuns
import Mathlib.Data.List.Lex

/-! # Identifiers are canonical

The comparison of strings is the order of their bytes as signed numbers, so the cache has one node for each string, and
nothing writes to a name after it was made. -/

namespace Cyntatic
open Library
open RbTreeBase (case2Color)

/-! ### Comparison -/

/-- The bytes of a string as signed numbers. -/
def charsOf (bs : List (BitVec 8)) : List Int := bs.map BitVec.toInt

theorem charsOf_inj {bs cs : List (BitVec 8)} : charsOf bs = charsOf cs ↔ bs = cs :=
  (List.map_injective_iff.mpr fun _ _ h => BitVec.toInt_inj.mp h).eq_iff

section
variable {mem : CharMemory} {s1 s2 : Ptr} {bs cs : List (BitVec 8)}

theorem strncmp_eq (h1 : BytesAt mem s1 bs) (h2 : CString mem s2 cs) :
    rbTreeStrncmp mem s1 bs.length s2 = lexCompare BitVec.toInt bs cs := by
  induction bs generalizing s1 s2 cs with
  | nil =>
    cases cs with
    | nil => exact if_pos h2.2.1
    | cons c cs =>
      obtain ⟨hp, hc, -⟩ := h2.cons
      exact if_neg (hp ▸ hc)
  | cons b bs ih =>
    obtain ⟨h1b, h1bs⟩ := h1
    cases cs with
    | nil =>
      rw [List.length_cons, rbTreeStrncmp, if_pos h2.2.1]
      rfl
    | cons c cs =>
      obtain ⟨hp, hc, hrest⟩ := h2.cons
      rw [List.length_cons, rbTreeStrncmp, if_neg (hp ▸ hc), h1b, hp, lexCompare, ih h1bs hrest]
      simp only [ne_eq, BitVec.toInt_inj]

theorem strncmp_sign (h1 : BytesAt mem s1 bs) (h2 : CString mem s2 cs) :
    (rbTreeStrncmp mem s1 bs.length s2 < 0 ↔ charsOf bs < charsOf cs) ∧
      (0 < rbTreeStrncmp mem s1 bs.length s2 ↔ charsOf cs < charsOf bs) := by
  rw [strncmp_eq h1 h2]
  exact ⟨lexCompare_neg, lexCompare_pos⟩

theorem strcmp_eq {n : Nat} (h1 : CString mem s1 bs) (h2 : CString mem s2 cs) (hn : bs.length < n) :
    (strcmp mem s1 s2 n).sign = (lexCompare (fun b => (b.toNat : Int)) bs cs).sign := by
  have hpos {c : BitVec 8} (hc : c ≠ 0) : 0 < c.toNat := Nat.pos_of_ne_zero fun h => hc (BitVec.eq_of_toNat_eq h)
  induction bs generalizing s1 s2 cs n with
  | nil =>
    obtain ⟨n, rfl⟩ : ∃ m, n = m + 1 := ⟨n - 1, by omega⟩
    have hp : mem s1 = 0 := h1.2.1
    cases cs with
    | nil =>
      have hp' : mem s2 = 0 := h2.2.1
      rw [strcmp, hp, hp', if_neg (not_not.mpr rfl), if_pos rfl]
      rfl
    | cons c cs =>
      obtain ⟨hp', hc0, -⟩ := h2.cons
      rw [strcmp, hp, hp', if_pos (Ne.symm hc0)]
      exact Int.sign_eq_neg_one_of_neg (by have := hpos hc0; simpa using this)
  | cons b bs ih =>
    obtain ⟨n, rfl⟩ : ∃ m, n = m + 1 := ⟨n - 1, by omega⟩
    obtain ⟨hp, hb0, hrest⟩ := h1.cons
    cases cs with
    | nil =>
      have hp' : mem s2 = 0 := h2.2.1
      rw [strcmp, hp, hp', if_pos hb0]
      exact Int.sign_eq_one_of_pos (by have := hpos hb0; simpa using this)
    | cons c cs =>
      obtain ⟨hp', -, hrest'⟩ := h2.cons
      rw [strcmp, hp, hp', if_neg hb0, lexCompare]
      by_cases hbc : b = c
      · rw [if_neg (not_not.mpr hbc), if_neg (not_not.mpr (by rw [hbc]))]
        exact ih hrest hrest' (Nat.lt_of_succ_lt_succ hn)
      · rw [if_pos hbc, if_pos fun heq => hbc (BitVec.eq_of_toNat_eq (Int.natCast_inj.mp heq))]

theorem strcmp_sign {n : Nat} (h1 : CString mem s1 bs) (h2 : CString mem s2 cs) (hb : ∀ b ∈ bs, b.toNat < 128)
    (hc : ∀ c ∈ cs, c.toNat < 128) (hn : bs.length < n) : strcmp mem s1 s2 n < 0 ↔ charsOf bs < charsOf cs := by
  have hint {bs : List (BitVec 8)} (h : ∀ b ∈ bs, b.toNat < 128) : charsOf bs = bs.map fun b => (b.toNat : Int) :=
    List.map_congr_left fun b hb => BitVec.toInt_eq_toNat_of_lt (by have := h b hb; omega)
  rw [← Int.sign_neg_iff, strcmp_eq h1 h2 hn, Int.sign_neg_iff, lexCompare_neg, hint hb, hint hc]

end

/-! ### The cache -/

/-- A new element in an ordered tree, where `lt` divides the others. -/
theorem pairwise_insert {κ : Type} [LinearOrder κ] {key : Ptr → κ} {lt : Ptr → Bool} {t : ColorTree Ptr} {node : Ptr}
    {k : κ} (h : t.toList.Pairwise fun p q => key p < key q) (hlt : ∀ p ∈ t.toList, lt p = true ↔ k < key p)
    (hnew : ∀ p ∈ t.toList, key p ≠ k) (hnode : node ∉ t.toList) :
    (t.insert case2Color lt node).toList.Pairwise
      fun p q => Function.update key node k p < Function.update key node k q := by
  have hother {p : Ptr} (hp : p ∈ t.toList) : Function.update key node k p = key p :=
    Function.update_of_ne (show p ≠ node from fun heq => hnode (heq ▸ hp)) ..
  have hself : Function.update key node k node = k := Function.update_self ..
  have hlist := toList_divided lt t
  have hleft {p : Ptr} (hp : p ∈ before (descend lt t [])) : p ∈ t.toList := hlist ▸ List.mem_append_left _ hp
  have hright {p : Ptr} (hp : p ∈ after (descend lt t [])) : p ∈ t.toList := hlist ▸ List.mem_append_right _ hp
  have hdivide : (plug [] t).toList.Pairwise fun p q => lt p → lt q := by
    refine h.imp_of_mem fun hp hq hpq hltp => ?_
    exact (hlt _ hq).mpr (((hlt _ hp).mp hltp).trans hpq)
  obtain ⟨hbefore, hafter⟩ := descend_divides hdivide (by simp [before]) (by simp [after])
  rw [RbTreeBase.toList_insert]
  obtain ⟨hx, hy, hcross⟩ := List.pairwise_append.mp (hlist ▸ h)
  refine List.pairwise_append.mpr ⟨hx.imp_of_mem fun hp hq hpq => ?_, List.pairwise_cons.mpr ⟨fun q hq => ?_,
    hy.imp_of_mem fun hp hq hpq => ?_⟩, fun p hp q hq => ?_⟩
  · rwa [hother (hleft hp), hother (hleft hq)]
  · rw [hself, hother (hright hq)]
    exact (hlt q (hright hq)).mp (hafter q hq)
  · rwa [hother (hright hp), hother (hright hq)]
  · rw [hother (hleft hp)]
    rcases List.mem_cons.mp hq with rfl | hq
    · rw [hself]
      exact lt_of_le_of_ne (not_lt.mp fun hgt => hbefore p hp ((hlt p (hleft hp)).mpr hgt)) (hnew p (hleft hp))
    · rw [hother (hright hq)]
      exact hcross p hp q hq

/-- The strings of the nodes, with a new node. -/
theorem strings_insert {mem mem' : CharMemory} {data : Ptr → Ptr} {content : Ptr → List U8} {names names' : List Ptr}
    {t : ColorTree Ptr} {lt : Ptr → Bool} {node name : Ptr} {bs : List U8}
    (hstring : ∀ p ∈ t.toList, CString mem (data p) (content p))
    (howned : ∀ p ∈ t.toList, ∀ q ∈ addresses (data p) ((content p).length + 1), q ∈ names)
    (hmem : ∀ q ∈ names, mem' q = mem q) (hnames : ∀ q ∈ names, q ∈ names') (hnew : CString mem' name bs)
    (hown : ∀ q ∈ addresses name (bs.length + 1), q ∈ names') (hnode : node ∉ t.toList) {p : Ptr}
    (hp : p ∈ (t.insert case2Color lt node).toList) :
    CString mem' (Function.update data node name p) (Function.update content node bs p) ∧
      ∀ q ∈ addresses (Function.update data node name p) ((Function.update content node bs p).length + 1), q ∈ names' := by
  rcases List.mem_cons.mp ((RbTreeBase.perm_insert lt t node).mem_iff.mp hp) with rfl | hp
  · rw [Function.update_self, Function.update_self]
    exact ⟨hnew, hown⟩
  · have hother : p ≠ node := fun heq => hnode (heq ▸ hp)
    rw [Function.update_of_ne hother, Function.update_of_ne hother]
    exact ⟨(hstring p hp).congr fun q hq => hmem q (howned p hp q hq), fun q hq => hnames q (howned p hp q hq)⟩

/-- Where a comparison by the size gives zero, the strings are the same. -/
theorem eq_of_cmpString {mem : CharMemory} {s1 s2 : Ptr} {size : BitVec 32} {bs cs : List U8} (h1 : BytesAt mem s1 bs)
    (hsize : bs.length = size.toNat) (hne : bs ≠ []) (h2 : CString mem s2 cs) (hzero : rbTreeCmpString mem s1 size s2 = 0) :
    cs = bs := by
  have hsize' : size ≠ 0 := by
    rintro rfl
    exact hne (List.length_eq_zero_iff.mp hsize)
  rw [rbTreeCmpString, if_neg hsize', ← hsize] at hzero
  obtain ⟨hneg, hpos⟩ := strncmp_sign h1 h2
  rw [← charsOf_inj]
  refine le_antisymm (not_lt.mp fun hlt => ?_) (not_lt.mp fun hlt => ?_)
  · have := hneg.mpr hlt
    omega
  · have := hpos.mpr hlt
    omega

namespace IdentCache

/-- The tree of a cache, with the string of each node. -/
structure Names (s : IdentCache) (t : ColorTree Ptr) (content : Ptr → List (BitVec 8)) : Prop where
  tree : s.rbt.Tree t
  nodes : t.toList.Perm s.nodes
  string : ∀ p ∈ t.toList, CString s.mem (s.rbt.data p) (content p)
  owned : ∀ p ∈ t.toList, ∀ q ∈ addresses (s.rbt.data p) ((content p).length + 1), q ∈ s.names
  sorted : t.toList.Pairwise fun p q => charsOf (content p) < charsOf (content q)

variable {s : IdentCache} {t : ColorTree Ptr} {content : Ptr → List (BitVec 8)} {bs : List (BitVec 8)}

/-- CharMemory changes outside the names only. -/
theorem Names.keep (h : s.Names t content) {mem' : CharMemory} (hmem : ∀ q ∈ s.names, mem' q = s.mem q) :
    { s with mem := mem' }.Names t content where
  tree := h.tree
  nodes := h.nodes
  string := fun p hp => (h.string p hp).congr fun q hq => hmem q (h.owned p hp q hq)
  owned := h.owned
  sorted := h.sorted

/-- A node with a new string. -/
theorem Names.insert (h : s.Names t content) {s' : IdentCache} {lt : Ptr → Bool} {node name : Ptr}
    (htree : s'.rbt.Tree (t.insert case2Color lt node)) (hdata : s'.rbt.data = Function.update s.rbt.data node name)
    (hnodes : s'.nodes = node :: s.nodes) (hmem : ∀ q ∈ s.names, s'.mem q = s.mem q) (hnames : ∀ q ∈ s.names, q ∈ s'.names)
    (hstring : CString s'.mem name bs) (hown : ∀ q ∈ addresses name (bs.length + 1), q ∈ s'.names)
    (hlt : ∀ p ∈ t.toList, lt p = true ↔ charsOf bs < charsOf (content p)) (hnew : ∀ p ∈ t.toList, content p ≠ bs)
    (hnode : node ∉ t.toList) : s'.Names (t.insert case2Color lt node) (Function.update content node bs) := by
  have hperm := RbTreeBase.perm_insert lt t node
  have hstrings {p : Ptr} (hp : p ∈ (t.insert case2Color lt node).toList) :=
    strings_insert h.string h.owned hmem hnames hstring hown hnode hp
  refine ⟨htree, ?_, fun p hp => ?_, fun p hp => ?_, ?_⟩
  · rw [hnodes]
    exact hperm.trans (h.nodes.cons _)
  · rw [hdata]
    exact (hstrings hp).1
  · rw [hdata]
    exact (hstrings hp).2
  · have hsorted := pairwise_insert h.sorted hlt (fun p hp heq => hnew p hp (charsOf_inj.mp heq)) hnode
    have hkey : (fun p => charsOf (Function.update content node bs p)) =
        Function.update (fun p => charsOf (content p)) node (charsOf bs) := by
      funext p
      by_cases hp : p = node
      · subst hp
        rw [Function.update_self, Function.update_self]
      · rw [Function.update_of_ne hp, Function.update_of_ne hp]
    rw [← hkey] at hsorted
    exact hsorted

/-- What the arena gives for a new node and a new name. -/
structure Fresh (s : IdentCache) (node name str : Ptr) (size : BitVec 32) : Prop where
  node : Nodes (node :: s.nodes)
  nonzero : name ≠ 0
  fits : size + 1 ≠ 0
  names : ∀ q ∈ addresses name (size.toNat + 1), q ∉ s.names
  source : ∀ q ∈ addresses name (size.toNat + 1), q ∉ addresses str size.toNat

/-- A string that `Ident_foa` takes. -/
structure Given (mem : CharMemory) (str : Ptr) (size : BitVec 32) (bs : List (BitVec 8)) : Prop where
  bytes : BytesAt mem str bs
  length : bs.length = size.toNat
  nonempty : bs ≠ []
  noNul : 0 ∉ bs

theorem Given.sign {str : Ptr} {size : BitVec 32} (hg : Given s.mem str size bs) (h : s.Names t content) {p : Ptr}
    (hp : p ∈ t.toList) :
    (rbTreeCmpString s.mem str size (s.rbt.data p) < 0 ↔ charsOf bs < charsOf (content p)) ∧
      (0 < rbTreeCmpString s.mem str size (s.rbt.data p) ↔ charsOf (content p) < charsOf bs) := by
  have hsize : size ≠ 0 := by
    rintro rfl
    exact hg.nonempty (List.length_eq_zero_iff.mp hg.length)
  rw [rbTreeCmpString, if_neg hsize, ← hg.length]
  exact strncmp_sign hg.bytes (h.string p hp)

/-- The copy of a given string is a string, and the memory of the other names stays. -/
theorem strndup_string {name str : Ptr} {size : BitVec 32} (hg : Given s.mem str size bs) (hfits : size + 1 ≠ 0)
    (hname : name ≠ 0) (hsource : ∀ q ∈ addresses name (size.toNat + 1), q ∉ addresses str size.toNat) :
    ∃ mem', s.strndup name str size =
      some { s with mem := mem', names := addresses name (size.toNat + 1) ++ s.names } ∧
      CString mem' name bs ∧ ∀ q ∉ addresses name (size.toNat + 1), mem' q = s.mem q := by
  rw [← textAt_of_bytesAt hg.bytes hg.noNul, hg.length]
  exact strndup_text hfits hname hsource

theorem foa_of_found {rbt : RbTreeBase Ptr} {node name str p : Ptr} {size : BitVec 32}
    (h : Yields ({ s.rbt with compare := rbTreeCmpString s.mem }.findOrAdd node str size) (rbt, false, p)) :
    Yields (s.foa node name str size) ({ s with rbt }, rbt.data p) := by
  obtain ⟨k, hk⟩ := h
  refine ⟨k, fun n => ?_⟩
  rw [foa, hk n]
  split <;> rfl

theorem foa_of_added {rbt : RbTreeBase Ptr} {node name str p : Ptr} {size : BitVec 32} {s' : IdentCache}
    (h : Yields ({ s.rbt with compare := rbTreeCmpString s.mem }.findOrAdd node str size) (rbt, true, p))
    (hdup : { s with rbt, nodes := node :: s.nodes }.strndup name str size = some s') :
    Yields (s.foa node name str size) ({ s' with rbt := s'.rbt.setData p name }, name) := by
  obtain ⟨k, hk⟩ := h
  refine ⟨k, fun n => ?_⟩
  have hname : (s'.rbt.setData p name).data p = name := Function.update_self ..
  rw [foa, hk n]
  split
  · change (IdentCache.strndup _ _ _ _).bind _ = _
    rw [hdup]
    change some (_, (s'.rbt.setData p name).data p) = _
    rw [hname]
  · rfl

/-- `Ident_foa` gives the name of the node with the same bytes, which is a new one when there was none. -/
theorem foa_yields {node name str : Ptr} {size : BitVec 32} (h : s.Names t content) (hg : Given s.mem str size bs)
    (hfresh : (∀ p ∈ t.toList, content p ≠ bs) → s.Fresh node name str size) :
    (∃ p ∈ t.toList, content p = bs ∧ Yields (s.foa node name str size)
      ({ s with rbt := { s.rbt with compare := rbTreeCmpString s.mem } }, s.rbt.data p)) ∨
    ((∀ p ∈ t.toList, content p ≠ bs) ∧ ∃ s' t', Yields (s.foa node name str size) (s', name) ∧
      t'.toList.Perm (node :: t.toList) ∧ s'.Names t' (Function.update content node bs) ∧
      s'.rbt.data = Function.update s.rbt.data node name ∧ node ∉ t.toList) := by
  let rbt := { s.rbt with compare := rbTreeCmpString s.mem }
  have htree : rbt.Tree t := h.tree.setCompare
  cases hs : t.search fun p => rbt.compare str size (rbt.data p) with
  | some p =>
    obtain ⟨hmem, hzero⟩ := mem_of_search hs
    have heq : content p = bs := eq_of_cmpString hg.bytes hg.length hg.nonempty (h.string p hmem) hzero
    exact .inl ⟨p, hmem, heq, foa_of_found (RbTreeBase.findOrAdd_found htree hs)⟩
  | none =>
    have hnew : ∀ p ∈ t.toList, content p ≠ bs := by
      have hne := ne_zero_of_search (h.sorted.imp_of_mem fun hp hq hpq => ?_) hs
      · intro p hp heq
        obtain ⟨hneg, hpos⟩ := hg.sign h hp
        refine hne p hp (le_antisymm (not_lt.mp ?_) (not_lt.mp ?_))
        · exact fun hlt => (lt_irrefl _ (heq ▸ hpos.mp hlt))
        · exact fun hlt => (lt_irrefl _ (heq ▸ hneg.mp hlt))
      · obtain ⟨hneg, hpos⟩ := hg.sign h hp
        obtain ⟨hneg', hpos'⟩ := hg.sign h hq
        exact ⟨fun hlt => hneg'.mpr ((hneg.mp hlt).trans hpq), fun hlt => hpos.mpr (hpq.trans (hpos'.mp hlt))⟩
    have hf := hfresh hnew
    have hnode : Nodes (node :: t.toList) := hf.node.perm (h.nodes.symm.cons _)
    obtain ⟨rbt', hrun, hdata, -, htree'⟩ := RbTreeBase.findOrAdd_added htree hnode hs
    obtain ⟨mem', hdup, hstring, hmem⟩ := @strndup_string { s with rbt := rbt', nodes := node :: s.nodes } _ _ _ _ hg
      hf.fits hf.nonzero hf.source
    have hnode' := (List.nodup_cons.mp hnode.nodup).1
    let s' : IdentCache := ⟨rbt'.setData node name, mem', node :: s.nodes,
      addresses name (size.toNat + 1) ++ s.names⟩
    have hdata' : s'.rbt.data = Function.update s.rbt.data node name := by
      change Function.update rbt'.data node name = _
      rw [hdata]
    refine .inr ⟨hnew, s', t.insert case2Color (rbt.goesLeft str size) node, ?_, RbTreeBase.perm_insert .., ?_, hdata',
      hnode'⟩
    · exact foa_of_added hrun hdup
    · refine h.insert htree'.setData hdata' rfl (fun q hq => hmem q fun hq' => hf.names q hq' hq)
        (fun q hq => List.mem_append_right _ hq) hstring (fun q hq => List.mem_append_left _ (hg.length ▸ hq))
        (fun p hp => ?_) hnew hnode'
      rw [← (hg.sign h hp).1]
      exact decide_eq_true_iff

/-! ### The first identifiers -/

/-- `RbTree_add` of a string that the program has. -/
theorem add_yields {node str : Ptr} (h : s.Names t content) (hstr : CString s.mem str bs)
    (hlow : ∀ b ∈ bs, b.toNat < 128) (hlows : ∀ p ∈ t.toList, ∀ b ∈ content p, b.toNat < 128)
    (hlen : bs.length < 2 ^ 64) (hnew : ∀ p ∈ t.toList, content p ≠ bs) (hnode : Nodes (node :: s.nodes))
    (hown : ∀ q ∈ addresses str (bs.length + 1), q ∈ s.names) :
    ∃ s' t', Yields (s.add node str) s' ∧ t'.toList.Perm (node :: t.toList) ∧
      s'.Names t' (Function.update content node bs) ∧ s'.rbt.data = Function.update s.rbt.data node str ∧
      s'.mem = s.mem ∧ s'.names = s.names ∧ s'.nodes = node :: s.nodes := by
  let rbt := { s.rbt with compare := rbTreeCmpString s.mem }
  have htree : rbt.Tree t := h.tree.setCompare
  have hnode' : Nodes (node :: t.toList) := hnode.perm (h.nodes.symm.cons _)
  obtain ⟨rbt', hrun, hdata, -, htree'⟩ := @RbTreeBase.add_yields _ _ str 0 node t htree hnode'
  have hdata' : (rbt'.setData node str).data = Function.update s.rbt.data node str := by
    change Function.update rbt'.data node str = _
    rw [hdata]
  refine ⟨{ s with rbt := rbt'.setData node str, nodes := node :: s.nodes }, t.insert case2Color (rbt.goesLeft str 0) node,
    ?_, RbTreeBase.perm_insert .., ?_, hdata', rfl, rfl, rfl⟩
  · refine (hrun.map fun r => { s with rbt := r.1.setData r.2 str, nodes := node :: s.nodes }).congr fun n => ?_
    rw [add]
    cases rbt.add node str 0 n <;> rfl
  · refine h.insert htree'.setData hdata' rfl (fun q hq => rfl) (fun q hq => hq) hstr hown (fun p hp => ?_) hnew
      (List.nodup_cons.mp hnode'.nodup).1
    rw [← strcmp_sign hstr (h.string p hp) hlow (hlows p hp) hlen]
    exact decide_eq_true_iff

/-! ### Steps of a run -/

/-- The identifiers of a run are the nodes of the tree. -/
structure Canonical (s : IdentCache) (calls : List (List (BitVec 8) × Ptr)) (t : ColorTree Ptr)
    (content : Ptr → List (BitVec 8)) : Prop extends s.Names t content where
  known : ∀ c ∈ calls, ∃ p ∈ t.toList, content p = c.1 ∧ s.rbt.data p = c.2
  called : ∀ p ∈ t.toList, (content p, s.rbt.data p) ∈ calls

namespace Canonical
variable {calls : List (List (BitVec 8) × Ptr)}

theorem keep (hc : Canonical s calls t content) {mem' : CharMemory} (hmem : ∀ q ∈ s.names, mem' q = s.mem q) :
    Canonical { s with mem := mem' } calls t content :=
  ⟨hc.toNames.keep hmem, hc.known, hc.called⟩

theorem insert (hc : Canonical s calls t content) {s' : IdentCache} {t' : ColorTree Ptr} {node name : Ptr}
    (hperm : t'.toList.Perm (node :: t.toList)) (hnames : s'.Names t' (Function.update content node bs))
    (hdata : s'.rbt.data = Function.update s.rbt.data node name) (hnode : node ∉ t.toList) :
    Canonical s' ((bs, name) :: calls) t' (Function.update content node bs) := by
  have hother {p : Ptr} (hp : p ∈ t.toList) : p ≠ node := fun heq => hnode (heq ▸ hp)
  refine ⟨hnames, fun c hmem => ?_, fun p hp => ?_⟩
  · rw [hdata]
    rcases List.mem_cons.mp hmem with rfl | hmem
    · exact ⟨node, hperm.mem_iff.mpr List.mem_cons_self, Function.update_self .., Function.update_self ..⟩
    · obtain ⟨p, hp, hpc, hpd⟩ := hc.known c hmem
      refine ⟨p, hperm.mem_iff.mpr (List.mem_cons_of_mem _ hp), ?_, ?_⟩
      · rw [Function.update_of_ne (hother hp), hpc]
      · rw [Function.update_of_ne (hother hp), hpd]
  · rw [hdata]
    rcases List.mem_cons.mp (hperm.mem_iff.mp hp) with rfl | hp
    · rw [Function.update_self, Function.update_self]
      exact List.mem_cons_self
    · rw [Function.update_of_ne (hother hp), Function.update_of_ne (hother hp)]
      exact List.mem_cons_of_mem _ (hc.called p hp)

theorem add (hc : Canonical s calls t content) (node : Ptr) {str : Ptr} (hstr : CString s.mem str bs)
    (hlow : ∀ b ∈ bs, b.toNat < 128) (hlows : ∀ c ∈ calls, ∀ b ∈ c.1, b.toNat < 128) (hlen : bs.length < 2 ^ 64)
    (hnew : ∀ c ∈ calls, c.1 ≠ bs) (hnode : Nodes (node :: s.nodes))
    (hown : ∀ q ∈ addresses str (bs.length + 1), q ∈ s.names) :
    ∃ s' t' content', Yields (s.add node str) s' ∧ Canonical s' ((bs, str) :: calls) t' content' ∧ s'.mem = s.mem ∧
      s'.names = s.names ∧ s'.nodes = node :: s.nodes := by
  obtain ⟨s', t', hrun, hperm, hnames, hdata, hkeep⟩ := add_yields hc.toNames hstr hlow
    (fun p hp => hlows _ (hc.called p hp)) hlen (fun p hp => hnew _ (hc.called p hp)) hnode hown
  have hmem : node ∉ t.toList := (List.nodup_cons.mp (hnode.perm (hc.nodes.symm.cons _)).nodup).1
  exact ⟨s', t', _, hrun, hc.insert hperm hnames hdata hmem, hkeep⟩

theorem foa (hc : Canonical s calls t content) {node name str : Ptr} {size : BitVec 32}
    (hgiven : Given s.mem str size bs) (hfresh : (∀ c ∈ calls, c.1 ≠ bs) → s.Fresh node name str size) :
    ∃ s' p t' content', Yields (s.foa node name str size) (s', p) ∧ Canonical s' ((bs, p) :: calls) t' content' := by
  have hfresh' (hnew : ∀ p ∈ t.toList, content p ≠ bs) : s.Fresh node name str size := by
    refine hfresh fun c hmem heq => ?_
    obtain ⟨p, hp, hpc, -⟩ := hc.known c hmem
    exact hnew p hp (hpc.trans heq)
  rcases foa_yields hc.toNames hgiven hfresh' with ⟨p, hp, rfl, hrun⟩ | ⟨-, s', t', hrun, hperm, hnames, hdata, hnode⟩
  · refine ⟨_, _, t, content, hrun, ⟨hc.tree.setCompare, hc.nodes, hc.string, hc.owned, hc.sorted⟩, fun c hmem => ?_,
      fun q hq => List.mem_cons_of_mem _ (hc.called q hq)⟩
    rcases List.mem_cons.mp hmem with rfl | hmem
    · exact ⟨p, hp, rfl, rfl⟩
    · exact hc.known c hmem
  · exact ⟨s', name, t', _, hrun, hc.insert hperm hnames hdata hnode⟩

/-- Calls give the same name exactly when they were for the same bytes. -/
theorem name_eq_iff (hc : Canonical s calls t content) {c d : List (BitVec 8) × Ptr} (hmem : c ∈ calls)
    (hmem' : d ∈ calls) : c.2 = d.2 ↔ c.1 = d.1 := by
  obtain ⟨p, hp, hpc, hpd⟩ := hc.known c hmem
  obtain ⟨q, hq, hqc, hqd⟩ := hc.known d hmem'
  have hps := hc.string p hp
  have hqs := hc.string q hq
  rw [hpc, hpd] at hps
  rw [hqc, hqd] at hqs
  constructor
  · intro heq
    rw [heq] at hps
    exact hps.unique hqs
  · intro heq
    have hne {p q : Ptr} (hlt : charsOf (content p) < charsOf (content q)) : content p ≠ content q :=
      fun heq => ne_of_lt hlt (congrArg charsOf heq)
    have hinj : ∀ p ∈ t.toList, ∀ q ∈ t.toList, content p = content q → p = q :=
      List.Pairwise.forall_of_forall_of_flip (fun _ _ _ => rfl) (hc.sorted.imp fun hlt heq => absurd heq (hne hlt))
        (hc.sorted.imp fun hlt heq => absurd heq.symm (hne hlt))
    rw [← hpd, ← hqd, hinj p hp q hq (hpc.trans (heq.trans hqc.symm))]

end Canonical

theorem init_canonical {nodeI nodeJ nodeK i j k : Ptr} (hi : CString s.mem i [0x69]) (hj : CString s.mem j [0x6a])
    (hk : CString s.mem k [0x6b]) (hnodes : Nodes [nodeK, nodeJ, nodeI]) :
    ∃ s' t content, Yields (s.init nodeI nodeJ nodeK i j k) s' ∧ s'.mem = s.mem ∧
      Canonical s' [([0x6b], k), ([0x6a], j), ([0x69], i)] t content := by
  let s₀ : IdentCache := { s with
    rbt := { s.rbt with root := 0 }, nodes := [], names := addresses i 2 ++ addresses j 2 ++ addresses k 2 }
  have hc₀ : Canonical s₀ [] .nil fun _ => [] :=
    ⟨⟨RbTreeBase.empty_tree rfl, .refl _, by simp [ColorTree.toList], by simp [ColorTree.toList], .nil⟩,
      by simp, by simp [ColorTree.toList]⟩
  obtain ⟨s₁, t₁, c₁, hrun₁, hc₁, hmem₁, hnames₁, hnodes₁⟩ :=
    hc₀.add nodeI hi (by simp) (by simp) (by simp) (by simp) hnodes.tail.tail fun q hq =>
      List.mem_append_left _ (List.mem_append_left _ hq)
  obtain ⟨s₂, t₂, c₂, hrun₂, hc₂, hmem₂, hnames₂, hnodes₂⟩ :=
    hc₁.add nodeJ (hmem₁ ▸ hj) (by simp) (by simp) (by simp) (by simp) (hnodes₁ ▸ hnodes.tail) fun q hq =>
      hnames₁ ▸ List.mem_append_left _ (List.mem_append_right _ hq)
  obtain ⟨s₃, t₃, c₃, hrun₃, hc₃, hmem₃, -⟩ :=
    hc₂.add nodeK (hmem₂ ▸ hmem₁ ▸ hk) (by simp) (by simp) (by simp) (by simp)
      (hnodes₂ ▸ hnodes₁ ▸ hnodes) fun q hq => hnames₂ ▸ hnames₁ ▸ List.mem_append_right _ hq
  exact ⟨s₃, t₃, c₃, hrun₁.bind (hrun₂.bind hrun₃), hmem₃.trans (hmem₂.trans hmem₁), hc₃⟩

/-! ### Runs -/

/-- The caches after `IdentCache_init` and calls of `Ident_foa`, with the bytes and the name of each identifier so far.
    Before a call the rest of the program may change the memory outside the names. -/
inductive Reaches : List (List (BitVec 8) × Ptr) → IdentCache → Prop
  | init {s s' : IdentCache} {nodeI nodeJ nodeK i j k : Ptr} (hi : CString s.mem i [0x69])
      (hj : CString s.mem j [0x6a]) (hk : CString s.mem k [0x6b]) (hnodes : Nodes [nodeK, nodeJ, nodeI])
      (hcall : Yields (s.init nodeI nodeJ nodeK i j k) s') : Reaches [([0x6b], k), ([0x6a], j), ([0x69], i)] s'
  | foa {calls : List (List (BitVec 8) × Ptr)} {s s' : IdentCache} {mem : CharMemory} {node name str p : Ptr}
      {size : BitVec 32} {bs : List (BitVec 8)} (h : Reaches calls s) (hmem : ∀ q ∈ s.names, mem q = s.mem q)
      (hgiven : Given mem str size bs) (hfresh : (∀ c ∈ calls, c.1 ≠ bs) → Fresh { s with mem } node name str size)
      (hcall : Yields ({ s with mem }.foa node name str size) (s', p)) : Reaches ((bs, p) :: calls) s'

theorem Reaches.canonical {calls : List (List (BitVec 8) × Ptr)} (h : Reaches calls s) :
    ∃ t content, Canonical s calls t content := by
  induction h with
  | @init s s' nodeI nodeJ nodeK i j k hi hj hk hnodes hcall =>
    obtain ⟨s₁, t, content, hrun, -, hc⟩ := init_canonical hi hj hk hnodes
    obtain rfl := hrun.unique hcall
    exact ⟨t, content, hc⟩
  | @foa calls s s' mem node name str p size bs h hmem hgiven hfresh hcall ih =>
    obtain ⟨t, content, hc⟩ := ih
    obtain ⟨s₁, p₁, t', content', hrun, hc'⟩ := (hc.keep hmem).foa hgiven hfresh
    obtain ⟨rfl, rfl⟩ := Prod.mk.inj (hrun.unique hcall)
    exact ⟨t', content', hc'⟩

/-- Two calls give the same name exactly when they were for the same bytes, every name keeps its bytes, and every call
    comes to a name. -/
theorem run_canonical {calls : List (List (BitVec 8) × Ptr)} (h : Reaches calls s) :
    (∀ c ∈ calls, ∀ d ∈ calls, c.2 = d.2 ↔ c.1 = d.1) ∧ (∀ c ∈ calls, CString s.mem c.2 c.1) ∧
      ∀ mem node name str size bs, (∀ q ∈ s.names, mem q = s.mem q) → Given mem str size bs →
        ((∀ c ∈ calls, c.1 ≠ bs) → Fresh { s with mem } node name str size) →
        ∃ r, Yields ({ s with mem }.foa node name str size) r := by
  obtain ⟨t, content, hc⟩ := h.canonical
  refine ⟨fun c hmem d hmem' => hc.name_eq_iff hmem hmem', fun c hmem => ?_,
    fun mem node name str size bs hmem hgiven hfresh => ?_⟩
  · obtain ⟨p, hp, hpc, hpd⟩ := hc.known c hmem
    rw [← hpc, ← hpd]
    exact hc.string p hp
  · obtain ⟨s', p, -, -, hrun, -⟩ := (hc.keep hmem).foa hgiven hfresh
    exact ⟨_, hrun⟩

/-- A call for the bytes of the first identifier, which are at another address. -/
theorem run_canonical_i : ∃ s p, Reaches [([0x69], p), ([0x6b], 48), ([0x6a], 32), ([0x69], 16)] s ∧ p = 16 := by
  let mem : CharMemory := fun q =>
    if q = 16 then 0x69 else if q = 32 then 0x6a else if q = 48 then 0x6b else if q = 64 then 0x69 else 0
  let s : IdentCache := ⟨⟨0, fun _ _ _ => 0, fun _ => 0, fun _ => 0, fun _ => 0, fun _ => 0⟩, mem, [], []⟩
  have hi : CString s.mem 16 [0x69] := ⟨by simp, rfl, rfl, trivial⟩
  have hj : CString s.mem 32 [0x6a] := ⟨by simp, rfl, rfl, trivial⟩
  have hk : CString s.mem 48 [0x6b] := ⟨by simp, rfl, rfl, trivial⟩
  have hnodes : Nodes [160, 128, 96] := ⟨by simp, by simp, by simp⟩
  obtain ⟨s₁, -, -, hinit, hmem, -⟩ := init_canonical hi hj hk hnodes
  have h₁ : Reaches _ s₁ := .init hi hj hk hnodes hinit
  have hgiven : Given s₁.mem 64 1 [0x69] := hmem ▸ ⟨⟨rfl, trivial⟩, rfl, by simp, by simp⟩
  have hfresh : (∀ c ∈ ([([0x6b], 48), ([0x6a], 32), ([0x69], 16)] : List (List (BitVec 8) × Ptr)), c.1 ≠ [0x69]) →
      Fresh { s₁ with mem := s₁.mem } 0 0 64 1 := fun hnew => absurd rfl (hnew ([0x69], 16) (by simp))
  obtain ⟨⟨s₂, p⟩, hcall⟩ := (run_canonical h₁).2.2 s₁.mem 0 0 64 1 [0x69] (fun _ _ => rfl) hgiven hfresh
  have h₂ := h₁.foa (fun _ _ => rfl) hgiven hfresh hcall
  exact ⟨s₂, p, h₂, ((run_canonical h₂).1 ([0x69], p) (by simp) ([0x69], 16) (by simp)).mpr rfl⟩

end IdentCache

end Cyntatic
