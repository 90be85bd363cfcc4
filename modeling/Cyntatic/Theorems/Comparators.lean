import Cyntatic.Theorems.Mnemonics

/-! # The two forms of the string comparators

With the length of the string and without it a comparator has the same sign exactly when the two orders agree where the
strings first differ: on signed and unsigned bytes, and on letters in upper and in lower case. -/

namespace Cyntatic
open Library

variable {mem : CharMemory} {s1 s2 : Ptr} {a b : List U8} {len : BitVec 32}

/-- A byte as a number, which is what `strcmp` compares. -/
def byteKey (c : U8) : Int := c.toNat

/-- A byte in lower case, which is what `strcasecmp` compares. -/
def lowerKey (c : U8) : Int := (toLower c).toNat

/-- What is known of `toupper`: its arguments are the bytes and `EOF`. -/
structure Toupper (upper : Int → Int) : Prop where
  byte : ∀ c, 0 ≤ c → c ≤ 255 → upper c = if 97 ≤ c ∧ c ≤ 122 then c - 32 else c
  eof : upper (-1) = -1

theorem toupper_spec : Toupper toupper := ⟨fun _ _ _ => rfl, rfl⟩

/-- A letter and a byte between the letters in upper case and those in lower case. -/
def Straddles (x y : U8) : Prop := (97 ≤ lowerKey x ∧ lowerKey x ≤ 122) ∧ 91 ≤ byteKey y ∧ byteKey y ≤ 96

instance (x y : U8) : Decidable (Straddles x y) := inferInstanceAs (Decidable ((_ ∧ _) ∧ _ ∧ _))

/-- Two bytes in the same order in upper case and in lower case. -/
structure SameOrder (x y : U8) : Prop where
  left : byteKey x < 128
  right : byteKey y < 128
  above : ¬Straddles x y
  below : ¬Straddles y x

theorem lowerKey_eq (c : U8) : lowerKey c = if 65 ≤ byteKey c ∧ byteKey c ≤ 90 then byteKey c + 32 else byteKey c := by
  rw [lowerKey, byteKey, toLower]
  by_cases h : 65 ≤ c ∧ c ≤ 90
  · rw [if_pos h, if_pos (by bv_omega)]
    bv_omega
  · rw [if_neg h, if_neg (by bv_omega)]

/-- What `toupper` makes of a byte below 128. -/
theorem Toupper.low {upper : Int → Int} (h : Toupper upper) {c : U8} (hc : byteKey c < 128) :
    upper c.toInt = if 97 ≤ byteKey c ∧ byteKey c ≤ 122 then byteKey c - 32 else byteKey c := by
  have hint : c.toInt = byteKey c := BitVec.toInt_eq_toNat_of_lt (by rw [byteKey] at hc; omega)
  rw [hint]
  exact h.byte _ (Int.natCast_nonneg _) (by omega)

theorem byteKey_bounds (c : U8) : 0 ≤ byteKey c ∧ byteKey c < 256 := ⟨Int.natCast_nonneg _, Int.ofNat_lt.mpr c.isLt⟩

theorem toInt_eq (c : U8) : c.toInt = if byteKey c < 128 then byteKey c else byteKey c - 256 := by
  rw [BitVec.toInt_eq_toNat_cond, byteKey]
  split_ifs <;> omega

/-- Two bytes have the same order as signed and as unsigned numbers. -/
theorem sign_signed_iff {x y : U8} (hne : byteKey x ≠ byteKey y) :
    (x.toInt - y.toInt).sign = (byteKey x - byteKey y).sign ↔ (byteKey x < 128 ↔ byteKey y < 128) := by
  have hx := byteKey_bounds x
  have hy := byteKey_bounds y
  rw [toInt_eq, toInt_eq]
  generalize byteKey x = m at *
  generalize byteKey y = n at *
  rw [sign_eq_iff (by split_ifs <;> omega) (by omega)]
  split_ifs <;> omega

/-- Two bytes below 128 have the same order in upper case and in lower case, where neither lies between the cases. -/
theorem sign_upper_iff {upper : Int → Int} (h : Toupper upper) {x y : U8} (hx : byteKey x < 128) (hy : byteKey y < 128)
    (hne : lowerKey x ≠ lowerKey y) :
    (upper x.toInt - upper y.toInt).sign = (lowerKey x - lowerKey y).sign ↔ ¬Straddles x y ∧ ¬Straddles y x := by
  rw [Straddles, Straddles, h.low hx, h.low hy]
  rw [lowerKey_eq, lowerKey_eq] at hne ⊢
  generalize byteKey x = m at *
  generalize byteKey y = n at *
  rw [sign_eq_iff (by split <;> split <;> omega) (by omega)]
  split_ifs at hne ⊢ <;> omega

/-- Bytes that are the same in lower case are the same for `toupper`. -/
theorem Toupper.congr {upper : Int → Int} (h : Toupper upper) {x y : U8} (heq : lowerKey x = lowerKey y) :
    upper x.toInt = upper y.toInt := by
  by_cases hxy : byteKey x = byteKey y
  · rw [show x = y from BitVec.eq_of_toNat_eq (Int.natCast_inj.mp hxy)]
  · rw [lowerKey_eq, lowerKey_eq] at heq
    have hx : byteKey x < 128 := by split at heq <;> split at heq <;> omega
    have hy : byteKey y < 128 := by split at heq <;> split at heq <;> omega
    rw [h.low hx, h.low hy]
    split_ifs at heq ⊢ <;> omega

theorem Toupper.ne {upper : Int → Int} (h : Toupper upper) {x y : U8} (hx : byteKey x < 128) (hy : byteKey y < 128)
    (hne : lowerKey x ≠ lowerKey y) : upper x.toInt ≠ upper y.toInt := by
  rw [lowerKey_eq, lowerKey_eq] at hne
  rw [h.low hx, h.low hy]
  split_ifs at hne ⊢ <;> omega

/-! ### Arguments that `toupper` does not have -/

/-- Another function that is known no less of: it turns the order of the other numbers round. -/
def turned (c : Int) : Int := if c < -1 then -c else toupper c

theorem turned_spec : Toupper turned := ⟨fun c hc _ => if_neg (by omega), rfl⟩

/-- Of two bytes that are not both below 128, one of the functions has another order. -/
theorem exists_sign_ne {x y : U8} (hne : lowerKey x ≠ lowerKey y) (h : ¬(byteKey x < 128 ∧ byteKey y < 128)) :
    ∃ upper, Toupper upper ∧ upper x.toInt ≠ upper y.toInt ∧
      (upper x.toInt - upper y.toInt).sign ≠ (lowerKey x - lowerKey y).sign := by
  have hx := byteKey_bounds x
  have hy := byteKey_bounds y
  rw [lowerKey_eq, lowerKey_eq] at hne ⊢
  rw [toInt_eq, toInt_eq]
  generalize byteKey x = m at *
  generalize byteKey y = n at *
  by_cases hhigh : 128 ≤ m ∧ 128 ≤ n
  · have hdiff : turned (m - 256) ≠ turned (n - 256) := by
      rw [turned, turned, toupper, toupper]
      split_ifs at hne ⊢ <;> omega
    refine ⟨turned, turned_spec, ?_⟩
    rw [if_neg (show ¬m < 128 by omega), if_neg (show ¬n < 128 by omega)]
    refine ⟨hdiff, fun hsign => ?_⟩
    rw [sign_eq_iff (sub_ne_zero.mpr hdiff) (sub_ne_zero.mpr hne), turned, turned, toupper, toupper] at hsign
    split_ifs at hne hsign <;> omega
  · have hdiff : toupper (if m < 128 then m else m - 256) ≠ toupper (if n < 128 then n else n - 256) := by
      rw [toupper, toupper]
      split_ifs at hne ⊢ <;> omega
    refine ⟨toupper, toupper_spec, hdiff, fun hsign => ?_⟩
    rw [sign_eq_iff (sub_ne_zero.mpr hdiff) (sub_ne_zero.mpr hne), toupper, toupper] at hsign
    split_ifs at hne hsign <;> omega

/-! ### Strings -/

theorem cmpString_sign_iff (h1 : CString mem s1 a) (h2 : CString mem s2 b) (ha : a ≠ []) (hlen : a.length = len.toNat) :
    (rbTreeCmpString mem s1 len s2).sign = (rbTreeCmpString mem s1 0 s2).sign ↔
      ∀ x y, firstDifference byteKey a b = some (x, y) → (byteKey x < 128 ↔ byteKey y < 128) := by
  have hlen0 : len ≠ 0 := by
    rintro rfl
    exact ha (List.length_eq_zero_iff.mp hlen)
  have hlt : a.length < 2 ^ 64 := by
    rw [hlen]
    omega
  have hkey {x y : U8} (heq : byteKey x = byteKey y) : x = y := BitVec.eq_of_toNat_eq (Int.natCast_inj.mp heq)
  rw [rbTreeCmpString, rbTreeCmpString, if_neg hlen0, if_pos rfl, ← hlen, strncmp_eq (bytesAt_append.mp h1.2).1 h2,
    strcmp_eq h1 h2 hlt]
  refine (@sign_lexCompare_iff _ byteKey _ _ _ (fun x _ y _ heq => by rw [hkey heq]) fun x y hxy heq => ?_).trans ?_
  · exact (firstDifference_spec hxy).2.2 (by rw [BitVec.toInt_inj.mp heq])
  · exact forall₂_congr fun x y => imp_congr_right fun hxy => sign_signed_iff (firstDifference_spec hxy).2.2

theorem caseCmpString_sign_iff (h1 : CString mem s1 a) (h2 : CString mem s2 b) (ha : a ≠ [])
    (hlen : a.length = len.toNat) :
    (∀ upper, Toupper upper →
        (rbTreeCaseCmpString upper mem s1 len s2).sign = (rbTreeCaseCmpString upper mem s1 0 s2).sign) ↔
      ∀ x y, firstDifference lowerKey a b = some (x, y) → SameOrder x y := by
  have hlen0 : len ≠ 0 := by
    rintro rfl
    exact ha (List.length_eq_zero_iff.mp hlen)
  have hlt : a.length < 2 ^ 64 := by
    rw [hlen]
    omega
  have hsign {upper : Int → Int} (h : Toupper upper)
      (hne : ∀ x y, firstDifference lowerKey a b = some (x, y) → upper x.toInt ≠ upper y.toInt) :
      (rbTreeCaseCmpString upper mem s1 len s2).sign = (rbTreeCaseCmpString upper mem s1 0 s2).sign ↔
        ∀ x y, firstDifference lowerKey a b = some (x, y) →
          (upper x.toInt - upper y.toInt).sign = (lowerKey x - lowerKey y).sign := by
    rw [rbTreeCaseCmpString, rbTreeCaseCmpString, if_neg hlen0, if_pos rfl, ← hlen,
      strncasecmp_eq (bytesAt_append.mp h1.2).1 h2, strcasecmp_eq h1 h2 hlt]
    exact sign_lexCompare_iff (fun x _ y _ heq => h.congr heq) hne
  constructor
  · intro hall x y hxy
    have hne := (firstDifference_spec hxy).2.2
    have hfirst {upper : Int → Int} (hdiff : upper x.toInt ≠ upper y.toInt) (x' y' : U8)
        (hxy' : firstDifference lowerKey a b = some (x', y')) : upper x'.toInt ≠ upper y'.toInt := by
      obtain ⟨rfl, rfl⟩ := Prod.mk.inj (Option.some.inj (hxy'.symm.trans hxy))
      exact hdiff
    by_cases hlow : byteKey x < 128 ∧ byteKey y < 128
    · have hdiff := toupper_spec.ne hlow.1 hlow.2 hne
      have horder := (hsign toupper_spec (hfirst hdiff)).mp (hall toupper toupper_spec) x y hxy
      obtain ⟨habove, hbelow⟩ := (sign_upper_iff toupper_spec hlow.1 hlow.2 hne).mp horder
      exact ⟨hlow.1, hlow.2, habove, hbelow⟩
    · obtain ⟨upper, hupper, hdiff, horder⟩ := exists_sign_ne hne hlow
      exact absurd ((hsign hupper (hfirst hdiff)).mp (hall upper hupper) x y hxy) horder
  · intro hall upper hupper
    refine (hsign hupper fun x y hxy => ?_).mpr fun x y hxy => ?_
    · exact hupper.ne (hall x y hxy).left (hall x y hxy).right (firstDifference_spec hxy).2.2
    · obtain ⟨hx, hy, habove, hbelow⟩ := hall x y hxy
      exact (sign_upper_iff hupper hx hy (firstDifference_spec hxy).2.2).mpr ⟨habove, hbelow⟩

/-- With the length of a string and without it, `RbTree_cmp_string` has the same sign exactly when the bytes at which
    the strings first differ are both below 128 or both not, and `RbTree_case_cmp_string`, whatever `toupper` makes of
    numbers that it does not take, exactly when these bytes have the same order in upper case and in lower case. -/
theorem comparators_agree_iff (h1 : CString mem s1 a) (h2 : CString mem s2 b) (ha : a ≠ []) (hlen : a.length = len.toNat) :
    ((rbTreeCmpString mem s1 len s2).sign = (rbTreeCmpString mem s1 0 s2).sign ↔
      ∀ x y, firstDifference byteKey a b = some (x, y) → (byteKey x < 128 ↔ byteKey y < 128)) ∧
    ((∀ upper, Toupper upper →
        (rbTreeCaseCmpString upper mem s1 len s2).sign = (rbTreeCaseCmpString upper mem s1 0 s2).sign) ↔
      ∀ x y, firstDifference lowerKey a b = some (x, y) → SameOrder x y) :=
  ⟨cmpString_sign_iff h1 h2 ha hlen, caseCmpString_sign_iff h1 h2 ha hlen⟩

/-- The strings `ab` and `aC`. -/
theorem comparators_agree_iff_letters :
    ∃ mem, CString mem 16 [0x61, 0x62] ∧ CString mem 32 [0x61, 0x43] ∧
      (rbTreeCmpString mem 16 2 32).sign = (rbTreeCmpString mem 16 0 32).sign ∧
      (rbTreeCaseCmpString toupper mem 16 2 32).sign = (rbTreeCaseCmpString toupper mem 16 0 32).sign := by
  let mem : CharMemory := fun q =>
    if q = 16 ∨ q = 32 then 0x61 else if q = 17 then 0x62 else if q = 33 then 0x43 else 0
  have h1 : CString mem 16 [0x61, 0x62] := ⟨by simp, rfl, rfl, rfl, trivial⟩
  have h2 : CString mem 32 [0x61, 0x43] := ⟨by simp, rfl, rfl, rfl, trivial⟩
  obtain ⟨hcmp, hcase⟩ := @comparators_agree_iff mem 16 32 _ _ 2 h1 h2 (by simp) rfl
  refine ⟨mem, h1, h2, hcmp.mpr fun x y hxy => ?_, hcase.mpr (fun x y hxy => ?_) toupper toupper_spec⟩
  · obtain ⟨rfl, rfl⟩ := Prod.mk.inj (Option.some.inj hxy)
    decide
  · obtain ⟨rfl, rfl⟩ := Prod.mk.inj (Option.some.inj hxy)
    exact ⟨by decide, by decide, by decide, by decide⟩

/-- The byte 128 and the letter `a` are in another order as signed numbers, and `_` and `a` in upper case. -/
theorem comparators_disagree :
    (¬ ∀ mem s1 s2 a b len, CString mem s1 a → CString mem s2 b → a ≠ [] → a.length = BitVec.toNat len →
      (rbTreeCmpString mem s1 len s2).sign = (rbTreeCmpString mem s1 0 s2).sign) ∧
    ¬ ∀ mem s1 s2 a b len, CString mem s1 a → CString mem s2 b → a ≠ [] → a.length = BitVec.toNat len →
      (rbTreeCaseCmpString toupper mem s1 len s2).sign = (rbTreeCaseCmpString toupper mem s1 0 s2).sign := by
  constructor
  · intro hall
    let mem : CharMemory := fun q => if q = 16 then 0x80 else if q = 32 then 0x61 else 0
    have h := hall mem 16 32 [0x80] [0x61] 1 ⟨by simp, rfl, rfl, trivial⟩ ⟨by simp, rfl, rfl, trivial⟩ (by simp) rfl
    revert h
    decide +kernel
  · intro hall
    let mem : CharMemory := fun q => if q = 16 then 0x5f else if q = 32 then 0x61 else 0
    have h := hall mem 16 32 [0x5f] [0x61] 1 ⟨by simp, rfl, rfl, trivial⟩ ⟨by simp, rfl, rfl, trivial⟩ (by simp) rfl
    revert h
    decide +kernel

end Cyntatic
