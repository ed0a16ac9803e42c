import Mathlib

/-!
# Whole numbers as floating-point numbers

A whole number becomes the nearest floating-point number, which is the nearest one with 53
significant bits, and of two nearest ones the one with the even last bit (`nearestNat`). Here this is
read off the bits that the conversion computes (`holds_ofInt`). So floating-point numbers made of
whole numbers compare like the whole numbers rounded: never the other way round (`rounded_mono`), but
different ones may become the same. Up to `2 ^ 53` they do not (`rounded_of_le`).
-/

namespace TreeWalk

open Float.Model UnpackedFloat

/-! ### Rounding -/

/-- `n` in units of `2 ^ s`, as a whole number: the nearest, and the even one of two. -/
def units (s n : Nat) : Nat :=
  if 2 * (n % 2 ^ s) < 2 ^ s then n / 2 ^ s
  else if 2 * (n % 2 ^ s) = 2 ^ s then n / 2 ^ s + n / 2 ^ s % 2
  else n / 2 ^ s + 1

/-- The nearest number with 53 significant bits. -/
def nearestNat (n : Nat) : Nat :=
  units (n.log2 - 52) n * 2 ^ (n.log2 - 52)

/-- The same for numbers of both signs. -/
def rounded : Int → Int
  | .ofNat n => nearestNat n
  | .negSucc n => -nearestNat (n + 1)

theorem le_units (s n : Nat) : n / 2 ^ s ≤ units s n := by
  unfold units
  split
  · exact Nat.le_refl _
  · split
    · exact Nat.le_add_right _ _
    · exact Nat.le_add_right _ _

theorem units_le (s n : Nat) : units s n ≤ n / 2 ^ s + 1 := by
  unfold units
  split
  · exact Nat.le_add_right _ _
  · split
    · have hbit := Nat.mod_lt (n / 2 ^ s) (show 0 < 2 by decide)
      omega
    · exact Nat.le_refl _

theorem units_mono {s n n' : Nat} (h : n ≤ n') : units s n ≤ units s n' := by
  rcases Nat.lt_or_ge (n / 2 ^ s) (n' / 2 ^ s) with hlt | hge
  · exact (units_le s n).trans (Nat.le_trans hlt (le_units s n'))
  · have hdiv : n / 2 ^ s = n' / 2 ^ s := Nat.le_antisymm (Nat.div_le_div_right h) hge
    have hmod : n % 2 ^ s ≤ n' % 2 ^ s := by
      have hn := Nat.div_add_mod n (2 ^ s)
      have hn' := Nat.div_add_mod n' (2 ^ s)
      rw [hdiv] at hn
      omega
    unfold units
    rw [hdiv]
    split_ifs <;> omega

theorem units_mul (s k : Nat) : units s (k * 2 ^ s) = k := by
  have hpos : 0 < 2 ^ s := Nat.two_pow_pos s
  rw [units, Nat.mul_mod_left, Nat.mul_div_cancel k hpos, if_pos (by omega)]

theorem units_zero (n : Nat) : units 0 n = n := by
  have h := units_mul 0 n
  rwa [pow_zero, Nat.mul_one] at h

/-- Finer units make no difference to a number that is made of coarser ones. -/
theorem units_scale (s t n : Nat) : units (s + t) (n * 2 ^ t) = units s n := by
  have hpos : 0 < 2 ^ t := Nat.two_pow_pos t
  have hdiv : n * 2 ^ t / 2 ^ (s + t) = n / 2 ^ s := by
    rw [pow_add, Nat.mul_div_mul_right _ _ hpos]
  have hmod : n * 2 ^ t % 2 ^ (s + t) = n % 2 ^ s * 2 ^ t := by
    rw [pow_add, Nat.mul_mod_mul_right]
  have hlt : 2 * (n % 2 ^ s * 2 ^ t) < 2 ^ (s + t) ↔ 2 * (n % 2 ^ s) < 2 ^ s := by
    rw [pow_add, ← Nat.mul_assoc, Nat.mul_lt_mul_right hpos]
  have heq : 2 * (n % 2 ^ s * 2 ^ t) = 2 ^ (s + t) ↔ 2 * (n % 2 ^ s) = 2 ^ s := by
    rw [pow_add, ← Nat.mul_assoc, Nat.mul_left_inj hpos.ne']
  simp only [units, hdiv, hmod, hlt, heq]

theorem nearestNat_zero : nearestNat 0 = 0 := by decide

theorem nearestNat_of_lt {n : Nat} (h : n < 2 ^ 53) : nearestNat n = n := by
  have hlog : n.log2 - 52 = 0 := by
    rcases Nat.eq_zero_or_pos n with rfl | hn
    · decide
    · have hlt := (Nat.log2_lt hn.ne').2 h
      omega
  rw [nearestNat, hlog, units_zero, pow_zero, Nat.mul_one]

/-- A power of two is itself a multiple of the units. -/
theorem units_two_pow {s k : Nat} (h : s ≤ k) : units s (2 ^ k) = 2 ^ (k - s) := by
  have hsplit : 2 ^ k = 2 ^ (k - s) * 2 ^ s := by rw [← pow_add, Nat.sub_add_cancel h]
  rw [hsplit, units_mul]

theorem nearestNat_le (n : Nat) : nearestNat n ≤ 2 ^ (n.log2 + 1) := by
  have hn : n ≤ 2 ^ (n.log2 + 1) := Nat.le_of_lt Nat.lt_log2_self
  have hunits := units_mono (s := n.log2 - 52) hn
  rw [units_two_pow (by omega)] at hunits
  calc nearestNat n ≤ 2 ^ (n.log2 + 1 - (n.log2 - 52)) * 2 ^ (n.log2 - 52) :=
        Nat.mul_le_mul_right _ hunits
    _ = 2 ^ (n.log2 + 1) := by rw [← pow_add, Nat.sub_add_cancel (by omega)]

theorem le_nearestNat {n : Nat} (h : n ≠ 0) : 2 ^ n.log2 ≤ nearestNat n := by
  have hunits := units_mono (s := n.log2 - 52) (Nat.log2_self_le h)
  rw [units_two_pow (Nat.sub_le _ _)] at hunits
  calc 2 ^ n.log2 = 2 ^ (n.log2 - (n.log2 - 52)) * 2 ^ (n.log2 - 52) := by
        rw [← pow_add, Nat.sub_add_cancel (Nat.sub_le _ _)]
    _ ≤ nearestNat n := Nat.mul_le_mul_right _ hunits

theorem nearestNat_mono {n n' : Nat} (h : n ≤ n') : nearestNat n ≤ nearestNat n' := by
  rcases Nat.eq_zero_or_pos n with rfl | hn
  · rw [nearestNat_zero]
    exact Nat.zero_le _
  have hn' : n' ≠ 0 := by omega
  have hlog : n.log2 ≤ n'.log2 :=
    (Nat.le_log2 hn').2 ((Nat.log2_self_le hn.ne').trans h)
  rcases Nat.lt_or_eq_of_le hlog with hlt | heq
  · calc nearestNat n ≤ 2 ^ (n.log2 + 1) := nearestNat_le n
      _ ≤ 2 ^ n'.log2 := Nat.pow_le_pow_right (by decide) hlt
      _ ≤ nearestNat n' := le_nearestNat hn'
  · rw [nearestNat, nearestNat, heq]
    exact Nat.mul_le_mul_right _ (units_mono h)

theorem nearestNat_of_le {n : Nat} (h : n ≤ 2 ^ 53) : nearestNat n = n := by
  rcases Nat.lt_or_eq_of_le h with hlt | rfl
  · exact nearestNat_of_lt hlt
  · decide

theorem rounded_mono {a b : Int} (h : a ≤ b) : rounded a ≤ rounded b := by
  cases a with
  | ofNat n =>
    cases b with
    | ofNat n' => exact Int.ofNat_le.2 (nearestNat_mono (Int.ofNat_le.1 h))
    | negSucc n' =>
      have hneg := Int.lt_of_le_of_lt h (Int.negSucc_lt_zero n')
      exact absurd hneg (Int.not_lt.2 (Int.natCast_nonneg n))
  | negSucc n =>
    cases b with
    | ofNat n' =>
      show -(nearestNat (n + 1) : Int) ≤ (nearestNat n' : Int)
      omega
    | negSucc n' =>
      have hle : nearestNat (n' + 1) ≤ nearestNat (n + 1) := nearestNat_mono (by omega)
      show -(nearestNat (n + 1) : Int) ≤ -(nearestNat (n' + 1) : Int)
      omega

theorem rounded_of_le {a : Int} (h : a.natAbs ≤ 2 ^ 53) : rounded a = a := by
  cases a with
  | ofNat n => exact congrArg Int.ofNat (nearestNat_of_le h)
  | negSucc n =>
    have hn : nearestNat (n + 1) = n + 1 := nearestNat_of_le h
    show -(nearestNat (n + 1) : Int) = Int.negSucc n
    rw [hn]
    rfl

/-! ### Mantissas -/

/-- Moving a mantissa `j + 1` bits to the right leaves the bit behind its end, and whether anything
stood further behind. -/
theorem shiftRight_exact (m j : Nat) : (⟨m, false, false⟩ : ExtendedMantissa) >>> (j + 1) =
    ⟨m / 2 ^ (j + 1), m / 2 ^ j % 2 != 0, m % 2 ^ j != 0⟩ := by
  induction j with
  | zero => simp [HShiftRight.hShiftRight, Nat.repeat, ExtendedMantissa.shiftRightOne, Nat.mod_one]
  | succ j ih =>
    have hstep : (⟨m, false, false⟩ : ExtendedMantissa) >>> (j + 1 + 1) =
        ((⟨m, false, false⟩ : ExtendedMantissa) >>> (j + 1)).shiftRightOne := rfl
    have hdiv : m / 2 ^ (j + 1) / 2 = m / 2 ^ (j + 1 + 1) := by
      rw [Nat.div_div_eq_div_mul, ← pow_succ]
    have hsticky : (m / 2 ^ j % 2 != 0 || m % 2 ^ j != 0) = (m % 2 ^ (j + 1) != 0) := by
      rw [Nat.mod_pow_succ, Bool.eq_iff_iff]
      have hpos : 0 < 2 ^ j := Nat.two_pow_pos j
      simp only [Bool.or_eq_true, bne_iff_ne, ne_eq, Nat.add_eq_zero_iff, Nat.mul_eq_zero]
      omega
    rw [hstep, ih, ExtendedMantissa.shiftRightOne]
    simp only [hdiv, hsticky]

/-- Rounding to even is what `units` does. -/
theorem roundedMantissa_shiftRight (m j : Nat) :
    ((⟨m, false, false⟩ : ExtendedMantissa) >>> j).roundedMantissa = units j m := by
  cases j with
  | zero =>
    rw [units_zero]
    rfl
  | succ j =>
    have hpos : 0 < 2 ^ j := Nat.two_pow_pos j
    have hmod := Nat.mod_pow_succ (x := m) (b := 2) (k := j)
    have hlt := Nat.mod_lt m hpos
    have htwice : 2 ^ (j + 1) = 2 * 2 ^ j := by rw [pow_succ, Nat.mul_comm]
    rw [shiftRight_exact, units, hmod, htwice]
    rcases Nat.mod_two_eq_zero_or_one (m / 2 ^ j) with hbit | hbit
    · rw [hbit, if_pos (by omega)]
      cases hrest : (m % 2 ^ j != 0) <;> rfl
    · rw [hbit, if_neg (by omega)]
      by_cases hrest : m % 2 ^ j = 0
      · rw [hrest, if_pos (by omega)]
        rfl
      · have hsticky : (m % 2 ^ j != 0) = true := bne_iff_ne.2 hrest
        rw [hsticky, if_neg (by omega)]
        rfl

theorem shiftToTarget {m j : Nat} {e : Int} (hm : m.log2 = 52 + j) (he : -1074 ≤ e + j) :
    shiftToTargetExponent Format.binary64 m e .exact =
      ((⟨m, false, false⟩ : ExtendedMantissa) >>> j, e + j) := by
  have htarget : Format.binary64.targetExponent (totalExponent m e) = e + j := by
    simp only [Format.targetExponent, totalExponent, Format.mantissaBits, Format.minExponent, hm]
    norm_num
    omega
  have hshift : (e + j - e).toNat = j := by omega
  unfold shiftToTargetExponent shiftToExponent
  simp only [htarget, hshift]
  rfl

/-- A mantissa with `j` bits too many is rounded; if it then has one bit too many again, the bit is
zero. -/
theorem round_exact {m j : Nat} {e : Int} (s : Sign) (hm : m.log2 = 52 + j) (he : -1074 ≤ e + j) :
    ∃ (m' i : Nat) (hm' : 0 < m'), 2 ^ 52 ≤ m' ∧ m' < 2 ^ 53 ∧ i ≤ 1 ∧ m' * 2 ^ i = units j m ∧
      roundWithAccuracy Format.binary64 s m e .exact = .finite s m' (e + j + i) hm' := by
  have hne : m ≠ 0 := by
    rintro rfl
    rw [Nat.log2_zero] at hm
    omega
  have hlow : 2 ^ 52 ≤ units j m := by
    have hunits := units_mono (s := j) (Nat.log2_self_le hne)
    rwa [hm, units_two_pow (by omega), Nat.add_sub_cancel] at hunits
  have hhigh : units j m ≤ 2 ^ 53 := by
    have hunits := units_mono (s := j) (Nat.le_of_lt (Nat.lt_log2_self (n := m)))
    rwa [hm, units_two_pow (by omega), show 52 + j + 1 - j = 53 by omega] at hunits
  have hround : ∀ (em : ExtendedMantissa) (e' : Int) (hem : 0 < em.mantissa),
      shiftToTargetExponent Format.binary64 (units j m) (e + j) .exact = (em, e') →
      roundWithAccuracy Format.binary64 s m e .exact = .finite s em.mantissa e' hem := by
    intro em e' hem hshift
    rw [roundWithAccuracy, shiftToTarget hm he]
    simp only [roundedMantissa_shiftRight, hshift]
    rw [dif_neg hem.ne']
  rcases Nat.lt_or_eq_of_le hhigh with hlt | heq
  · have hlog : (units j m).log2 = 52 + 0 := (Nat.log2_eq_iff (by omega)).2 ⟨hlow, hlt⟩
    have hpos : 0 < units j m := by omega
    refine ⟨units j m, 0, hpos, hlow, hlt, by decide, by rw [pow_zero, Nat.mul_one], ?_⟩
    exact hround ⟨units j m, false, false⟩ _ hpos (shiftToTarget hlog (e := e + j) (by omega))
  · have hlog : (units j m).log2 = 52 + 1 := by
      rw [heq]
      decide
    have hshift := shiftToTarget hlog (e := e + j) (by omega)
    have hhalf : (⟨units j m, false, false⟩ : ExtendedMantissa) >>> 1 = ⟨2 ^ 52, false, false⟩ := by
      rw [heq, shiftRight_exact]
      rfl
    rw [hhalf] at hshift
    refine ⟨2 ^ 52, 1, by decide, by decide, by decide, by decide, by rw [heq]; decide, ?_⟩
    exact hround _ _ (by decide) hshift

/-! ### Packing -/

/-- A number in normal form is what its bits say. -/
theorem unpack_pack_finite {s : Sign} {m : Nat} {k : Nat} (hm : 0 < m) (hlow : 2 ^ 52 ≤ m)
    (hhigh : m < 2 ^ 53) (hk : k ≤ 1000) :
    (Float.Model.pack (.finite s m ((k : Int) - 52) hm)).unpack =
      .finite s m ((k : Int) - 52) hm := by
  have hlog : m.log2 = 52 := (Nat.log2_eq_iff hm.ne').2 ⟨hlow, hhigh⟩
  have hbiased : ((k : Int) - 52 + 1023 + 52).toNat = k + 1023 := by omega
  have hpack : UnpackedFloat.pack Format.binary64 (.finite s m ((k : Int) - 52) hm) =
      packComponents Format.binary64 s (BitVec.ofNat 11 (k + 1023)) (BitVec.ofNat 52 m) := by
    simp only [UnpackedFloat.pack, Format.exponentBias, Format.mantissaBits, hlog]
    norm_num
    rw [hbiased, if_neg (by omega)]
  have hexponent : (BitVec.ofNat 11 (k + 1023)).toNat = k + 1023 := by
    rw [BitVec.toNat_ofNat, Nat.mod_eq_of_lt (by omega)]
  have hnotMax : BitVec.ofNat 11 (k + 1023) ≠ -1#11 := by
    intro heq
    have hnat := congrArg BitVec.toNat heq
    rw [hexponent] at hnat
    have hmax : (-1#11).toNat = 2047 := by decide
    omega
  have hnotMin : BitVec.ofNat 11 (k + 1023) ≠ 0#11 := by
    intro heq
    have hnat := congrArg BitVec.toNat heq
    rw [hexponent] at hnat
    have hmin : (0#11).toNat = 0 := by decide
    omega
  have hmantissa : (1#1 ++ BitVec.ofNat 52 m).toNat = m := by
    rw [BitVec.toNat_append, BitVec.toNat_ofNat, BitVec.toNat_ofNat,
      ← Nat.shiftLeft_add_eq_or_of_lt (Nat.mod_lt _ (by decide))]
    omega
  have hunbiased : ((k + 1023 : Nat) : Int) - (Format.binary64.exponentBias + (52 : Nat)) =
      (k : Int) - 52 := by
    have hbias : Format.binary64.exponentBias = 1023 := rfl
    omega
  have hunpack : (Float.Model.pack (.finite s m ((k : Int) - 52) hm)).unpack =
      UnpackedFloat.unpack Format.binary64
        (packComponents Format.binary64 s (BitVec.ofNat 11 (k + 1023)) (BitVec.ofNat 52 m)) := by
    rw [← hpack]
    rfl
  rw [hunpack]
  unfold UnpackedFloat.unpack
  simp only [unpackExponent_packComponents, unpackMantissa_packComponents,
    unpackSign_packComponents, Sign.ofBitVec_toBitVec, if_neg hnotMax, if_neg hnotMin, hmantissa, hexponent]
  simp only [hunbiased]

theorem unpack_pack_zero (s : Sign) : (Float.Model.pack (.zero s)).unpack = .zero s := by
  cases s <;> rfl

/-! ### Values -/

/-- The number is in normal form and has the value `z`. -/
inductive Holds : UnpackedFloat → Int → Prop
  | zero {s : Sign} : Holds (.zero s) 0
  | finite {s : Sign} {m k : Nat} {z : Int} {hm : 0 < m} (hlow : 2 ^ 52 ≤ m) (hhigh : m < 2 ^ 53)
      (hk : k ≤ 1000) (hz : s.apply z * 2 ^ 52 = (m * 2 ^ k : Nat)) :
    Holds (.finite s m ((k : Int) - 52) hm) z

variable {u v : UnpackedFloat} {a b z : Int}

theorem Holds.unpack_pack (h : Holds u z) : (Float.Model.pack u).unpack = u := by
  cases h with
  | zero => exact unpack_pack_zero _
  | finite hlow hhigh hk => exact unpack_pack_finite _ hlow hhigh hk

theorem Holds.neg (h : Holds u z) : Holds u.neg (-z) := by
  cases h with
  | zero => exact .zero
  | @finite s m k _ hm hlow hhigh hk hz =>
    refine .finite hlow hhigh hk (Eq.trans ?_ hz)
    cases s with
    | positive => exact congrArg (· * 2 ^ 52) (Int.neg_neg z)
    | negative => rfl

/-- Numbers in normal form are compared by their exponents first. -/
theorem compare_normal {m m' : Nat} (k k' : Nat) (hm : 2 ^ 52 ≤ m ∧ m < 2 ^ 53)
    (hm' : 2 ^ 52 ≤ m' ∧ m' < 2 ^ 53) :
    (compare ((k : Int) - 52) ((k' : Int) - 52)).then (compare m m') =
      compare (m * 2 ^ k) (m' * 2 ^ k') := by
  -- a greater exponent makes the greater number, whatever the mantissas
  have hless : ∀ {m m' k k' : Nat}, m < 2 ^ 53 → 2 ^ 52 ≤ m' → k < k' →
      m * 2 ^ k < m' * 2 ^ k' := by
    intro m m' k k' hhigh hlow hk
    calc m * 2 ^ k < 2 ^ 53 * 2 ^ k := Nat.mul_lt_mul_of_pos_right hhigh (Nat.two_pow_pos k)
      _ = 2 ^ 52 * 2 ^ (k + 1) := by ring
      _ ≤ m' * 2 ^ k' := Nat.mul_le_mul hlow (Nat.pow_le_pow_right (by decide) hk)
  rcases Nat.lt_trichotomy k k' with hlt | rfl | hgt
  · have hexponent : compare ((k : Int) - 52) ((k' : Int) - 52) = .lt :=
      Int.compare_eq_lt.2 (by omega)
    rw [hexponent, Nat.compare_eq_lt.2 (hless hm.2 hm'.1 hlt)]
    rfl
  · have hexponent : compare ((k : Int) - 52) ((k : Int) - 52) = .eq := Int.compare_eq_eq.2 rfl
    have hpos := Nat.two_pow_pos k
    rw [hexponent]
    show compare m m' = _
    rcases Nat.lt_trichotomy m m' with hlt | rfl | hgt
    · rw [Nat.compare_eq_lt.2 hlt, Nat.compare_eq_lt.2 (Nat.mul_lt_mul_of_pos_right hlt hpos)]
    · rw [Nat.compare_eq_eq.2 rfl, Nat.compare_eq_eq.2 rfl]
    · rw [Nat.compare_eq_gt.2 hgt, Nat.compare_eq_gt.2 (Nat.mul_lt_mul_of_pos_right hgt hpos)]
  · have hexponent : compare ((k : Int) - 52) ((k' : Int) - 52) = .gt :=
      Int.compare_eq_gt.2 (by omega)
    rw [hexponent, Nat.compare_eq_gt.2 (hless hm'.2 hm.1 hgt)]
    rfl

theorem compare_of_scaled {x y : Nat} (ha : a * 2 ^ 52 = x) (hb : b * 2 ^ 52 = y) :
    compare x y = compare a b := by
  rcases Int.lt_trichotomy a b with hlt | rfl | hgt
  · rw [Int.compare_eq_lt.2 hlt, Nat.compare_eq_lt]
    omega
  · rw [Int.compare_eq_eq.2 rfl, Nat.compare_eq_eq]
    omega
  · rw [Int.compare_eq_gt.2 hgt, Nat.compare_eq_gt]
    omega

/-- The sign of a number other than zero is that of its value. -/
theorem apply_pos {s : Sign} {m k : Nat} (hm : 0 < m)
    (hz : s.apply z * 2 ^ 52 = (m * 2 ^ k : Nat)) : 0 < s.apply z := by
  have hpos : 0 < m * 2 ^ k := Nat.mul_pos hm (Nat.two_pow_pos k)
  omega

/-- A minus sign turns the order around. -/
theorem compare_neg_neg (a b : Int) : compare (-b) (-a) = compare a b := by
  rcases Int.lt_trichotomy a b with hlt | rfl | hgt
  · rw [Int.compare_eq_lt.2 hlt, Int.compare_eq_lt.2 (by omega)]
  · rw [Int.compare_eq_eq.2 rfl, Int.compare_eq_eq.2 rfl]
  · rw [Int.compare_eq_gt.2 hgt, Int.compare_eq_gt.2 (by omega)]

/-- Numbers are compared by their values. -/
theorem Holds.compare (h : Holds u a) (h' : Holds v b) :
    UnpackedFloat.compare u v = some (compare a b) := by
  cases h with
  | zero =>
    cases h' with
    | zero => rfl
    | @finite s m k _ hm hlow hhigh hk hz =>
      have hsign := apply_pos hm hz
      cases s with
      | positive =>
        change 0 < b at hsign
        rw [Int.compare_eq_lt.2 hsign]
        rfl
      | negative =>
        change 0 < -b at hsign
        rw [Int.compare_eq_gt.2 (by omega)]
        rfl
  | @finite s m k _ hm hlow hhigh hk hz =>
    have hsign := apply_pos hm hz
    cases h' with
    | zero =>
      cases s with
      | positive =>
        change 0 < a at hsign
        rw [Int.compare_eq_gt.2 hsign]
        rfl
      | negative =>
        change 0 < -a at hsign
        rw [Int.compare_eq_lt.2 (by omega)]
        rfl
    | @finite s' m' k' _ hm' hlow' hhigh' hk' hz' =>
      have hsign' := apply_pos hm' hz'
      have hnormal := compare_normal k k' ⟨hlow, hhigh⟩ ⟨hlow', hhigh'⟩
      cases s with
      | positive =>
        cases s' with
        | positive =>
          change a * 2 ^ 52 = _ at hz
          change b * 2 ^ 52 = _ at hz'
          rw [UnpackedFloat.compare, hnormal, compare_of_scaled hz hz']
        | negative =>
          change 0 < a at hsign
          change 0 < -b at hsign'
          rw [Int.compare_eq_gt.2 (by omega)]
          rfl
      | negative =>
        cases s' with
        | positive =>
          change 0 < -a at hsign
          change 0 < b at hsign'
          rw [Int.compare_eq_lt.2 (by omega)]
          rfl
        | negative =>
          change -a * 2 ^ 52 = _ at hz
          change -b * 2 ^ 52 = _ at hz'
          rw [UnpackedFloat.compare, hnormal, compare_of_scaled hz hz', Int.compare_swap,
            compare_neg_neg]

/-! ### Conversion -/

theorem log2_mul_two_pow {n : Nat} (h : n ≠ 0) (t : Nat) : (n * 2 ^ t).log2 = n.log2 + t := by
  have hpos := Nat.two_pow_pos t
  refine (Nat.log2_eq_iff (Nat.mul_ne_zero h hpos.ne')).2 ⟨?_, ?_⟩
  · rw [pow_add]
    exact Nat.mul_le_mul_right _ (Nat.log2_self_le h)
  · calc n * 2 ^ t < 2 ^ (n.log2 + 1) * 2 ^ t := Nat.mul_lt_mul_of_pos_right Nat.lt_log2_self hpos
      _ = 2 ^ (n.log2 + t + 1) := by ring

/-- A mantissa `m` with `j` bits too many, at an exponent that leaves `K` for the rounded one. -/
theorem holds_round {m j K : Nat} {e : Int} (s : Sign) (hm : m.log2 = 52 + j)
    (he : e + j = (K : Int) - 52) (hK : K < 1000)
    (hz : s.apply z * 2 ^ 52 = (units j m * 2 ^ K : Nat)) :
    Holds (roundWithAccuracy Format.binary64 s m e .exact) z := by
  obtain ⟨m', i, hm', hlow, hhigh, hi, hvalue, hround⟩ := round_exact s hm (e := e) (by omega)
  have hexponent : e + j + i = ((K + i : Nat) : Int) - 52 := by omega
  rw [hround]
  simp only [hexponent]
  refine .finite hlow hhigh (by omega) (hz.trans ?_)
  rw [← hvalue]
  congr 1
  ring

/-- A number with fewer than 54 bits is its own nearest one. -/
theorem holds_round_small {n : Nat} (hn : n ≠ 0) (h : n < 2 ^ 53) :
    Holds (UnpackedFloat.round Format.binary64 .positive n 0) n := by
  have hlog : n.log2 < 53 := (Nat.log2_lt hn).2 h
  have htarget : Format.binary64.targetExponent (totalExponent n 0) = (n.log2 : Int) - 52 := by
    simp only [Format.targetExponent, totalExponent, Format.mantissaBits, Format.minExponent]
    norm_num
    omega
  have hshift : (0 - ((n.log2 : Int) - 52)).toNat = 52 - n.log2 := by omega
  unfold UnpackedFloat.round
  simp only [htarget, decreaseExponent, hshift, Nat.shiftLeft_eq]
  refine holds_round (j := 0) (K := n.log2) .positive ?_ (by omega) (by omega) ?_
  · rw [log2_mul_two_pow hn]
    omega
  · have hvalue : n * 2 ^ (52 - n.log2) * 2 ^ n.log2 = n * 2 ^ 52 := by
      rw [Nat.mul_assoc, ← pow_add, Nat.sub_add_cancel (by omega)]
    rw [units_zero, hvalue]
    push_cast
    rfl

/-- The floating-point number one. -/
theorem unpack_one : (Float.exactlyRepresentablePowersOfTen[0]).toModel.unpack =
    .finite .positive (2 ^ 52) (-52) (by decide) := by
  rfl

theorem Holds.mul_one (h : Holds u z) (hpos : 0 < z) (hlt : z < 2 ^ 64) :
    Holds (UnpackedFloat.mul Format.binary64 u (.finite .positive (2 ^ 52) (-52) (by decide)))
      z := by
  cases h with
  | zero => exact absurd hpos (by decide)
  | @finite s m k _ hm hlow hhigh hk hz =>
    have hlog : m.log2 = 52 := (Nat.log2_eq_iff hm.ne').2 ⟨hlow, hhigh⟩
    have hsign : s * .positive = s := by cases s <;> rfl
    have hsmall : k < 64 := by
      by_contra hge
      have hle : 2 ^ 52 * 2 ^ 64 ≤ m * 2 ^ k :=
        Nat.mul_le_mul hlow (Nat.pow_le_pow_right (by decide) (Nat.le_of_not_lt hge))
      have happly : s.apply z ≤ z := by
        cases s with
        | positive => exact Int.le_refl z
        | negative =>
          show -z ≤ z
          omega
      omega
    rw [UnpackedFloat.mul, hsign]
    refine holds_round (j := 52) (K := k) s ?_ (by omega) (by omega) ?_
    · rw [log2_mul_two_pow hm.ne', hlog]
    · rw [units_mul 52 m]
      exact hz

theorem holds_ofNat_small {n : Nat} (hn : n ≠ 0) (h : n < 2 ^ 53) :
    Holds (Float.ofNat n).toModel.unpack (nearestNat n) := by
  have hfloat : Float.ofNat n = n.toUInt64.toFloat * Float.exactlyRepresentablePowersOfTen[0] :=
    dif_pos ⟨h, Nat.zero_le _⟩
  have hconvert : n.toUInt64.toFloat.toModel.unpack =
      (Float.Model.pack (UnpackedFloat.round Format.binary64 .positive n 0)).unpack := by
    have hnat : n.toUInt64.toNat = n := by
      rw [Nat.toUInt64, UInt64.toNat_ofNat']
      exact Nat.mod_eq_of_lt (by omega)
    have hgt : compare (n : Int) 0 = .gt := Int.compare_eq_gt.2 (by omega)
    show (Float.Model.pack (UnpackedFloat.normalize Format.binary64
      (n.toUInt64.toNat : Int) 0 .positive)).unpack = _
    rw [hnat, UnpackedFloat.normalize, hgt]
    rfl
  have hsmall := holds_round_small hn h
  rw [hsmall.unpack_pack] at hconvert
  have hone := hsmall.mul_one (by omega) (by omega)
  have hmul : (Float.ofNat n).toModel.unpack = (Float.Model.pack (UnpackedFloat.mul
      Format.binary64 n.toUInt64.toFloat.toModel.unpack
        (Float.exactlyRepresentablePowersOfTen[0]).toModel.unpack)).unpack := by
    rw [hfloat]
    rfl
  rw [hmul, hconvert, unpack_one, hone.unpack_pack, nearestNat_of_lt h]
  exact hone

theorem holds_ofNat_large {n : Nat} (h : 2 ^ 53 ≤ n) (hlt : n < 2 ^ 64) :
    Holds (Float.ofNat n).toModel.unpack (nearestNat n) := by
  have hn : n ≠ 0 := by omega
  have hlow : 53 ≤ n.log2 := (Nat.le_log2 hn).2 h
  have hhigh : n.log2 < 64 := (Nat.log2_lt hn).2 hlt
  have hfloat : Float.ofNat n = Float.ofModel (Float.Model.ofScientific n 0) :=
    dif_neg fun hsmall => Nat.not_lt.2 h hsmall.1
  have hscientific : UnpackedFloat.ofScientific Format.binary64 n 0 =
      roundWithAccuracy Format.binary64 .positive (n * 2 ^ 53) (-53) .exact := by
    have hrange : (2 : Int) ^ Format.binary64.exponentBits = 2048 := rfl
    rw [UnpackedFloat.ofScientific, dif_neg hn, if_neg (by decide), if_neg (by omega),
      if_pos (by decide), UnpackedFloat.mul, Nat.shiftLeft_eq]
    have hone : n * 2 ^ 53 * 10 ^ Int.toNat 0 = n * 2 ^ 53 := Nat.mul_one _
    show roundWithAccuracy _ _ (n * 2 ^ 53 * 10 ^ Int.toNat 0) _ _ = _
    rw [hone]
    rfl
  have hround : Holds (UnpackedFloat.ofScientific Format.binary64 n 0) (nearestNat n) := by
    rw [hscientific]
    refine holds_round (j := n.log2 + 1) (K := n.log2) .positive ?_ (by omega) (by omega) ?_
    · rw [log2_mul_two_pow hn]
      omega
    · have hunits : n.log2 + 1 = n.log2 - 52 + 53 := by omega
      have hvalue : nearestNat n * 2 ^ 52 = units (n.log2 + 1) (n * 2 ^ 53) * 2 ^ n.log2 := by
        rw [hunits, units_scale, nearestNat, Nat.mul_assoc, ← pow_add,
          Nat.sub_add_cancel (by omega)]
      rw [← hvalue]
      push_cast
      rfl
  have hunpack : (Float.ofNat n).toModel.unpack =
      (Float.Model.pack (UnpackedFloat.ofScientific Format.binary64 n 0)).unpack := by
    rw [hfloat]
    rfl
  rw [hunpack, hround.unpack_pack]
  exact hround

theorem holds_ofNat {n : Nat} (h : n < 2 ^ 64) :
    Holds (Float.ofNat n).toModel.unpack (nearestNat n) := by
  rcases Nat.eq_zero_or_pos n with rfl | hn
  · have hzero : (Float.ofNat 0).toModel.unpack = .zero .positive := rfl
    rw [hzero]
    exact .zero
  · rcases Nat.lt_or_ge n (2 ^ 53) with hlt | hge
    · exact holds_ofNat_small hn.ne' hlt
    · exact holds_ofNat_large hge h

/-- A whole number is converted to its nearest floating-point number. -/
theorem holds_ofInt {z : Int} (h : z.natAbs < 2 ^ 64) :
    Holds (Float.ofInt z).toModel.unpack (rounded z) := by
  cases z with
  | ofNat n => exact holds_ofNat h
  | negSucc n =>
    have hneg := (holds_ofNat (n := n + 1) h).neg
    have hunpack : (Float.ofInt (.negSucc n)).toModel.unpack =
        (Float.Model.pack (Float.ofNat (n + 1)).toModel.unpack.neg).unpack := rfl
    rw [hunpack, hneg.unpack_pack]
    exact hneg

/-- So they are compared like the numbers rounded. -/
theorem compare_ofInt (ha : a.natAbs < 2 ^ 64) (hb : b.natAbs < 2 ^ 64) :
    (Float.ofInt a < Float.ofInt b ↔ rounded a < rounded b) ∧
    (Float.ofInt a ≤ Float.ofInt b ↔ rounded a ≤ rounded b) ∧
    ((Float.ofInt a == Float.ofInt b) = true ↔ rounded a = rounded b) := by
  have hcompare := (holds_ofInt ha).compare (holds_ofInt hb)
  have hlt : Float.ofInt a < Float.ofInt b ↔
      (Float.ofInt a).toModel.unpack.lt (Float.ofInt b).toModel.unpack = true :=
    decide_eq_true_iff
  have hle : Float.ofInt a ≤ Float.ofInt b ↔
      (Float.ofInt a).toModel.unpack.le (Float.ofInt b).toModel.unpack = true :=
    decide_eq_true_iff
  have heq : (Float.ofInt a == Float.ofInt b) =
      (Float.ofInt a).toModel.unpack.beq (Float.ofInt b).toModel.unpack := rfl
  rw [hlt, hle, heq, UnpackedFloat.lt, UnpackedFloat.le, UnpackedFloat.beq, hcompare]
  rcases Int.lt_trichotomy (rounded a) (rounded b) with h | h | h
  · rw [Int.compare_eq_lt.2 h]
    exact ⟨iff_of_true rfl h, iff_of_true rfl (Int.le_of_lt h),
      iff_of_false (by decide) (by omega)⟩
  · rw [Int.compare_eq_eq.2 h]
    exact ⟨iff_of_false (by decide) (by omega), iff_of_true rfl (by omega), iff_of_true rfl h⟩
  · rw [Int.compare_eq_gt.2 h]
    exact ⟨iff_of_false (by decide) (by omega), iff_of_false (by decide) (by omega),
      iff_of_false (by decide) (by omega)⟩

end TreeWalk
