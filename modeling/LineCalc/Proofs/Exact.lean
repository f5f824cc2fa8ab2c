import Mathlib
import LineCalc.Proofs.Bits
import LineCalc.Proofs.Rounding

/-! Exact arithmetic. A finite number has a rational value. Where the exact sum, difference or
product of two finite numbers is the value of a number, the operation on numbers returns it, and a
zero that it returns may have either sign. -/

namespace LineCalc

namespace Magnitude
variable {code m : Nat} {q e : Int}

theorem IsDecoded.decode_eq (h : IsDecoded code m q) : decode code = (m, q) := by
  obtain ⟨hlt, hmin, -, hnormal, hcode⟩ := h
  have hbits : Nat.pow 2 fractionBits = 2 ^ 52 := rfl
  have hleast : minExponent = -1074 := rfl
  unfold decode
  rw [hbits]
  dsimp only
  split
  · exact Prod.ext (by dsimp only; omega) (by dsimp only; omega)
  · exact Prod.ext (by dsimp only; omega) (by dsimp only; omega)

theorem IsDecoded.value_eq (h : IsDecoded code m q) : value code = m * 2 ^ q := by
  rw [value, h.decode_eq]

theorem IsDecoded.lt_infinity (h : IsDecoded code m q) : code < infinity := by
  obtain ⟨hlt, -, hmax, -, hcode⟩ := h
  have hinfinity : infinity = 2047 * 2 ^ 52 := rfl
  have hleast : minExponent = -1074 := rfl
  omega

theorem value_zero : value 0 = 0 := by
  simp [value, decode]

/-- A short mantissa at any exponent is brought to the form of a code by doubling it. -/
theorem exists_isDecoded (hm : m < 2 ^ 53) (hmin : minExponent ≤ e) (hmax : e ≤ 971) :
    ∃ code k q, IsDecoded code k q ∧ (k : ℚ) * 2 ^ q = m * 2 ^ e := by
  induction hn : (e - minExponent).toNat generalizing m e with
  | zero =>
    have he : e = minExponent := by omega
    exact ⟨m, m, e, ⟨hm, hmin, hmax, .inl he, by omega⟩, rfl⟩
  | succ n ih =>
    by_cases hnormal : 2 ^ 52 ≤ m
    · exact ⟨_, m, e, ⟨hm, hmin, hmax, .inr hnormal, rfl⟩, rfl⟩
    · have hdouble : 2 * m < 2 ^ 53 := by omega
      obtain ⟨code, k, q, hdecoded, hvalue⟩ :=
        ih (e := e - 1) hdouble (by omega) (by omega) (by omega)
      refine ⟨code, k, q, hdecoded, hvalue.trans ?_⟩
      rw [zpow_sub_one₀ two_ne_zero]
      push_cast
      ring

end Magnitude

def Representable (r : ℚ) : Prop :=
  ∃ code m q, Magnitude.IsDecoded code m q ∧ |r| = m * 2 ^ q

theorem Representable.neg {r : ℚ} (h : Representable r) : Representable (-r) := by
  unfold Representable
  rwa [abs_neg]

theorem Representable.exists_pos {r : ℚ} (h : Representable r) (hr : 0 < r) :
    ∃ code m q, Magnitude.IsDecoded code m q ∧ 0 < m ∧ r = m * 2 ^ q := by
  obtain ⟨code, m, q, hdecoded, hvalue⟩ := h
  rw [abs_of_pos hr] at hvalue
  have hm : m ≠ 0 := by
    rintro rfl
    rw [hvalue, Nat.cast_zero, zero_mul] at hr
    exact lt_irrefl 0 hr
  exact ⟨code, m, q, hdecoded, Nat.pos_of_ne_zero hm, hvalue⟩

namespace Number
open Float.Model UnpackedFloat

def value (x : Number) : ℚ := (if x.isNegative then -1 else 1) * Magnitude.value x.magnitude

structure IsExactly (x : Number) (r : ℚ) : Prop where
  isFinite : x.isFinite
  value_eq : x.value = r

/-- What a number is computed in: a zero, or a mantissa of the form that a code has. -/
inductive Canonical : UnpackedFloat → ℚ → Prop
  | zero (s : Sign) : Canonical (.zero s) 0
  | finite {code m q} (s : Sign) (hm : 0 < m) : Magnitude.IsDecoded code m q →
    Canonical (.finite s m q hm) (s.apply m * 2 ^ q)

section
variable {x y : Number} {s : Sign} {code m k : Nat} {q e : Int} {a b r : ℚ} {u v : UnpackedFloat}

theorem isExactly_of_toBits (h : x.toBits.toNat = s.toBitVec.toNat * 2 ^ 63 + code)
    (hcode : code < Magnitude.infinity) : x.IsExactly (s.apply 1 * Magnitude.value code) := by
  have hinfinity : Magnitude.infinity = 2047 * 2 ^ 52 := rfl
  have hmagnitude : x.magnitude = code := by
    rw [magnitude_eq, h]
    omega
  refine ⟨(isFinite_iff x).mpr (hmagnitude ▸ hcode), ?_⟩
  unfold value isNegative
  rw [hmagnitude, h]
  cases s with
  | negative =>
    have hnegative : Nat.pow 2 63 ≤ Sign.negative.toBitVec.toNat * 2 ^ 63 + code := by
      change 2 ^ 63 ≤ 1 * 2 ^ 63 + code
      omega
    rw [decide_eq_true hnegative]
    simp [Sign.apply]
  | positive =>
    have hpositive : ¬ Nat.pow 2 63 ≤ Sign.positive.toBitVec.toNat * 2 ^ 63 + code := by
      change ¬ 2 ^ 63 ≤ 0 * 2 ^ 63 + code
      omega
    rw [decide_eq_false hpositive]
    simp [Sign.apply]

theorem apply_eq (s : Sign) (m : Nat) : (s.apply m : ℚ) = s.apply 1 * m := by
  cases s <;> simp [Sign.apply]

theorem isExactly_of_isDecoded (h : x.toBits.toNat = s.toBitVec.toNat * 2 ^ 63 + code)
    (hcode : Magnitude.IsDecoded code m q) : x.IsExactly (s.apply m * 2 ^ q) := by
  have hexact := isExactly_of_toBits h hcode.lt_infinity
  rwa [hcode.value_eq, ← mul_assoc, ← apply_eq] at hexact

theorem toNat_toBits (x : Number) : x.toBits.toNat =
    (Sign.ofBitVec (@unpackSign .binary64 x.toBits.toBitVec)).toBitVec.toNat * 2 ^ 63 +
      ((@unpackExponent .binary64 x.toBits.toBitVec).toNat * 2 ^ 52 +
        (@unpackMantissa .binary64 x.toBits.toBitVec).toNat) := by
  have hparts := congrArg BitVec.toNat (packComponents_parts x.toBits.toBitVec)
  rw [toNat_packComponents] at hparts
  exact hparts.symm

theorem isDecoded_subnormal {mantissa : ℕ} (hmantissa : mantissa < 2 ^ 52) :
    Magnitude.IsDecoded mantissa mantissa (-1074) := by
  have hleast : Magnitude.minExponent = -1074 := rfl
  constructor <;> omega

theorem isDecoded_normal {exponent mantissa : ℕ} (hpos : exponent ≠ 0) (hexponent : exponent < 2047)
    (hmantissa : mantissa < 2 ^ 52) : Magnitude.IsDecoded (exponent * 2 ^ 52 + mantissa)
      (2 ^ 52 + mantissa) (exponent - 1075) := by
  have hleast : Magnitude.minExponent = -1074 := rfl
  constructor <;> omega

theorem canonical_unpack (h : x.isFinite) : Canonical x.toModel.unpack x.value := by
  have hexponent := (isFinite_iff_exponent x).mp h
  have hbits := x.toNat_toBits
  have hE : (@unpackExponent .binary64 x.toBits.toBitVec).toNat < 2047 := by
    have hlt := (@unpackExponent .binary64 x.toBits.toBitVec).isLt
    have hne : (@unpackExponent .binary64 x.toBits.toBitVec).toNat ≠ 2047 :=
      fun heq => hexponent (BitVec.eq_of_toNat_eq heq)
    change _ < 2048 at hlt
    omega
  have hM : (@unpackMantissa .binary64 x.toBits.toBitVec).toNat < 2 ^ 52 := BitVec.isLt _
  change Canonical (UnpackedFloat.unpack .binary64 x.toBits.toBitVec) _
  unfold UnpackedFloat.unpack
  dsimp only
  rw [if_neg hexponent]
  split
  · rename_i hzero
    have hE0 : (@unpackExponent .binary64 x.toBits.toBitVec).toNat = 0 := by
      rw [hzero, BitVec.toNat_zero]
    rw [hE0, Nat.zero_mul, Nat.zero_add] at hbits
    split
    · rename_i hmantissa
      have hM0 : (@unpackMantissa .binary64 x.toBits.toBitVec).toNat = 0 := by
        rw [hmantissa, BitVec.toNat_zero]
      rw [hM0] at hbits
      rw [(isExactly_of_toBits hbits (by decide)).value_eq, Magnitude.value_zero, mul_zero]
      exact .zero _
    -- a subnormal number has the exponent of the smallest normal ones
    · have hdecoded := isDecoded_subnormal hM
      rw [(isExactly_of_isDecoded hbits hdecoded).value_eq]
      have hleast' : ((@unpackExponent .binary64 x.toBits.toBitVec).toNat : ℤ) -
          (Format.binary64.exponentBias + (52 : ℕ)) + 1 = -1074 := by
        rw [hE0]
        rfl
      rw [hleast']
      exact .finite _ _ hdecoded
  · rename_i hnonzero
    have hE0 : (@unpackExponent .binary64 x.toBits.toBitVec).toNat ≠ 0 :=
      fun heq => hnonzero (BitVec.eq_of_toNat_eq heq)
    have hone := toNat_one_append (@unpackMantissa .binary64 x.toBits.toBitVec)
    have hexp : ((@unpackExponent .binary64 x.toBits.toBitVec).toNat : ℤ) -
        (Format.binary64.exponentBias + (52 : ℕ)) =
          (@unpackExponent .binary64 x.toBits.toBitVec).toNat - 1075 := rfl
    have hdecoded := isDecoded_normal hE0 hE hM
    rw [← hone] at hdecoded
    rw [(isExactly_of_isDecoded hbits hdecoded).value_eq, hexp]
    exact .finite _ _ hdecoded

theorem pack_of_isDecoded (h : Magnitude.IsDecoded code m q) (hm : 0 < m) :
    (UnpackedFloat.pack .binary64 (.finite s m q hm)).toNat =
      s.toBitVec.toNat * 2 ^ 63 + code := by
  obtain ⟨hlt, hmin, hmax, hnormal, rfl⟩ := h
  have hleast : Magnitude.minExponent = -1074 := rfl
  rw [hleast] at hmin hnormal ⊢
  obtain ⟨n, rfl⟩ : ∃ n : ℕ, q = n - 1074 := ⟨(q + 1074).toNat, by omega⟩
  have hfield : ((n : ℤ) - 1074 - -1074).toNat = n := by omega
  have hbiased : ((n : ℤ) - 1074 + Format.binary64.exponentBias +
      Format.binary64.mantissaBitsWithoutImplicit).toNat = n + 1 := by
    change ((n : ℤ) - 1074 + 1023 + 52).toNat = n + 1
    omega
  have hfinite : ¬ 2 ^ 11 ≤ n + 1 + 1 := by omega
  unfold UnpackedFloat.pack
  dsimp only
  rw [hfield, hbiased, if_neg hfinite]
  split
  · rename_i hlog
    replace hlog : m.log2 + 1 = 53 := hlog
    have h52 : 2 ^ 52 ≤ m := (Nat.le_log2 hm.ne').mp (by omega)
    -- the leading bit of the mantissa counts as one more in the field of the exponent
    obtain ⟨k, rfl⟩ := Nat.exists_eq_add_of_le h52
    rw [toNat_packComponents, BitVec.toNat_ofNat, BitVec.toNat_ofNat, Nat.add_mod_left,
      Nat.mod_eq_of_lt (by omega), Nat.mod_eq_of_lt (by omega)]
    ring
  · rename_i hlog
    replace hlog : ¬ m.log2 + 1 = 53 := hlog
    have h53 : m.log2 < 53 := (Nat.log2_lt hm.ne').mpr hlt
    have h52 : m < 2 ^ 52 := (Nat.log2_lt hm.ne').mp (by omega)
    have hn : n = 0 := by omega
    rw [toNat_packComponents, BitVec.toNat_zero, BitVec.toNat_ofNat, Nat.mod_eq_of_lt h52, hn]

theorem isExactly_pack (h : Canonical u r) : IsExactly ⟨Float.Model.pack u⟩ r := by
  cases h with
  | zero s =>
    have hbits : (Float.toBits ⟨Float.Model.pack (.zero s)⟩).toNat =
        s.toBitVec.toNat * 2 ^ 63 + 0 := by
      cases s <;> rfl
    have hzero := isExactly_of_toBits hbits (by decide)
    rwa [Magnitude.value_zero, mul_zero] at hzero
  | finite s hm hdecoded => exact isExactly_of_isDecoded (pack_of_isDecoded hdecoded hm) hdecoded

theorem repeat_shiftRightOne (k n : Nat) :
    Nat.repeat ExtendedMantissa.shiftRightOne n ⟨k * 2 ^ n, false, false⟩ = ⟨k, false, false⟩ := by
  induction n generalizing k with
  | zero => simp [Nat.repeat]
  | succ n ih =>
    have hdouble : k * 2 ^ (n + 1) = 2 * k * 2 ^ n := by ring
    rw [Nat.repeat, hdouble, ih]
    simp [ExtendedMantissa.shiftRightOne]

theorem targetExponent_eq (h : Magnitude.IsDecoded code k q) (hm : 0 < m)
    (hvalue : (m : ℚ) * 2 ^ e = k * 2 ^ q) :
    Format.binary64.targetExponent (totalExponent m e) = q := by
  obtain ⟨hlt, hmin, -, hnormal, -⟩ := h
  have hpow {i j : ℤ} (hij : (2 : ℚ) ^ i < 2 ^ j) : i < j :=
    (zpow_lt_zpow_iff_right₀ one_lt_two).mp hij
  have hlow : (2 : ℚ) ^ (m.log2 + e : ℤ) ≤ k * 2 ^ q := by
    have hlog : (2 : ℚ) ^ (m.log2 : ℤ) ≤ m := by exact_mod_cast Nat.log2_self_le hm.ne'
    rw [← hvalue, zpow_add₀ two_ne_zero]
    gcongr
  have hhigh : (k : ℚ) * 2 ^ q < 2 ^ (m.log2 + 1 + e : ℤ) := by
    have hlog : (m : ℚ) < 2 ^ (m.log2 + 1 : ℤ) := by exact_mod_cast Nat.lt_log2_self
    rw [← hvalue, zpow_add₀ two_ne_zero]
    gcongr
  have hupper : (m.log2 + e : ℤ) < 53 + q := by
    refine hpow (hlow.trans_lt ?_)
    rw [zpow_add₀ two_ne_zero]
    gcongr
    exact_mod_cast hlt
  have hlower (h52 : 2 ^ 52 ≤ k) : 52 + q < (m.log2 + 1 + e : ℤ) := by
    refine hpow (lt_of_le_of_lt ?_ hhigh)
    rw [zpow_add₀ two_ne_zero]
    gcongr
    exact_mod_cast h52
  have hleast : Magnitude.minExponent = -1074 := rfl
  change max (m.log2 + 1 + e - 53) (-1074) = q
  omega

theorem eq_mul_two_pow (hvalue : (m : ℚ) * 2 ^ e = k * 2 ^ q) (hle : e ≤ q) :
    m = k * 2 ^ (q - e).toNat := by
  obtain ⟨n, rfl⟩ : ∃ n : ℕ, q = e + n := ⟨(q - e).toNat, by omega⟩
  have hshift : (e + n - e).toNat = n := by omega
  rw [zpow_add₀ two_ne_zero, zpow_natCast, mul_comm ((2 : ℚ) ^ e), ← mul_assoc] at hvalue
  rw [hshift]
  exact_mod_cast mul_right_cancel₀ (by positivity) hvalue

theorem shiftToTargetExponent_eq (h : Magnitude.IsDecoded code k q) (hk : 0 < k) (hle : e ≤ q)
    (hvalue : (m : ℚ) * 2 ^ e = k * 2 ^ q) :
    shiftToTargetExponent .binary64 m e .exact = (⟨k, false, false⟩, q) := by
  have hm : m = k * 2 ^ (q - e).toNat := eq_mul_two_pow hvalue hle
  have hpos : 0 < m := by
    rw [hm]
    positivity
  have hq : e + (q - e).toNat = q := by omega
  unfold shiftToTargetExponent
  rw [targetExponent_eq h hpos hvalue]
  refine Prod.ext ?_ hq
  change Nat.repeat ExtendedMantissa.shiftRightOne (q - e).toNat ⟨m, false, false⟩ = _
  rw [hm, repeat_shiftRightOne]

theorem roundWithAccuracy_eq (h : Magnitude.IsDecoded code k q) (hk : 0 < k) (hle : e ≤ q)
    (hvalue : (m : ℚ) * 2 ^ e = k * 2 ^ q) (s : Sign) :
    roundWithAccuracy .binary64 s m e .exact = .finite s k q hk := by
  unfold roundWithAccuracy
  rw [shiftToTargetExponent_eq h hk hle hvalue]
  dsimp only [ExtendedMantissa.roundedMantissa, ExtendedMantissa.accuracy,
    Accuracy.roundToNearestEven]
  rw [shiftToTargetExponent_eq h hk le_rfl rfl]
  exact dif_neg hk.ne'

theorem round_eq (h : Magnitude.IsDecoded code k q) (hk : 0 < k) (hm : 0 < m)
    (hvalue : (m : ℚ) * 2 ^ e = k * 2 ^ q) (s : Sign) :
    UnpackedFloat.round .binary64 s m e = .finite s k q hk := by
  unfold UnpackedFloat.round decreaseExponent
  rw [targetExponent_eq h hm hvalue]
  dsimp only
  rcases le_total e q with hle | hle
  · have hnone : (e - q).toNat = 0 := by omega
    rw [hnone, Nat.shiftLeft_zero, Nat.cast_zero, sub_zero]
    exact roundWithAccuracy_eq h hk hle hvalue s
  · have hq : e - (e - q).toNat = q := by omega
    have hk' : k = m * 2 ^ (e - q).toNat := eq_mul_two_pow hvalue.symm hle
    rw [hq, Nat.shiftLeft_eq, ← hk']
    exact roundWithAccuracy_eq h hk le_rfl rfl s

theorem representable_of_apply (h : Representable (s.apply m * r)) : Representable (m * r) := by
  cases s with
  | negative =>
    have hneg := h.neg
    rwa [← neg_mul, ← Int.cast_neg, Sign.apply, neg_neg] at hneg
  | positive => exact h

theorem canonical_of_value (h : Magnitude.IsDecoded code k q) (hk : 0 < k)
    (hvalue : (m : ℚ) * 2 ^ e = k * 2 ^ q) (s : Sign) :
    Canonical (.finite s k q hk) (s.apply m * 2 ^ e) := by
  rw [apply_eq, mul_assoc, hvalue, ← mul_assoc, ← apply_eq]
  exact .finite s hk h

theorem canonical_round (hm : 0 < m) (hr : Representable (s.apply m * 2 ^ e)) :
    Canonical (UnpackedFloat.round .binary64 s m e) (s.apply m * 2 ^ e) := by
  obtain ⟨code, k, q, hdecoded, hk, hvalue⟩ :=
    (representable_of_apply hr).exists_pos (by positivity)
  rw [round_eq hdecoded hk hm hvalue]
  exact canonical_of_value hdecoded hk hvalue s

theorem canonical_normalize {n : ℤ} (hr : Representable (n * 2 ^ e)) (zeroSign : Sign) :
    Canonical (UnpackedFloat.normalize .binary64 n e zeroSign) (n * 2 ^ e) := by
  unfold UnpackedFloat.normalize
  rcases lt_trichotomy n 0 with hn | rfl | hn
  · obtain ⟨m, rfl⟩ : ∃ m : ℕ, n = -m := ⟨(-n).toNat, by omega⟩
    rw [compare_lt_iff_lt.mpr hn, neg_neg, Int.toNat_natCast]
    exact canonical_round (s := .negative) (by omega) hr
  · rw [compare_eq_iff_eq.mpr rfl, Int.cast_zero, zero_mul]
    exact .zero zeroSign
  · obtain ⟨m, rfl⟩ := Int.eq_ofNat_of_zero_le hn.le
    rw [compare_gt_iff_gt.mpr hn]
    exact canonical_round (s := .positive) (by omega) hr

theorem apply_decreaseExponent (hle : e ≤ q) (s : Sign) (m : Nat) :
    (s.apply (decreaseExponent m q e).1 : ℚ) * 2 ^ e = s.apply m * 2 ^ q := by
  obtain ⟨n, rfl⟩ : ∃ n : ℕ, q = e + n := ⟨(q - e).toNat, by omega⟩
  have hshift : (e + n - e).toNat = n := by omega
  unfold decreaseExponent
  dsimp only
  rw [hshift, Nat.shiftLeft_eq, apply_eq, apply_eq s m, zpow_add₀ two_ne_zero, zpow_natCast]
  push_cast
  ring

theorem apply_neg (s : Sign) (n : ℤ) : (-s).apply n = -s.apply n := by
  cases s with
  | negative => exact (neg_neg n).symm
  | positive => rfl

theorem apply_mul_one (s t : Sign) : (s * t).apply 1 = s.apply 1 * t.apply 1 := by
  cases s <;> cases t <;> rfl

theorem Canonical.neg (h : Canonical u r) : Canonical u.neg (-r) := by
  cases h with
  | zero s =>
    rw [neg_zero]
    exact .zero (-s)
  | finite s hm hdecoded =>
    rw [← neg_mul, ← Int.cast_neg, ← apply_neg]
    exact .finite (-s) hm hdecoded

theorem Canonical.add (hu : Canonical u a) (hv : Canonical v b) (h : Representable (a + b)) :
    Canonical (UnpackedFloat.add .binary64 u v) (a + b) := by
  cases hu with
  | zero s =>
    rw [zero_add]
    cases hv with
    | zero t =>
      change Canonical (if s == t then .zero s else .zero .positive) 0
      split
      · exact .zero s
      · exact .zero .positive
    | finite t hn hdecoded => exact .finite t hn hdecoded
  | @finite _ m q s hm hdecoded =>
    cases hv with
    | zero t =>
      rw [add_zero]
      exact .finite s hm hdecoded
    | @finite _ n e t hn hdecoded' =>
      rw [← apply_decreaseExponent (min_le_left q e) s m,
        ← apply_decreaseExponent (min_le_right q e) t n, ← add_mul, ← Int.cast_add] at h ⊢
      exact canonical_normalize h .positive

theorem Canonical.sub_eq (hu : Canonical u a) (hv : Canonical v b) :
    UnpackedFloat.sub .binary64 u v = UnpackedFloat.add .binary64 u v.neg := by
  cases hu with
  | zero s =>
    cases hv with
    | zero t => rfl
    | finite t hn hdecoded => rfl
  | @finite _ m q s hm hdecoded =>
    cases hv with
    | zero t => rfl
    | @finite _ n e t hn hdecoded' =>
      unfold UnpackedFloat.sub UnpackedFloat.add UnpackedFloat.neg
      dsimp only
      rw [apply_neg, sub_eq_add_neg]

theorem Canonical.sub (hu : Canonical u a) (hv : Canonical v b) (h : Representable (a - b)) :
    Canonical (UnpackedFloat.sub .binary64 u v) (a - b) := by
  rw [hu.sub_eq hv]
  rw [sub_eq_add_neg] at h ⊢
  exact hu.add hv.neg h

/-- The exponent of a product is at most that of its value: unless both factors are at the least
exponent, the product has bits enough. -/
theorem add_le_of_value (h : Magnitude.IsDecoded code k q) {n : ℕ} {c d : ℕ} {i j : ℤ}
    (hm : Magnitude.IsDecoded c m i) (hn : Magnitude.IsDecoded d n j) (hpos : 0 < m) (hpos' : 0 < n)
    (hvalue : ((m * n : ℕ) : ℚ) * 2 ^ (i + j) = k * 2 ^ q) : i + j ≤ q := by
  by_contra! hlt
  have hk : k = m * n * 2 ^ (i + j - q).toNat := eq_mul_two_pow hvalue.symm hlt.le
  have hleast : Magnitude.minExponent = -1074 := rfl
  have hbits : m * n < 2 ^ 52 := by
    obtain ⟨l, hl⟩ : ∃ l, (i + j - q).toNat = l + 1 := ⟨(i + j - q).toNat - 1, by omega⟩
    have htwo : m * n * 2 ≤ k := by
      rw [hk, hl, pow_succ', ← mul_assoc]
      exact Nat.le_mul_of_pos_right _ (by positivity)
    have hlast := h.1
    omega
  have hm52 : m < 2 ^ 52 := (Nat.le_mul_of_pos_right m hpos').trans_lt hbits
  have hn52 : n < 2 ^ 52 := (Nat.le_mul_of_pos_left n hpos).trans_lt hbits
  have hi := hm.4
  have hj := hn.4
  have hq := h.2
  omega

theorem Canonical.mul (hu : Canonical u a) (hv : Canonical v b) (h : Representable (a * b)) :
    Canonical (UnpackedFloat.mul .binary64 u v) (a * b) := by
  cases hu with
  | zero s =>
    rw [zero_mul]
    cases hv with
    | zero t => exact .zero (s * t)
    | finite t hn hdecoded => exact .zero (s * t)
  | @finite _ m i s hm hleft =>
    cases hv with
    | zero t =>
      rw [mul_zero]
      exact .zero (s * t)
    | @finite _ n j t hn hright =>
      have hproduct : (s.apply m * 2 ^ i * (t.apply n * 2 ^ j) : ℚ) =
          (s * t).apply (m * n : ℕ) * 2 ^ (i + j) := by
        rw [apply_eq, apply_eq t, apply_eq, apply_mul_one, zpow_add₀ two_ne_zero]
        push_cast
        ring
      rw [hproduct] at h ⊢
      obtain ⟨code, k, q, hdecoded, hk, hvalue⟩ :=
        (representable_of_apply h).exists_pos (by positivity)
      have hle := add_le_of_value hdecoded hleft hright hm hn hvalue
      change Canonical (roundWithAccuracy .binary64 (s * t) (m * n) (i + j) .exact) _
      rw [roundWithAccuracy_eq hdecoded hk hle hvalue]
      exact canonical_of_value hdecoded hk hvalue (s * t)

theorem IsExactly.neg (hx : x.IsExactly a) : IsExactly (-x) (-a) := by
  have hu := canonical_unpack hx.isFinite
  rw [hx.value_eq] at hu
  exact isExactly_pack hu.neg

theorem IsExactly.add (hx : x.IsExactly a) (hy : y.IsExactly b) (h : Representable (a + b)) :
    IsExactly (x + y) (a + b) := by
  rw [← hx.value_eq, ← hy.value_eq] at h ⊢
  exact isExactly_pack ((canonical_unpack hx.isFinite).add (canonical_unpack hy.isFinite) h)

theorem IsExactly.sub (hx : x.IsExactly a) (hy : y.IsExactly b) (h : Representable (a - b)) :
    IsExactly (x - y) (a - b) := by
  rw [← hx.value_eq, ← hy.value_eq] at h ⊢
  exact isExactly_pack ((canonical_unpack hx.isFinite).sub (canonical_unpack hy.isFinite) h)

theorem IsExactly.mul (hx : x.IsExactly a) (hy : y.IsExactly b) (h : Representable (a * b)) :
    IsExactly (x * y) (a * b) := by
  rw [← hx.value_eq, ← hy.value_eq] at h ⊢
  exact isExactly_pack ((canonical_unpack hx.isFinite).mul (canonical_unpack hy.isFinite) h)

end
end Number
end LineCalc
