import Mathlib
import LineCalc.Proofs.Bits
import LineCalc.Proofs.Rounding

/-! The number nearest to a rational. The codes of magnitudes grow with their values, so that only
the two codes around a rational can be nearest to it, and of two that are equally near the even one
is taken. Infinity counts as `2 ^ 1024`, the magnitude that would follow the largest finite one. -/

namespace LineCalc

namespace Magnitude
variable {code low k m num den : Nat} {r : ℚ}

/-- No magnitude is nearer to `r` than this one, and one that is as near has an odd code. -/
structure IsNearest (r : ℚ) (code : Nat) : Prop where
  le_infinity : code ≤ infinity
  nearest : ∀ other ≤ infinity, |value code - r| ≤ |value other - r|
  even_of_tie : ∀ other ≤ infinity, other ≠ code → |value other - r| = |value code - r| → Even code

theorem decode_of_lt (h : code < 2 ^ 52) : decode code = (code, minExponent) := by
  have hbits : Nat.pow 2 fractionBits = 2 ^ 52 := rfl
  unfold decode
  rw [hbits, Nat.div_eq_of_lt h, Nat.mod_eq_of_lt h]
  rfl

theorem decode_succ_mul (hm : m < 2 ^ 52) :
    decode ((k + 1) * 2 ^ 52 + m) = (2 ^ 52 + m, minExponent + k) := by
  have hbits : Nat.pow 2 fractionBits = 2 ^ 52 := rfl
  have hfield : ((k + 1) * 2 ^ 52 + m) / 2 ^ 52 = k + 1 := by omega
  have hfraction : ((k + 1) * 2 ^ 52 + m) % 2 ^ 52 = m := by omega
  unfold decode
  rw [hbits, hfield, hfraction]
  rfl

/-- A mantissa in units of `2 ^ (minExponent + k)`. One of `2 ^ 53` carries into the exponent. -/
theorem value_place (hm : m ≤ 2 ^ 53) (hk : k = 0 ∨ 2 ^ 52 ≤ m) :
    value (k * 2 ^ 52 + m) = m * 2 ^ (minExponent + k) := by
  unfold value
  rcases Nat.lt_or_ge m (2 ^ 52) with hsmall | hlarge
  · obtain rfl := hk.resolve_right (Nat.not_le.mpr hsmall)
    rw [Nat.zero_mul, Nat.zero_add, decode_of_lt hsmall, Nat.cast_zero, add_zero]
  rcases Nat.lt_or_ge m (2 ^ 53) with hlt | hge
  · have hcode : k * 2 ^ 52 + m = (k + 1) * 2 ^ 52 + (m - 2 ^ 52) := by omega
    rw [hcode, decode_succ_mul (by omega), Nat.add_sub_cancel' hlarge]
  · have hcode : k * 2 ^ 52 + m = (k + 1 + 1) * 2 ^ 52 + 0 := by omega
    have hvalue : (m : ℚ) = 2 ^ 52 * 2 := by
      rw [← pow_succ]
      exact_mod_cast le_antisymm hm hge
    rw [hcode, decode_succ_mul (by norm_num), hvalue, mul_assoc, ← zpow_one_add₀ two_ne_zero]
    push_cast
    congr 2
    ring

theorem exists_place (code : Nat) :
    ∃ k m, code = k * 2 ^ 52 + m ∧ m < 2 ^ 53 ∧ (k = 0 ∨ 2 ^ 52 ≤ m) := by
  rcases Nat.lt_or_ge code (2 ^ 52) with hsmall | hlarge
  · exact ⟨0, code, by omega, by omega, .inl rfl⟩
  · exact ⟨code / 2 ^ 52 - 1, 2 ^ 52 + code % 2 ^ 52, by omega, by omega, .inr (by omega)⟩

theorem value_strictMono : StrictMono value := by
  refine strictMono_nat_of_lt_succ fun code => ?_
  obtain ⟨k, m, rfl, hm, hk⟩ := exists_place code
  rw [Nat.add_assoc, value_place hm.le hk, value_place hm (hk.imp_right Nat.le_succ_of_le)]
  gcongr
  exact Nat.lt_succ_self m

theorem value_infinity : value infinity = 2 ^ (1024 : ℤ) := by
  have hinfinity : infinity = (2046 + 1) * 2 ^ 52 + 0 := rfl
  rw [hinfinity, value, decode_succ_mul (by norm_num)]
  change ((2 ^ 52 + 0 : ℕ) : ℚ) * 2 ^ (972 : ℤ) = _
  rw [add_zero, Nat.cast_pow, Nat.cast_ofNat, ← zpow_natCast, ← zpow_add₀ two_ne_zero]
  norm_num

theorem isNearest_of_between (hlow : low < infinity) (hle : value low ≤ r)
    (hlt : r < value (low + 1)) (hcode : code = low ∨ code = low + 1)
    (hnear : code = low → r - value low ≤ value (low + 1) - r)
    (hnear' : code = low + 1 → value (low + 1) - r ≤ r - value low)
    (heven : r - value low = value (low + 1) - r → Even code) : IsNearest r code := by
  have hdist : |value code - r| = min (r - value low) (value (low + 1) - r) := by
    rcases hcode with rfl | rfl
    · rw [min_eq_left (hnear rfl), abs_sub_comm, abs_of_nonneg (by linarith)]
    · rw [min_eq_right (hnear' rfl), abs_of_nonneg (by linarith)]
  -- a code further off on either side is as far as the neighbour on that side and the step to it
  have hother (other : Nat) : other = low ∨ other = low + 1 ∨
      min (r - value low) (value (low + 1) - r) < |value other - r| := by
    rcases Nat.lt_trichotomy other low with h | h | h
    · have hvalue := value_strictMono h
      refine .inr (.inr ((min_le_left _ _).trans_lt ?_))
      rw [abs_sub_comm]
      exact lt_of_lt_of_le (by linarith) (le_abs_self _)
    · exact .inl h
    · rcases Nat.lt_or_eq_of_le h with h' | h'
      · have hvalue := value_strictMono h'
        refine .inr (.inr ((min_le_right _ _).trans_lt ?_))
        exact lt_of_lt_of_le (by linarith) (le_abs_self _)
      · exact .inr (.inl h'.symm)
  refine ⟨by omega, fun other _ => ?_, fun other _ hne htie => heven ?_⟩
  · rw [hdist]
    rcases hother other with rfl | rfl | h
    · rw [abs_sub_comm, abs_of_nonneg (by linarith)]
      exact min_le_left _ _
    · rw [abs_of_nonneg (by linarith)]
      exact min_le_right _ _
    · exact h.le
  · rw [hdist] at htie
    rcases hother other with rfl | rfl | h
    · rw [abs_sub_comm, abs_of_nonneg (by linarith)] at htie
      exact le_antisymm (htie.le.trans (min_le_right _ _)) (hnear' (by omega))
    · rw [abs_of_nonneg (by linarith)] at htie
      exact le_antisymm (hnear (by omega)) (htie.le.trans (min_le_left _ _))
    · exact absurd htie h.ne'

theorem isNearest_infinity (h : value infinity ≤ r) : IsNearest r infinity := by
  have hvalue {other : Nat} (hother : other ≤ infinity) : value other ≤ value infinity :=
    value_strictMono.monotone hother
  refine ⟨le_rfl, fun other hother => ?_, fun other hother hne htie => ?_⟩
  · have := hvalue hother
    rw [abs_sub_comm, abs_sub_comm (value other), abs_of_nonneg (by linarith),
      abs_of_nonneg (by linarith)]
    linarith
  · have := hvalue hother
    rw [abs_sub_comm, abs_sub_comm (value infinity), abs_of_nonneg (by linarith),
      abs_of_nonneg (by linarith)] at htie
    exact absurd (value_strictMono.injective (by linarith)) hne

/-- Two codes equally near have no code between them, so that one of them is odd. -/
theorem IsNearest.unique {other : Nat} (h : IsNearest r code) (h' : IsNearest r other) :
    code = other := by
  wlog hlt : code < other generalizing code other
  · rcases Nat.lt_or_eq_of_le (Nat.not_lt.mp hlt) with hlt' | heq
    · exact (this h' h hlt').symm
    · exact heq.symm
  exfalso
  have htie : |value other - r| = |value code - r| :=
    le_antisymm (h'.nearest code h.le_infinity) (h.nearest other h'.le_infinity)
  have heven := h.even_of_tie other h'.le_infinity hlt.ne' htie
  have heven' := h'.even_of_tie code h.le_infinity hlt.ne htie.symm
  have hgap : code + 1 < other := by
    rcases Nat.lt_or_eq_of_le (Nat.succ_le_of_lt hlt) with hgap | rfl
    · exact hgap
    · exact absurd heven' (Nat.not_even_iff_odd.mpr heven.add_one)
  have hbetween := h.nearest (code + 1) (hgap.le.trans h'.le_infinity)
  have hlow := value_strictMono (Nat.lt_succ_self code)
  have hhigh := value_strictMono hgap
  rcases abs_cases (value code - r) with ⟨hc, _⟩ | ⟨hc, _⟩ <;>
    rcases abs_cases (value other - r) with ⟨ho, _⟩ | ⟨ho, _⟩ <;>
    rcases abs_cases (value (code + 1) - r) with ⟨hm, _⟩ | ⟨hm, _⟩ <;>
    rw [hc, ho] at htie <;> rw [hc, hm] at hbetween <;> linarith

/-- A quotient between `low` and `low + 1` is rounded to the nearer one, or to the even one. -/
structure IsRounded (x : ℚ) (low m : Nat) : Prop where
  low_le : low ≤ x
  lt_high : x < low + 1
  cases : m = low ∨ m = low + 1
  near_low : m = low → x - low ≤ low + 1 - x
  near_high : m = low + 1 → low + 1 - x ≤ x - low
  even_of_half : x - low = low + 1 - x → Even m

theorem isRounded_roundDiv (hden : 0 < den) :
    IsRounded (num / den) (num / den : ℕ) (roundDiv num den) := by
  have hpos : (0 : ℚ) < den := by exact_mod_cast hden
  have hdiv : (num : ℚ) / den = (num / den : ℕ) + (num % den : ℕ) / den := by
    rw [div_eq_iff hpos.ne', add_mul, div_mul_cancel₀ _ hpos.ne', mul_comm]
    exact_mod_cast (Nat.div_add_mod num den).symm
  have hlt : ((num % den : ℕ) : ℚ) / den < 1 := by
    rw [div_lt_one hpos]
    exact_mod_cast Nat.mod_lt num hden
  have hnonneg : (0 : ℚ) ≤ (num % den : ℕ) / den := by positivity
  have htwice : 2 * (((num % den : ℕ) : ℚ) / den) = (2 * (num % den) : ℕ) / den := by
    push_cast
    ring
  rw [hdiv]
  unfold roundDiv
  dsimp only
  generalize num / den = low
  cases hcompare : compare (2 * (num % den)) den with
  | lt =>
    have hhalf : 2 * (((num % den : ℕ) : ℚ) / den) < 1 := by
      rw [htwice, div_lt_one hpos]
      exact_mod_cast Nat.compare_eq_lt.mp hcompare
    refine ⟨by linarith, by linarith, .inl rfl, fun _ => by linarith, fun hm => ?_, fun _ => ?_⟩
    · exact absurd hm (Nat.ne_of_lt (Nat.lt_succ_self low))
    · linarith
  | eq =>
    have hhalf : 2 * (((num % den : ℕ) : ℚ) / den) = 1 := by
      rw [htwice, Nat.compare_eq_eq.mp hcompare, div_self hpos.ne']
    refine ⟨by linarith, by linarith, ?_, fun _ => by linarith, fun _ => by linarith, fun _ => ?_⟩
    · dsimp only
      omega
    · rw [Nat.even_iff]
      dsimp only
      omega
  | gt =>
    have hhalf : 1 < 2 * (((num % den : ℕ) : ℚ) / den) := by
      rw [htwice, one_lt_div hpos]
      exact_mod_cast Nat.compare_eq_gt.mp hcompare
    refine ⟨by linarith, by linarith, .inr rfl, fun hm => ?_, fun _ => by linarith, fun _ => ?_⟩
    · exact absurd hm (Nat.ne_of_gt (Nat.lt_succ_self low))
    · linarith

theorem IsRounded.isNearest {x u : ℚ} {base low m : Nat} (h : IsRounded x low m) (hu : 0 < u)
    (hlow : value (base + low) = low * u) (hhigh : value (base + low + 1) = (low + 1) * u)
    (hbase : Even base) (hlt : base + low < infinity) : IsNearest (x * u) (base + m) := by
  have hgap : x * u - value (base + low) = (x - low) * u := by rw [hlow, sub_mul]
  have hgap' : value (base + low + 1) - x * u = (low + 1 - x) * u := by rw [hhigh, sub_mul]
  refine isNearest_of_between hlt ?_ ?_ ?_ ?_ ?_ ?_
  · rw [hlow]
    exact mul_le_mul_of_nonneg_right h.low_le hu.le
  · rw [hhigh]
    exact mul_lt_mul_of_pos_right h.lt_high hu
  · exact h.cases.imp (congrArg (base + ·)) (congrArg (base + ·))
  · intro hm
    rw [hgap, hgap']
    exact mul_le_mul_of_nonneg_right (h.near_low (Nat.add_left_cancel hm)) hu.le
  · intro hm
    rw [hgap, hgap']
    exact mul_le_mul_of_nonneg_right (h.near_high (Nat.add_left_cancel hm)) hu.le
  · intro htie
    rw [hgap, hgap'] at htie
    exact hbase.add (h.even_of_half (mul_right_cancel₀ hu.ne' htie))

theorem isNearest_value (h : code ≤ infinity) : IsNearest (value code) code := by
  refine ⟨h, fun other _ => ?_, fun other _ hne htie => ?_⟩
  · rw [sub_self, abs_zero]
    exact abs_nonneg _
  · rw [sub_self, abs_zero, abs_eq_zero, sub_eq_zero] at htie
    exact absurd (value_strictMono.injective htie) hne

theorem isNearest_zero (h : r ≤ 2 ^ (-1075 : ℤ)) (hr : 0 ≤ r) : IsNearest r 0 := by
  have hone : value 1 = 2 * 2 ^ (-1075 : ℤ) := by
    rw [value, decode_of_lt (by norm_num), ← zpow_one_add₀ two_ne_zero]
    norm_num [minExponent]
  have hzero : value 0 = 0 := by rw [value, decode_of_lt (by norm_num), Nat.cast_zero, zero_mul]
  have hpos : (0 : ℚ) < 2 ^ (-1075 : ℤ) := by positivity
  refine isNearest_of_between (by decide) (by rwa [hzero]) ?_ (.inl rfl) ?_ (by simp) (by simp)
  · rw [zero_add, hone]
    linarith
  · rw [zero_add, hone, hzero]
    intro
    linarith

theorem IsRounded.isNearest_min (h : IsRounded (r / 2 ^ (minExponent + k)) low m)
    (hlow : low < 2 ^ 53) (hk : k = 0 ∨ 2 ^ 52 ≤ low) :
    IsNearest r (min infinity (k * 2 ^ 52 + m)) := by
  have hu : (0 : ℚ) < 2 ^ (minExponent + k : ℤ) := by positivity
  have hvalue := value_place hlow.le hk
  have hvalue' := value_place (Nat.succ_le_of_lt hlow) (hk.imp_right Nat.le_succ_of_le)
  have hr : r / 2 ^ (minExponent + k : ℤ) * 2 ^ (minExponent + k : ℤ) = r :=
    div_mul_cancel₀ _ hu.ne'
  have hm := h.cases
  by_cases hfinite : k * 2 ^ 52 + low < infinity
  · rw [min_eq_right (by omega), ← hr]
    refine h.isNearest hu hvalue ?_ ?_ hfinite
    · rw [Nat.add_assoc, hvalue', Nat.cast_succ]
    · exact (Nat.even_pow.mpr ⟨even_two, by norm_num⟩).mul_left k
  · rw [min_eq_left (by omega)]
    refine isNearest_infinity ?_
    calc value infinity ≤ value (k * 2 ^ 52 + low) :=
          value_strictMono.monotone (Nat.not_lt.mp hfinite)
      _ = low * 2 ^ (minExponent + k : ℤ) := hvalue
      _ ≤ r / 2 ^ (minExponent + k : ℤ) * 2 ^ (minExponent + k : ℤ) :=
          mul_le_mul_of_nonneg_right h.low_le hu.le
      _ = r := hr

theorem isNearest_nearest (num : Nat) (hden : 0 < den) :
    IsNearest (num / den) (nearest num den) := by
  unfold nearest
  rcases Nat.eq_zero_or_pos num with rfl | hnum
  · rw [if_pos rfl, Nat.cast_zero, zero_div]
    exact isNearest_zero (by positivity) le_rfl
  rw [if_neg hnum.ne']
  obtain ⟨horder, horder'⟩ := binaryOrder_spec hnum hden
  have hbits : (fractionBits : ℤ) = 52 := rfl
  dsimp only
  generalize hq : max minExponent (binaryOrder num den - fractionBits) = q
  obtain ⟨k, rfl⟩ : ∃ k : ℕ, q = minExponent + k := ⟨(q - minExponent).toNat, by omega⟩
  have hunit : (minExponent + k - minExponent).toNat = k := by omega
  rw [hunit]
  have hscale : ((rescale 2 num den (minExponent + k)).1 : ℚ) /
      (rescale 2 num den (minExponent + k)).2 = num / den / 2 ^ (minExponent + k) := by
    exact_mod_cast rescale_div Nat.two_pos
  have hpos : 0 < (rescale 2 num den (minExponent + k)).2 := rescale_pos Nat.two_pos hden
  generalize (rescale 2 num den (minExponent + k)).1 = n at hscale ⊢
  generalize (rescale 2 num den (minExponent + k)).2 = d at hscale hpos ⊢
  have hround : IsRounded (n / d) (n / d : ℕ) (roundDiv n d) := isRounded_roundDiv hpos
  rw [hscale] at hround
  have hu : (0 : ℚ) < 2 ^ (minExponent + k : ℤ) := by positivity
  -- the quotient has 53 bits, or fewer in the least unit
  refine hround.isNearest_min ?_ ?_
  · have hlt : ((n / d : ℕ) : ℚ) < 2 ^ (53 : ℤ) := by
      refine hround.low_le.trans_lt ((div_lt_iff₀ hu).mpr (horder'.trans_le ?_))
      rw [← zpow_add₀ two_ne_zero]
      exact zpow_le_zpow_right₀ one_le_two (by omega)
    exact_mod_cast hlt
  · by_cases hk : k = 0
    · exact .inl hk
    have hle : (2 : ℚ) ^ (52 : ℤ) < (n / d : ℕ) + 1 := by
      refine lt_of_le_of_lt ((le_div_iff₀ hu).mpr (le_trans ?_ horder)) hround.lt_high
      rw [← zpow_add₀ two_ne_zero]
      exact zpow_le_zpow_right₀ one_le_two (by omega)
    have hle' : 2 ^ 52 < n / d + 1 := by exact_mod_cast hle
    exact .inr (Nat.le_of_lt_succ hle')

end Magnitude

namespace Decimal
open Magnitude

/-- The orders at which no power of ten is formed are beyond all finite magnitudes, or so small
that zero is nearest. -/
theorem isNearest_toMagnitude (d : Decimal) : IsNearest d.value d.toMagnitude := by
  unfold toMagnitude
  split
  · rename_i hdigits
    rw [value, hdigits, Nat.cast_zero, zero_mul]
    exact isNearest_zero (by positivity) le_rfl
  rename_i hdigits
  split
  · rename_i hexponent
    refine isNearest_infinity ?_
    rw [value_infinity]
    calc (2 : ℚ) ^ (1024 : ℤ) ≤ 2 ^ (1200 : ℤ) := zpow_le_zpow_right₀ one_le_two (by norm_num)
      _ ≤ 10 ^ (400 : ℤ) := two_zpow_lt_ten_zpow.le
      _ ≤ 10 ^ d.exponent := zpow_le_zpow_right₀ (by norm_num) hexponent.le
      _ ≤ d.value := le_value hdigits
  split
  · rename_i horder
    refine isNearest_zero ?_ (by unfold value; positivity)
    calc d.value ≤ 10 ^ (d.exponent + digitCount d.digits) := (value_lt d).le
      _ ≤ 10 ^ (-400 : ℤ) := zpow_le_zpow_right₀ (by norm_num) horder.le
      _ ≤ 2 ^ (-1200 : ℤ) := by
          rw [zpow_neg, zpow_neg]
          exact inv_anti₀ (by positivity) two_zpow_lt_ten_zpow.le
      _ ≤ 2 ^ (-1075 : ℤ) := zpow_le_zpow_right₀ one_le_two (by norm_num)
  · rw [← ratio_div]
    exact isNearest_nearest _ (ratio_pos d)

theorem toMagnitude_congr {d d' : Decimal} (h : d.value = d'.value) :
    d.toMagnitude = d'.toMagnitude := by
  have hnearest := isNearest_toMagnitude d'
  rw [← h] at hnearest
  exact (isNearest_toMagnitude d).unique hnearest

theorem toMagnitude_of_value {d : Decimal} {code : Nat} (h : code < infinity)
    (hvalue : d.value = Magnitude.value code) : d.toMagnitude = code := by
  have hnearest := isNearest_toMagnitude d
  rw [hvalue] at hnearest
  exact hnearest.unique (isNearest_value h.le)

theorem toMagnitude_of_onGrid {d : Decimal} {tie : Tie} {code : Nat} {unit : Int}
    (h : onGrid tie code unit = some d) :
    d.toMagnitude = code := by
  unfold onGrid at h
  dsimp only at h
  split at h
  · rename_i hbelow habove
    obtain rfl := Option.some.inj h
    split
    · exact of_decide_eq_true hbelow
    · exact of_decide_eq_true habove
  · rename_i hbelow _
    obtain rfl := Option.some.inj h
    exact of_decide_eq_true hbelow
  · rename_i _ habove
    obtain rfl := Option.some.inj h
    exact of_decide_eq_true habove
  · cases h

theorem toMagnitude_shortest {code : Nat} (tie : Tie) (h : code < infinity) :
    (shortest tie code).toMagnitude = code := by
  unfold shortest
  split
  · rename_i hzero
    rw [hzero]
    rfl
  · dsimp only
    generalize hgrid : List.findSome? _ _ = found
    cases found with
    | none => exact toMagnitude_of_value h (by rw [Option.getD_none, value_trim, value_ofMagnitude])
    | some d =>
      obtain ⟨i, -, hi⟩ := List.exists_of_findSome?_eq_some hgrid
      exact toMagnitude_of_onGrid hi

end Decimal

namespace Number
variable {x y : Number} {r : ℚ} {code : Nat}

structure IsNearest (r : ℚ) (x : Number) : Prop where
  sign : x.isNegative = false
  magnitude : Magnitude.IsNearest r x.magnitude

theorem IsNearest.unique (h : IsNearest r x) (h' : IsNearest r y) : x = y :=
  eq_of_magnitude (h.magnitude.unique h'.magnitude) (h.sign.trans h'.sign.symm)

theorem isNearest_ofMagnitude (h : Magnitude.IsNearest r code) :
    IsNearest r (ofMagnitude false code) := by
  have hbits : (ofMagnitude false code).toBits.toNat = code := by
    rcases Nat.lt_or_eq_of_le h.le_infinity with hlt | rfl
    · exact toNat_toBits_ofMagnitude false hlt
    · decide
  have hcode : code < 2 ^ 63 := lt_of_le_of_lt h.le_infinity (by decide)
  constructor
  · rw [isNegative, hbits]
    exact decide_eq_false (Nat.not_le.mpr hcode)
  · rwa [magnitude_eq, hbits, Nat.mod_eq_of_lt hcode]

end Number

namespace Numeral

def spelled (whole fraction : List Char) : ℚ :=
  Nat.ofDigitChars 10 (whole ++ fraction) 0 / 10 ^ fraction.length

theorem digitsValue_eq (digits : List Char) : digitsValue digits = Nat.ofDigitChars 10 digits 0 :=
  rfl

theorem isNearest_toNumber (whole fraction : List Char) :
    (toNumber ⟨false, whole, fraction, none⟩).IsNearest (spelled whole fraction) := by
  have hvalue : (decimal ⟨false, whole, fraction, none⟩).value = spelled whole fraction := by
    unfold decimal Decimal.value spelled
    rw [digitsValue_eq, Option.getD_none, zero_sub, zpow_neg, zpow_natCast, div_eq_mul_inv]
  have hnearest := Decimal.isNearest_toMagnitude (decimal ⟨false, whole, fraction, none⟩)
  rw [hvalue] at hnearest
  exact Number.isNearest_ofMagnitude hnearest

end Numeral

end LineCalc
