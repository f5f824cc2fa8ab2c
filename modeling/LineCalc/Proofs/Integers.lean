import Mathlib
import LineCalc.Proofs.Exact
import LineCalc.Proofs.ReadBack

/-! Whole numbers up to `2 ^ 53`. They are values of numbers, a numeral that spells one is read as
it, and it is written as its decimal digits: a decimal with fewer digits is a multiple of ten, hence
even, and an even number of that size is read as itself. -/

namespace LineCalc

theorem representable_natCast_mul {n : ℕ} {e : ℤ} (hn : n ≤ 2 ^ 53)
    (hmin : Magnitude.minExponent ≤ e) (hmax : e ≤ 970) : Representable (n * 2 ^ e) := by
  have hdecoded {m : ℕ} {q : ℤ} (hm : m < 2 ^ 53) (hmin : Magnitude.minExponent ≤ q)
      (hmax : q ≤ 971) (hvalue : (n : ℚ) * 2 ^ e = m * 2 ^ q) : Representable (n * 2 ^ e) := by
    obtain ⟨code, k, i, hcode, hk⟩ := Magnitude.exists_isDecoded hm hmin hmax
    exact ⟨code, k, i, hcode, by rw [hk, hvalue, abs_of_nonneg (by positivity)]⟩
  rcases hn.lt_or_eq with hlt | rfl
  · exact hdecoded hlt hmin (by omega) rfl
  · refine hdecoded (m := 2 ^ 52) (q := e + 1) (by norm_num) (by omega) (by omega) ?_
    rw [zpow_add_one₀ two_ne_zero]
    push_cast
    ring

theorem representable_intCast {n : ℤ} (hn : n.natAbs ≤ 2 ^ 53) : Representable n := by
  obtain ⟨code, m, q, hcode, hvalue⟩ := representable_natCast_mul (e := 0) hn (by decide)
    (by decide)
  refine ⟨code, m, q, hcode, ?_⟩
  rw [← hvalue, zpow_zero, mul_one, Nat.abs_cast, Nat.cast_natAbs, Int.cast_abs]

namespace Decimal
variable {d : Decimal} {tie : Tie} {code n : Nat}

theorem value_of_toMagnitude (hr : Representable d.value) :
    d.toMagnitude < Magnitude.infinity ∧ Magnitude.value d.toMagnitude = d.value := by
  obtain ⟨code, m, q, hcode, hvalue⟩ := hr
  rw [abs_of_nonneg (by unfold value; positivity), ← hcode.value_eq] at hvalue
  rw [toMagnitude_of_value hcode.lt_infinity hvalue]
  exact ⟨hcode.lt_infinity, hvalue.symm⟩

theorem exponent_le_trim (d : Decimal) : d.exponent ≤ d.trim.exponent := by
  fun_induction trim d with
  | case1 d h ih =>
    dsimp only at ih
    omega
  | case2 d h => exact le_rfl

/-- What the grid of a unit yields is one of the two multiples next to the value. -/
theorem exists_of_onGrid {unit : Int} (h : onGrid tie code unit = some d) :
    ∃ m low : ℕ, d = trim ⟨m, unit⟩ ∧ m ≤ low + 1 ∧ low * 10 ^ unit ≤ Magnitude.value code := by
  unfold onGrid at h
  dsimp only at h
  set num := (ofMagnitude code).ratio.1
  set den := (ofMagnitude code).ratio.2
  set low := (Magnitude.rescale 10 num den unit).1 / (Magnitude.rescale 10 num den unit).2
  have hlow : (low : ℚ) * 10 ^ unit ≤ Magnitude.value code := by
    rw [← value_ofMagnitude, ← ratio_div, ← le_div_iff₀ (by positivity)]
    have hscale : ((Magnitude.rescale 10 num den unit).1 : ℚ) /
        (Magnitude.rescale 10 num den unit).2 = num / den / (10 : ℕ) ^ unit :=
      Magnitude.rescale_div (by decide)
    exact Nat.cast_div_le.trans_eq (by exact_mod_cast hscale)
  split at h
  · obtain rfl := Option.some.inj h
    split
    · exact ⟨low, low, rfl, Nat.le_succ low, hlow⟩
    · exact ⟨low + 1, low, rfl, le_rfl, hlow⟩
  · obtain rfl := Option.some.inj h
    exact ⟨low, low, rfl, Nat.le_succ low, hlow⟩
  · obtain rfl := Option.some.inj h
    exact ⟨low + 1, low, rfl, le_rfl, hlow⟩
  · cases h

theorem onGrid_zero (hcode : code < Magnitude.infinity) (hvalue : Magnitude.value code = n) :
    onGrid tie code 0 = some (trim ⟨n, 0⟩) := by
  have hread : (trim ⟨n, 0⟩).toMagnitude = code := by
    refine toMagnitude_of_value hcode ?_
    rw [value_trim, hvalue, value, zpow_zero, mul_one]
  have hratio := ratio_div (ofMagnitude code)
  have hden := ratio_pos (ofMagnitude code)
  rw [value_ofMagnitude, hvalue, div_eq_iff (by positivity)] at hratio
  have hnum : (ofMagnitude code).ratio.1 = n * (ofMagnitude code).ratio.2 := by
    exact_mod_cast hratio
  have hscale : Magnitude.rescale 10 (ofMagnitude code).ratio.1 (ofMagnitude code).ratio.2 0 =
      (n * (ofMagnitude code).ratio.2, (ofMagnitude code).ratio.2) := by
    rw [hnum]
    simp [Magnitude.rescale]
  unfold onGrid
  dsimp only
  rw [hscale]
  dsimp only
  rw [Nat.mul_div_cancel _ hden, Nat.mul_mod_left, mul_zero, Nat.compare_eq_lt.mpr hden,
    decide_eq_true hread]
  split
  · rfl
  · rfl
  · rename_i hfalse _
    cases hfalse
  · rename_i hfalse _
    cases hfalse

/-- Rounder multiples that are read as a whole number are that number. -/
theorem value_of_onGrid {k : ℕ} (hcode : code < Magnitude.infinity)
    (hvalue : Magnitude.value code = n) (hn : n ≤ 2 ^ 53) (hk : 10 ^ k ≤ n)
    (h : onGrid tie code k = some d) : d.value = n ∧ 0 ≤ d.exponent := by
  cases k with
  | zero =>
    rw [Nat.cast_zero, onGrid_zero hcode hvalue] at h
    obtain rfl := Option.some.inj h
    refine ⟨?_, exponent_le_trim ⟨n, 0⟩⟩
    rw [value_trim, value, zpow_zero, mul_one]
  | succ k =>
    have hread := toMagnitude_of_onGrid h
    obtain ⟨m, low, rfl, hm, hlow⟩ := exists_of_onGrid h
    have hvalue' : (trim ⟨m, (k + 1 : ℕ)⟩).value = (m * 5 * 10 ^ k : ℕ) * 2 ^ (1 : ℤ) := by
      rw [value_trim, value, zpow_natCast, pow_succ, zpow_one]
      push_cast
      ring
    have hlow' : low * 10 ^ (k + 1) ≤ n := by
      rw [hvalue, zpow_natCast] at hlow
      exact_mod_cast hlow
    -- the multiple above exceeds the value by at most its unit, so by at most the value itself
    have hhalf : m * 5 * 10 ^ k ≤ 2 ^ 53 := by
      have habove : m * 10 ^ (k + 1) ≤ (low + 1) * 10 ^ (k + 1) := Nat.mul_le_mul_right _ hm
      rw [pow_succ] at habove hlow' hk
      linarith
    have hexact := value_of_toMagnitude (d := trim ⟨m, (k + 1 : ℕ)⟩)
      (hvalue' ▸ representable_natCast_mul hhalf (by decide) (by decide))
    rw [hread, hvalue] at hexact
    exact ⟨hexact.2.symm, (Int.natCast_nonneg (k + 1)).trans (exponent_le_trim _)⟩

theorem pow_le_of_lt_digitCount {k : ℕ} (hn : 0 < n) (hk : k < digitCount n) : 10 ^ k ≤ n := by
  cases k with
  | zero => exact hn
  | succ k =>
    by_contra! hlt
    have hle := (Nat.length_toDigits_le_iff (by decide) k.succ_pos).mpr hlt
    exact absurd hk (not_lt.mpr hle)

theorem orderOfRatio_natCast {num den : ℕ} (hn : 0 < n) (hden : 0 < den)
    (hratio : num = n * den) : orderOfRatio num den = digitCount n - 1 := by
  unfold orderOfRatio
  rw [hratio, if_pos (Nat.le_mul_of_pos_left den hn), Nat.mul_div_cancel _ hden]

theorem value_shortest (hcode : code < Magnitude.infinity) (hvalue : Magnitude.value code = n)
    (hpos : 0 < n) (hn : n ≤ 2 ^ 53) :
    (shortest tie code).value = n ∧ 0 ≤ (shortest tie code).exponent := by
  have hne : code ≠ 0 := by
    rintro rfl
    rw [Magnitude.value_zero] at hvalue
    exact hpos.ne (by exact_mod_cast hvalue)
  have hratio := ratio_div (ofMagnitude code)
  have hden := ratio_pos (ofMagnitude code)
  rw [value_ofMagnitude, hvalue, div_eq_iff (by positivity)] at hratio
  have hcount : digitCount n ≤ 16 :=
    (Nat.length_toDigits_le_iff (by decide) (by decide)).mpr (hn.trans_lt (by norm_num))
  obtain ⟨top, htop⟩ : ∃ top, digitCount n = top + 1 :=
    Nat.exists_eq_add_one.mpr Nat.length_toDigits_pos
  have horder : orderOfRatio (ofMagnitude code).ratio.1 (ofMagnitude code).ratio.2 = top := by
    rw [orderOfRatio_natCast hpos hden (by exact_mod_cast hratio), htop]
    push_cast
    ring
  -- the search goes down from the leading digit and finds the number at the units, if not before
  have hrange : List.range 17 = List.range (top + 1) ++
      (List.range (16 - top)).map (top + 1 + ·) := by
    rw [← List.range_add]
    congr 1
    omega
  unfold shortest
  rw [if_neg hne]
  dsimp only
  rw [horder, hrange, List.findSome?_append]
  generalize hgrid : List.findSome? _ (List.range (top + 1)) = found
  cases found with
  | none =>
    have hlast := List.findSome?_eq_none_iff.mp hgrid top List.self_mem_range_succ
    rw [sub_self, onGrid_zero hcode hvalue] at hlast
    cases hlast
  | some d =>
    obtain ⟨i, hi, hd⟩ := List.exists_of_findSome?_eq_some hgrid
    rw [List.mem_range] at hi
    obtain ⟨k, rfl⟩ := Nat.exists_eq_add_of_le (Nat.le_of_lt_succ hi)
    have hunit : ((i + k : ℕ) : ℤ) - i = k := by
      push_cast
      ring
    rw [hunit] at hd
    exact value_of_onGrid hcode hvalue hn (pow_le_of_lt_digitCount hpos (by omega)) hd

end Decimal

namespace Numeral
open Float.Model.UnpackedFloat
variable {d : Decimal} {negative plus : Bool} {n : Nat}

theorem toDigits_mul_ten_pow (hn : 0 < n) (k : ℕ) :
    Nat.toDigits 10 (n * 10 ^ k) = Nat.toDigits 10 n ++ List.replicate k '0' := by
  induction k with
  | zero => simp
  | succ k ih =>
    have happend := Nat.toDigits_append_toDigits (n := n * 10 ^ k) (d := 0)
      (by decide : 1 < 10) (by positivity) (by decide)
    rw [Nat.toDigits_zero, ih, List.append_assoc, ← List.replicate_succ'] at happend
    rw [happend]
    congr 1
    ring

theorem text_positional_whole (hvalue : d.value = n) (hexponent : 0 ≤ d.exponent) (hn : 0 < n) :
    (positional false negative d).text plus =
      (if negative then ['-'] else []) ++ Nat.toDigits 10 n := by
  obtain ⟨digits, exponent⟩ := d
  obtain ⟨k, rfl⟩ := Int.eq_ofNat_of_zero_le hexponent
  have hdigits : digits * 10 ^ k = n := by
    unfold Decimal.value at hvalue
    dsimp only at hvalue
    exact_mod_cast hvalue
  have hpos : 0 < digits := Nat.pos_of_mul_pos_right (hdigits ▸ hn)
  rw [← hdigits, toDigits_mul_ten_pow hpos]
  simp [positional, text]

theorem isExactly_toNumber {n : Numeral} (hsign : n.negative = false)
    (hr : Representable n.decimal.value) : n.toNumber.IsExactly n.decimal.value := by
  obtain ⟨hfinite, hvalue⟩ := Decimal.value_of_toMagnitude hr
  have hzero : Sign.positive.toBitVec.toNat = 0 := rfl
  have hbits : n.toNumber.toBits.toNat =
      Sign.positive.toBitVec.toNat * 2 ^ 63 + n.decimal.toMagnitude := by
    unfold toNumber
    rw [hsign, Number.toNat_toBits_ofMagnitude false hfinite, hzero, zero_mul, zero_add,
      if_neg Bool.false_ne_true]
  have hexact := Number.isExactly_of_toBits hbits hfinite
  rwa [hvalue, Sign.apply, Int.cast_one, one_mul] at hexact

end Numeral

namespace Number
variable {x : Number} {n : ℤ}

theorem IsExactly.magnitude_eq_zero (hx : x.IsExactly 0) : x.magnitude = 0 := by
  by_contra hne
  have hle := Magnitude.le_value ((isFinite_iff x).mp hx.isFinite) hne
  have hpos : 0 < Magnitude.value x.magnitude := lt_of_lt_of_le (by positivity) hle
  have hvalue := hx.value_eq
  unfold value at hvalue
  split at hvalue <;> linarith

/-- A whole number is computed as a zero of either sign or as a number of its own sign. -/
theorem IsExactly.value_magnitude (hx : x.IsExactly n) (hn : n ≠ 0) :
    Magnitude.value x.magnitude = n.natAbs ∧ x.isNegative = decide (n < 0) := by
  have hnonneg : 0 ≤ Magnitude.value x.magnitude := by
    unfold Magnitude.value
    positivity
  have hvalue := hx.value_eq
  unfold value at hvalue
  rw [Nat.cast_natAbs, Int.cast_abs]
  split at hvalue
  · rename_i hsign
    have hneg : (n : ℚ) ≤ 0 := by linarith
    have hlt : n < 0 := lt_of_le_of_ne (by exact_mod_cast hneg) hn
    refine ⟨?_, hsign.trans (decide_eq_true hlt).symm⟩
    rw [abs_of_nonpos hneg]
    linarith
  · rename_i hsign
    have hpos : (0 : ℚ) ≤ n := by linarith
    have hle : ¬ n < 0 := not_lt.mpr (by exact_mod_cast hpos)
    refine ⟨?_, (Bool.eq_false_iff.mpr hsign).trans (decide_eq_false hle).symm⟩
    rw [abs_of_nonneg hpos]
    linarith

theorem IsExactly.valueText_eq (hx : x.IsExactly n) (hn : n.natAbs ≤ 2 ^ 53) :
    x.valueText = toString n := by
  unfold valueText
  by_cases hzero : n = 0
  · subst hzero
    rw [Int.cast_zero] at hx
    rw [if_pos ((beq_zero_iff x).mpr hx.magnitude_eq_zero)]
    rfl
  obtain ⟨hvalue, hsign⟩ := hx.value_magnitude hzero
  have hmagnitude : x.magnitude ≠ 0 := by
    intro heq
    rw [heq, Magnitude.value_zero] at hvalue
    exact hzero (Int.natAbs_eq_zero.mp (by exact_mod_cast hvalue.symm))
  obtain ⟨hshortest, hexponent⟩ : (Decimal.shortest .up x.magnitude).value = n.natAbs ∧
      0 ≤ (Decimal.shortest .up x.magnitude).exponent :=
    Decimal.value_shortest ((isFinite_iff x).mp hx.isFinite) hvalue (Int.natAbs_pos.mpr hzero) hn
  rw [if_neg (mt (beq_zero_iff x).mp hmagnitude), ← String.ofList_toList (s := x.text),
    toList_text hx.isFinite, Numeral.text_positional_whole hshortest hexponent
      (Int.natAbs_pos.mpr hzero), hsign, String.ofList_append]
  rcases lt_or_ge n 0 with hlt | hle
  · obtain ⟨m, rfl⟩ := Int.eq_negSucc_of_lt_zero hlt
    rw [decide_eq_true hlt]
    rfl
  · obtain ⟨m, rfl⟩ := Int.eq_ofNat_of_zero_le hle
    rw [decide_eq_false (not_lt.mpr hle)]
    exact String.empty_append

end Number
end LineCalc
