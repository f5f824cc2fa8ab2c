import Mathlib
import LineCalc.Number.Decimal

/-! Magnitudes and decimals as rationals. -/

namespace LineCalc

namespace Magnitude

section
variable {base num den code c : Nat} {k e : Int}

theorem rescale_pos (hbase : 0 < base) (hden : 0 < den) : 0 < (rescale base num den k).2 := by
  unfold rescale
  split
  · exact Nat.mul_pos hden (Nat.pow_pos hbase)
  · exact hden

theorem rescale_div (hbase : 0 < base) :
    ((rescale base num den k).1 : ℚ) / (rescale base num den k).2 = num / den / base ^ k := by
  have hne : (base : ℚ) ≠ 0 := by exact_mod_cast hbase.ne'
  unfold rescale
  split
  · rename_i hk
    obtain ⟨n, rfl⟩ := Int.eq_ofNat_of_zero_le hk
    simp [div_div]
  · rename_i hk
    obtain ⟨n, rfl⟩ : ∃ n : ℕ, k = -n := ⟨(-k).toNat, by omega⟩
    simp [mul_div_right_comm]

theorem binaryOrder_spec (hnum : 0 < num) (hden : 0 < den) :
    (2 : ℚ) ^ binaryOrder num den ≤ num / den ∧
      (num : ℚ) / den < 2 ^ (binaryOrder num den + 1) := by
  have hden' : (0 : ℚ) < den := by exact_mod_cast hden
  have hnumlow : (2 : ℚ) ^ (num.log2 : ℤ) ≤ num := by
    exact_mod_cast Nat.log2_self_le hnum.ne'
  have hnumhigh : (num : ℚ) < 2 ^ ((num.log2 : ℤ) + 1) := by
    exact_mod_cast Nat.lt_log2_self
  have hdenlow : (2 : ℚ) ^ (den.log2 : ℤ) ≤ den := by
    exact_mod_cast Nat.log2_self_le hden.ne'
  have hdenhigh : (den : ℚ) < 2 ^ ((den.log2 : ℤ) + 1) := by
    exact_mod_cast Nat.lt_log2_self
  have hpow (m n : ℤ) : (2 : ℚ) ^ (m + n) = 2 ^ m * 2 ^ n := zpow_add₀ two_ne_zero m n
  generalize he : (num.log2 : ℤ) - den.log2 = e
  have hlow : (2 : ℚ) ^ (e - 1) ≤ num / den := by
    rw [le_div_iff₀ hden']
    calc (2 : ℚ) ^ (e - 1) * den ≤ 2 ^ (e - 1) * 2 ^ ((den.log2 : ℤ) + 1) := by gcongr
      _ = 2 ^ (num.log2 : ℤ) := by rw [← hpow]; congr 1; omega
      _ ≤ num := hnumlow
  have hhigh : (num : ℚ) / den < 2 ^ (e + 1) := by
    rw [div_lt_iff₀ hden']
    calc (num : ℚ) < 2 ^ ((num.log2 : ℤ) + 1) := hnumhigh
      _ = 2 ^ (e + 1) * 2 ^ (den.log2 : ℤ) := by rw [← hpow]; congr 1; omega
      _ ≤ 2 ^ (e + 1) * den := by gcongr
  -- the estimate `e` is right or one too high, which the rescaled ratio shows
  have hpos : (0 : ℚ) < (rescale 2 num den e).2 := by
    exact_mod_cast rescale_pos Nat.two_pos hden
  have hscale : ((rescale 2 num den e).1 : ℚ) / (rescale 2 num den e).2 = num / den / 2 ^ e := by
    exact_mod_cast rescale_div Nat.two_pos
  unfold binaryOrder
  simp only [he]
  split
  · rename_i hle
    have hone : (1 : ℚ) ≤ num / den / 2 ^ e := by
      rw [← hscale, one_le_div hpos]
      exact_mod_cast hle
    exact ⟨by rwa [one_le_div (by positivity)] at hone, hhigh⟩
  · rename_i hlt
    have hone : (num : ℚ) / den / 2 ^ e < 1 := by
      rw [← hscale, div_lt_one hpos]
      exact_mod_cast Nat.not_le.mp hlt
    rw [div_lt_one (by positivity)] at hone
    exact ⟨hlow, by rwa [sub_add_cancel]⟩

def value (code : Nat) : ℚ := (decode code).1 * 2 ^ (decode code).2

structure IsDecoded (code m : Nat) (q : Int) : Prop where
  lt : m < 2 ^ 53
  min_le : minExponent ≤ q
  le : q ≤ 971
  normal : q = minExponent ∨ 2 ^ 52 ≤ m
  code_eq : (q - minExponent).toNat * 2 ^ 52 + m = code

theorem isDecoded_decode (h : code < infinity) :
    IsDecoded code (decode code).1 (decode code).2 := by
  have hinfinity : infinity = 2047 * 2 ^ 52 := rfl
  have hbits : Nat.pow 2 fractionBits = 2 ^ 52 := rfl
  have hmin : minExponent = -1074 := rfl
  unfold decode
  rw [hbits]
  dsimp only
  split
  · constructor <;> omega
  · constructor <;> omega

theorem IsDecoded.pos {m : Nat} {q : Int} (h : IsDecoded code m q) (hcode : code ≠ 0) : 0 < m := by
  rw [Nat.pos_iff_ne_zero]
  rintro rfl
  have hq : q = minExponent := h.normal.resolve_right (by norm_num)
  have hzero := h.code_eq
  rw [hq, sub_self] at hzero
  exact hcode hzero.symm

theorem le_value (h : code < infinity) (hcode : code ≠ 0) : 2 ^ minExponent ≤ value code := by
  have hdecoded := isDecoded_decode h
  have hm : (1 : ℚ) ≤ (decode code).1 := by exact_mod_cast hdecoded.pos hcode
  have hq := hdecoded.min_le
  calc (2 : ℚ) ^ minExponent = 1 * 2 ^ minExponent := (one_mul _).symm
    _ ≤ (decode code).1 * 2 ^ (decode code).2 := by gcongr; norm_num

end

end Magnitude

namespace Decimal
open Magnitude
variable {d : Decimal} {code : Nat}

def value (d : Decimal) : ℚ := d.digits * 10 ^ d.exponent

theorem ratio_pos (d : Decimal) : 0 < d.ratio.2 := by
  unfold ratio
  split
  · exact Nat.one_pos
  · exact Nat.pow_pos (by decide)

theorem ratio_div (d : Decimal) : (d.ratio.1 : ℚ) / d.ratio.2 = d.value := by
  obtain ⟨digits, exponent⟩ := d
  unfold ratio value
  dsimp only
  split
  · rename_i h
    obtain ⟨n, rfl⟩ := Int.eq_ofNat_of_zero_le h
    simp
  · rename_i h
    obtain ⟨n, rfl⟩ : ∃ n : ℕ, exponent = -n := ⟨(-exponent).toNat, by omega⟩
    simp [div_eq_mul_inv]

theorem value_trim (d : Decimal) : d.trim.value = d.value := by
  fun_induction trim d with
  | case1 d h ih =>
    obtain ⟨-, hzero⟩ := h
    have hdigits : (d.digits : ℚ) = (d.digits / 10 : ℕ) * 10 := by
      exact_mod_cast (Nat.div_mul_cancel (Nat.dvd_of_mod_eq_zero hzero)).symm
    rw [ih, value, value, hdigits, zpow_add_one₀ (by norm_num)]
    ring
  | case2 d h => rfl

theorem value_ofMagnitude (code : Nat) : (ofMagnitude code).value = Magnitude.value code := by
  unfold ofMagnitude Magnitude.value value
  dsimp only
  split
  · rename_i h
    obtain ⟨n, hn⟩ := Int.eq_ofNat_of_zero_le h
    rw [hn]
    simp
  · rename_i h
    obtain ⟨n, hn⟩ : ∃ n : ℕ, (decode code).2 = -n := ⟨(-(decode code).2).toNat, by omega⟩
    have hten : (10 : ℚ) ^ n = 5 ^ n * 2 ^ n := by rw [← mul_pow]; norm_num
    rw [hn]
    simp only [neg_neg, Int.toNat_natCast, Nat.pow_eq, zpow_neg, zpow_natCast, hten]
    push_cast
    field_simp

theorem le_value (h : d.digits ≠ 0) : 10 ^ d.exponent ≤ d.value := by
  have hdigits : (1 : ℚ) ≤ d.digits := by exact_mod_cast Nat.pos_of_ne_zero h
  calc (10 : ℚ) ^ d.exponent = 1 * 10 ^ d.exponent := (one_mul _).symm
    _ ≤ d.value := by unfold value; gcongr

theorem value_lt (d : Decimal) : d.value < 10 ^ (d.exponent + digitCount d.digits) := by
  have hdigits : d.digits < 10 ^ digitCount d.digits :=
    (Nat.length_toDigits_le_iff (by decide) Nat.length_toDigits_pos).mp le_rfl
  have hcast : (d.digits : ℚ) < 10 ^ (digitCount d.digits : ℤ) := by exact_mod_cast hdigits
  rw [add_comm, zpow_add₀ (by norm_num)]
  unfold value
  gcongr

theorem two_zpow_lt_ten_zpow : (2 : ℚ) ^ (1200 : ℤ) < 10 ^ (400 : ℤ) := by
  have hcube : (2 : ℚ) ^ (1200 : ℤ) = 8 ^ (400 : ℤ) := by
    rw [show (1200 : ℤ) = 3 * 400 by norm_num, zpow_mul]
    norm_num
  rw [hcube]
  exact zpow_lt_zpow_left₀ (by norm_num) (by norm_num) (by norm_num)

end Decimal
end LineCalc
