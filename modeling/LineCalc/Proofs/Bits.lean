import Mathlib
import LineCalc.Number.Basic

/-! Numbers and their bit patterns. A number is known by its bits, hence by its sign and its
magnitude. Negating a finite number changes its sign and keeps its magnitude. -/

namespace LineCalc.Number
open Float.Model UnpackedFloat

section
variable {s : Sign} {E : BitVec 11} {M : BitVec 52} {b : BitVec Format.binary64.numBits}

theorem packComponents_parts (b : BitVec Format.binary64.numBits) :
    packComponents .binary64 (Sign.ofBitVec (unpackSign b)) (unpackExponent b)
      (unpackMantissa b) = b := by
  have hsign (v : BitVec 1) : (Sign.ofBitVec v).toBitVec = v := by
    revert v
    decide
  refine BitVec.eq_of_getLsbD_eq fun i hi => ?_
  have hi : i < 64 := hi
  simp only [packComponents, hsign, BitVec.getLsbD_append, unpackSign, unpackExponent,
    unpackMantissa, BitVec.getLsbD_cast, BitVec.getLsbD_extractLsb]
  by_cases hmantissa : i < 52
  · rw [if_pos hmantissa, decide_eq_true (by omega), Bool.true_and, Nat.zero_add]
  rw [if_neg hmantissa]
  by_cases hexponent : i - 52 < 11
  · have hindex : 52 + (i - 52) = i := by omega
    rw [if_pos hexponent, decide_eq_true (by omega), Bool.true_and, hindex]
  · have hindex : 52 + 11 + (i - 52 - 11) = i := by omega
    rw [if_neg hexponent, decide_eq_true (by omega), Bool.true_and, hindex]

theorem pack_subnormal (hM : 0 < M.toNat) :
    UnpackedFloat.pack .binary64 (.finite s M.toNat (-1074) hM) =
      packComponents .binary64 s 0 M := by
  have hlog : M.toNat.log2 < 52 := (Nat.log2_lt (Nat.ne_of_gt hM)).mpr M.isLt
  have hnormal : ¬ M.toNat.log2 + 1 = Format.binary64.mantissaBits := by
    change ¬ M.toNat.log2 + 1 = 53
    omega
  unfold UnpackedFloat.pack
  dsimp only
  rw [if_neg (by decide), if_neg hnormal, BitVec.ofNat_toNat, BitVec.setWidth_eq]
  rfl

theorem toNat_one_append (M : BitVec 52) : (1#1 ++ M).toNat = 2 ^ 52 + M.toNat := by
  have hdisjoint := Nat.two_pow_add_eq_or_of_lt M.isLt 1
  rw [Nat.mul_one] at hdisjoint
  rw [hdisjoint, BitVec.toNat_append]
  rfl

theorem pack_normal (h : E.toNat ≠ 2047) (hM : 0 < (1#1 ++ M).toNat) :
    UnpackedFloat.pack .binary64 (.finite s (1#1 ++ M).toNat (E.toNat - 1075) hM) =
      packComponents .binary64 s E M := by
  have hvalue := toNat_one_append M
  have hlog : (1#1 ++ M).toNat.log2 + 1 = Format.binary64.mantissaBits := by
    have hlow : 52 ≤ (1#1 ++ M).toNat.log2 := (Nat.le_log2 (by omega)).mpr (by omega)
    have hhigh : (1#1 ++ M).toNat.log2 < 53 := (Nat.log2_lt (by omega)).mpr (by omega)
    change (1#1 ++ M).toNat.log2 + 1 = 53
    omega
  have hbiased : ((E.toNat : Int) - 1075 + Format.binary64.exponentBias +
      Format.binary64.mantissaBitsWithoutImplicit).toNat = E.toNat := by
    change ((E.toNat : Int) - 1075 + 1023 + 52).toNat = E.toNat
    omega
  have hmantissa : BitVec.ofNat 52 (1#1 ++ M).toNat = M := by
    apply BitVec.eq_of_toNat_eq
    rw [BitVec.toNat_ofNat, hvalue]
    omega
  have hfinite : ¬ 2 ^ 11 ≤ E.toNat + 1 := by omega
  unfold UnpackedFloat.pack
  dsimp only
  rw [hbiased, if_neg hfinite, if_pos hlog, hmantissa, BitVec.ofNat_toNat, BitVec.setWidth_eq]

/-- A finite pattern is a sign, and something that keeps its exponent and mantissa under any
sign. -/
theorem unpack_of_finite (h : unpackExponent b ≠ -1#11) :
    ∃ u : Sign → UnpackedFloat,
      UnpackedFloat.unpack .binary64 b = u (Sign.ofBitVec (unpackSign b)) ∧
      (∀ s, (u s).neg = u (-s)) ∧
      ∀ s, UnpackedFloat.pack .binary64 (u s) =
        packComponents .binary64 s (unpackExponent b) (unpackMantissa b) := by
  unfold UnpackedFloat.unpack
  dsimp only
  rw [if_neg h]
  split
  · rename_i hzero
    rw [hzero]
    split
    · rename_i hmantissa
      rw [hmantissa]
      exact ⟨.zero, rfl, fun s => rfl, fun s => rfl⟩
    · exact ⟨(.finite · _ _ _), rfl, fun s => rfl, fun s => pack_subnormal _⟩
  · have hne : (unpackExponent b).toNat ≠ 2047 := fun h2047 => h (BitVec.eq_of_toNat_eq h2047)
    exact ⟨(.finite · _ _ _), rfl, fun s => rfl, fun s => pack_normal hne _⟩

theorem pack_unpack (h : Format.binary64.Valid b) :
    UnpackedFloat.pack .binary64 (UnpackedFloat.unpack .binary64 b) = b := by
  have hparts := packComponents_parts b
  by_cases hexponent : unpackExponent b = -1#11
  · unfold UnpackedFloat.unpack
    dsimp only
    rw [if_pos hexponent]
    split
    · rename_i hmantissa
      rw [hexponent, hmantissa] at hparts
      exact hparts
    · rename_i hmantissa
      exact (h.eq_packedNaN hexponent hmantissa).symm
  · obtain ⟨u, hu, -, hpack⟩ := unpack_of_finite hexponent
    rw [hu, hpack, hparts]

theorem toNat_packComponents (s : Sign) (E : BitVec 11) (M : BitVec 52) :
    (packComponents .binary64 s E M).toNat =
      s.toBitVec.toNat * 2 ^ 63 + (E.toNat * 2 ^ 52 + M.toNat) := by
  have hE := E.isLt
  have hM := M.isLt
  change (s.toBitVec ++ E ++ M).toNat = _
  rw [BitVec.toNat_append, BitVec.toNat_append, ← Nat.shiftLeft_add_eq_or_of_lt hM,
    ← Nat.shiftLeft_add_eq_or_of_lt hE, Nat.shiftLeft_eq, Nat.shiftLeft_eq]
  ring

theorem eq_zero_of_beq {u : UnpackedFloat} (h : u.beq (.zero .positive)) : ∃ s, u = .zero s := by
  cases u with
  | zero s => exact ⟨s, rfl⟩
  | notANumber => simp [UnpackedFloat.beq, UnpackedFloat.compare] at h
  | infinity s => cases s <;> simp [UnpackedFloat.beq, UnpackedFloat.compare] at h
  | finite s m e hm => cases s <;> simp [UnpackedFloat.beq, UnpackedFloat.compare] at h

end

theorem ofBits_toBits (x : Number) : Float.ofBits x.toBits = x := by
  obtain ⟨⟨bits, hvalid⟩⟩ := x
  have hbits : UInt64.ofBitVec (UnpackedFloat.pack .binary64
      (UnpackedFloat.unpack .binary64 bits.toBitVec)) = bits := by
    rw [pack_unpack hvalid]
  have hmodel : Float.Model.ofBits bits = ⟨bits, hvalid⟩ := by
    unfold Float.Model.ofBits Float.Model.pack
    congr
  exact congrArg Float.ofModel hmodel

theorem magnitude_eq (x : Number) : x.magnitude = x.toBits.toNat % 2 ^ 63 := rfl

theorem magnitude_lt_infinity_iff (x : Number) : x.magnitude < Magnitude.infinity ↔
    x.toBits.toNat / 2 ^ 52 % 2 ^ 11 ≠ 2047 := by
  have hbits : x.toBits.toNat < 2 ^ 64 := x.toBits.toNat_lt
  change x.toBits.toNat % 2 ^ 63 < 2047 * 2 ^ 52 ↔ _
  omega

theorem isFinite_iff_exponent (x : Number) :
    x.isFinite ↔ @unpackExponent .binary64 x.toBits.toBitVec ≠ -1#11 := by
  change (UnpackedFloat.unpack .binary64 x.toBits.toBitVec).isFinite ↔ _
  unfold UnpackedFloat.unpack
  dsimp only
  split
  · rename_i hexponent
    have : @unpackExponent .binary64 x.toBits.toBitVec = -1#11 := hexponent
    split <;> simpa [UnpackedFloat.isFinite] using this
  · rename_i hexponent
    have : @unpackExponent .binary64 x.toBits.toBitVec ≠ -1#11 := hexponent
    repeat' split
    all_goals simpa [UnpackedFloat.isFinite] using this

theorem toNat_unpackExponent (bits : UInt64) :
    (@unpackExponent .binary64 bits.toBitVec).toNat = bits.toNat / 2 ^ 52 % 2 ^ 11 := by
  unfold unpackExponent
  rw [BitVec.toNat_cast, BitVec.extractLsb_toNat, Nat.shiftRight_eq_div_pow]
  rfl

theorem isFinite_iff (x : Number) : x.isFinite ↔ x.magnitude < Magnitude.infinity := by
  rw [magnitude_lt_infinity_iff, ← toNat_unpackExponent, isFinite_iff_exponent, ne_eq, ne_eq,
    ← BitVec.toNat_inj]
  rfl

theorem ofMagnitude_self (x : Number) : ofMagnitude x.isNegative x.magnitude = x := by
  have hbits : x.toBits.toNat < 2 ^ 64 := x.toBits.toNat_lt
  have hcode : (if x.isNegative then Nat.pow 2 63 + x.magnitude else x.magnitude) =
      x.toBits.toNat := by
    rw [magnitude_eq]
    change (if decide (2 ^ 63 ≤ x.toBits.toNat) = true then 2 ^ 63 + _ else _) = _
    split
    · rename_i h
      have := of_decide_eq_true h
      omega
    · rename_i h
      have := of_decide_eq_false (Bool.eq_false_iff.mpr h)
      omega
  unfold ofMagnitude
  rw [hcode, UInt64.ofNat_toNat, ofBits_toBits]

theorem toBits_ofBits {bits : UInt64} (h : @unpackExponent .binary64 bits.toBitVec ≠ -1#11) :
    (Float.ofBits bits).toBits = bits := by
  obtain ⟨u, hu, -, hpack⟩ := unpack_of_finite h
  change UInt64.ofBitVec (UnpackedFloat.pack .binary64
    (UnpackedFloat.unpack .binary64 bits.toBitVec)) = bits
  rw [hu, hpack, packComponents_parts]

theorem toNat_toBits_ofMagnitude {code : Nat} (negative : Bool) (h : code < Magnitude.infinity) :
    (ofMagnitude negative code).toBits.toNat =
      if negative then Nat.pow 2 63 + code else code := by
  have hcode : code < 2047 * 2 ^ 52 := h
  unfold ofMagnitude
  generalize hn : (if negative then Nat.pow 2 63 + code else code) = n
  have hcases : n = 2 ^ 63 + code ∨ n = code := by
    cases negative with
    | false => exact .inr hn.symm
    | true => exact .inl hn.symm
  have hn64 : n < 2 ^ 64 := by omega
  have hbits : (UInt64.ofNat n).toNat = n := UInt64.toNat_ofNat_of_lt' hn64
  have hexponent : @unpackExponent .binary64 (UInt64.ofNat n).toBitVec ≠ -1#11 := by
    intro heq
    have hfield := toNat_unpackExponent (UInt64.ofNat n)
    rw [heq, hbits] at hfield
    change 2047 = n / 2 ^ 52 % 2 ^ 11 at hfield
    omega
  rw [toBits_ofBits hexponent, hbits]

variable {x y : Number}

theorem toBits_neg (h : x.isFinite) : ∃ (s : Sign) (E : BitVec 11) (M : BitVec 52),
    x.toBits.toBitVec = packComponents .binary64 s E M ∧
      (-x).toBits.toBitVec = packComponents .binary64 (-s) E M := by
  obtain ⟨u, hu, hneg, hpack⟩ := unpack_of_finite ((isFinite_iff_exponent x).mp h)
  refine ⟨_, _, _, (packComponents_parts x.toBits.toBitVec).symm, ?_⟩
  change UnpackedFloat.pack .binary64 (UnpackedFloat.unpack .binary64 x.toBits.toBitVec).neg = _
  rw [hu, hneg, hpack]

theorem toNat_toBits_neg (h : x.isFinite) :
    (-x).toBits.toNat = (x.toBits.toNat + 2 ^ 63) % 2 ^ 64 := by
  obtain ⟨s, E, M, hx, hneg⟩ := toBits_neg h
  have hE := E.isLt
  have hM := M.isLt
  change (-x).toBits.toBitVec.toNat = (x.toBits.toBitVec.toNat + 2 ^ 63) % 2 ^ 64
  rw [hx, hneg, toNat_packComponents, toNat_packComponents]
  cases s
  · change 0 * 2 ^ 63 + _ = (1 * 2 ^ 63 + _ + 2 ^ 63) % 2 ^ 64
    omega
  · change 1 * 2 ^ 63 + _ = (0 * 2 ^ 63 + _ + 2 ^ 63) % 2 ^ 64
    omega

theorem magnitude_neg (h : x.isFinite) : (-x).magnitude = x.magnitude := by
  rw [magnitude_eq, magnitude_eq, toNat_toBits_neg h]
  omega

theorem isNegative_neg (h : x.isFinite) : (-x).isNegative = !x.isNegative := by
  have hbits : x.toBits.toNat < 2 ^ 64 := x.toBits.toNat_lt
  unfold isNegative
  rw [toNat_toBits_neg h, ← decide_not, decide_eq_decide]
  change 2 ^ 63 ≤ _ % 2 ^ 64 ↔ ¬ 2 ^ 63 ≤ _
  omega

theorem isFinite_neg (h : x.isFinite) : (-x).isFinite := by
  rw [isFinite_iff, magnitude_neg h, ← isFinite_iff]
  exact h

theorem eq_of_magnitude (h : x.magnitude = y.magnitude) (hsign : x.isNegative = y.isNegative) :
    x = y := by
  rw [← ofMagnitude_self x, h, hsign, ofMagnitude_self]

theorem neg_neg_of_isFinite (h : x.isFinite) : - -x = x := by
  apply eq_of_magnitude
  · rw [magnitude_neg (isFinite_neg h), magnitude_neg h]
  · rw [isNegative_neg (isFinite_neg h), isNegative_neg h, Bool.not_not]

theorem beq_zero_iff (x : Number) : x == 0 ↔ x.magnitude = 0 := by
  constructor
  · intro h
    obtain ⟨s, hs⟩ : ∃ s, x.toModel.unpack = .zero s := eq_zero_of_beq h
    have hbits : packComponents .binary64 s 0 0 = x.toBits.toBitVec := by
      have hpack := congrArg (UnpackedFloat.pack .binary64) hs
      exact hpack.symm.trans (pack_unpack x.toModel.valid)
    have hnat : x.toBits.toNat = s.toBitVec.toNat * 2 ^ 63 := by
      rw [← UInt64.toNat_toBitVec, ← hbits, toNat_packComponents]
      simp
    rw [magnitude_eq, hnat, Nat.mul_mod_left]
  · intro h
    cases hsign : x.isNegative with
    | false =>
      have hx : x = 0 := eq_of_magnitude h hsign
      rw [hx]
      rfl
    | true =>
      have hx : x = -0 := eq_of_magnitude h hsign
      rw [hx]
      rfl

end LineCalc.Number
