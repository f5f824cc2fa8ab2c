import Mathlib
import LineCalc.Proofs.Bits
import LineCalc.Proofs.Lexemes

/-! Written numbers. The plain text of a finite number is a numeral of digits and perhaps a point,
with a sign in front when the number is negative, and reading it gives the number back. -/

namespace LineCalc

namespace Numeral
open Magnitude
variable {d : Decimal} {pointZero negative : Bool}

theorem digitsValue_toDigits (n : Nat) : digitsValue (Nat.toDigits 10 n) = n := by
  rw [digitsValue_eq, Nat.ofDigitChars_ten_toDigits]

theorem toMagnitude_positional (d : Decimal) (negative : Bool) :
    (positional false negative d).decimal.toMagnitude = d.toMagnitude := by
  obtain ⟨n, e⟩ := d
  unfold positional
  dsimp only
  split
  · rename_i he
    obtain ⟨k, rfl⟩ := Int.eq_ofNat_of_zero_le he
    have hdecimal : decimal ⟨negative, Nat.toDigits 10 n ++ List.replicate k '0', [], none⟩ =
        ⟨10 ^ k * n, 0⟩ := by
      unfold decimal
      rw [List.append_nil, digitsValue_eq, Nat.ofDigitChars_append, Nat.ofDigitChars_ten_toDigits,
        Nat.ofDigitChars_replicate_zero]
      rfl
    refine (congrArg Decimal.toMagnitude hdecimal).trans (Decimal.toMagnitude_congr ?_)
    simp [Decimal.value, mul_comm]
  · rename_i he
    obtain ⟨k, rfl⟩ : ∃ k : ℕ, e = -k := ⟨(-e).toNat, by omega⟩
    rw [neg_neg, Int.toNat_natCast]
    -- both forms show all digits, with `k` of them after the point
    split
    · rename_i hk
      congr 1
      unfold decimal
      dsimp only
      rw [List.take_append_drop, digitsValue_toDigits, List.length_drop, Nat.sub_sub_self hk.le,
        Option.getD_none, zero_sub]
    · rename_i hk
      congr 1
      unfold decimal
      dsimp only
      rw [digitsValue_eq, List.singleton_append, Nat.ofDigitChars_cons, Nat.ofDigitChars_append,
        Nat.ofDigitChars_replicate_zero, mul_zero, Nat.sub_self, add_zero, mul_zero,
        Nat.ofDigitChars_ten_toDigits, List.length_append, List.length_replicate,
        Nat.sub_add_cancel (not_lt.mp hk), Option.getD_none, zero_sub]

theorem isDigit_toDigits {c : Char} {n : Nat} (h : c ∈ Nat.toDigits 10 n) : c.isDigit :=
  Nat.isDigit_of_mem_toDigits (by decide) (by decide) h

structure IsPlain (n : Numeral) : Prop where
  negative : n.negative = false
  whole_ne_nil : n.whole ≠ []
  whole : ∀ c ∈ n.whole, c.isDigit
  fraction : ∀ c ∈ n.fraction, c.isDigit
  exponent : n.exponent = none

theorem isPlain_positional (d : Decimal) : IsPlain (positional false false d) := by
  unfold positional
  dsimp only
  split
  · refine ⟨rfl, by simp, ?_, by simp, rfl⟩
    refine List.forall_mem_append.mpr ⟨fun c => isDigit_toDigits, fun c hc => ?_⟩
    rw [List.eq_of_mem_replicate hc]
    rfl
  · split
    · rename_i hplaces
      refine ⟨rfl, ?_, fun c hc => isDigit_toDigits (List.mem_of_mem_take hc),
        fun c hc => isDigit_toDigits (List.mem_of_mem_drop hc), rfl⟩
      rw [ne_eq, ← List.length_eq_zero_iff, List.length_take]
      omega
    · refine ⟨rfl, by simp, by simp, ?_, rfl⟩
      refine List.forall_mem_append.mpr ⟨fun c hc => ?_, fun c => isDigit_toDigits⟩
      rw [List.eq_of_mem_replicate hc]
      rfl

theorem IsPlain.text_eq {n : Numeral} (h : n.IsPlain) (plus : Bool) :
    n.text plus = n.whole ++ if n.fraction = [] then [] else '.' :: n.fraction := by
  unfold text
  rw [h.negative, h.exponent]
  simp

theorem IsPlain.word {n : Numeral} (h : n.IsPlain) (plus : Bool) {rest : List Char}
    (hdigit : ∀ c ∈ rest.head?, ¬ c.isDigit) (hpoint : rest.head? ≠ some '.') :
    Token.Word (.number n.toNumber) (n.text plus) rest := by
  rw [h.text_eq plus]
  obtain ⟨negative, whole, fraction, exponent⟩ := n
  obtain ⟨rfl, hne, hwhole, hfraction, rfl⟩ := h
  dsimp only at hne hwhole hfraction ⊢
  split
  · rename_i hnil
    subst hnil
    rw [List.append_nil]
    refine .integer hne hwhole hdigit ?_
    rintro c later rfl
    exact absurd rfl hpoint
  · rename_i hnil
    exact .decimal hne hwhole hnil hfraction hdigit

theorem text_positional_negative (pointZero plus : Bool) (d : Decimal) :
    (positional pointZero true d).text plus = '-' :: (positional pointZero false d).text plus := by
  unfold positional text
  dsimp only
  split
  · rfl
  · split <;> rfl

end Numeral

/-- The text of a decimal number: perhaps a sign, then digits, then perhaps a point with digits
after it. -/
def IsDecimal (line : String) : Prop :=
  ∃ sign whole fraction : List Char, line.toList = sign ++ whole ++ fraction ∧
    (sign = [] ∨ sign = ['-']) ∧ (whole ≠ [] ∧ ∀ c ∈ whole, c.isDigit) ∧
    (fraction = [] ∨ ∃ digits, fraction = '.' :: digits ∧ digits ≠ [] ∧ ∀ c ∈ digits, c.isDigit)

theorem IsDecimal.mem {line : String} (h : IsDecimal line) {c : Char} (hc : c ∈ line.toList) :
    c = '-' ∨ c = '.' ∨ c.isDigit := by
  obtain ⟨sign, whole, fraction, hline, hsign, ⟨-, hwhole⟩, hfraction⟩ := h
  rw [hline, List.mem_append, List.mem_append] at hc
  rcases hc with (hc | hc) | hc
  · rcases hsign with rfl | rfl
    · cases hc
    · exact .inl (List.mem_singleton.mp hc)
  · exact .inr (.inr (hwhole c hc))
  · rcases hfraction with rfl | ⟨digits, rfl, -, hdigits⟩
    · cases hc
    · rcases List.mem_cons.mp hc with hc | hc
      · exact .inr (.inl hc)
      · exact .inr (.inr (hdigits c hc))

theorem IsDecimal.not_mem {line : String} (h : IsDecimal line) : line ∉ ["inf", "-inf", "NaN"] := by
  have hletter {c : Char} (hc : c = 'i' ∨ c = 'N') : c ∉ line.toList := by
    intro hmem
    have := h.mem hmem
    rcases hc with rfl | rfl <;> revert this <;> decide
  simp only [List.mem_cons, List.not_mem_nil, or_false]
  rintro (rfl | rfl | rfl)
  · exact hletter (.inl rfl) (by decide)
  · exact hletter (.inl rfl) (by decide)
  · exact hletter (.inr rfl) (by decide)

theorem IsDecimal.lineFeed_not_mem {line : String} (h : IsDecimal line) : '\n' ∉ line.toList := by
  intro hmem
  have := h.mem hmem
  revert this
  decide

theorem Numeral.IsPlain.isDecimal {n : Numeral} (h : n.IsPlain) {sign : List Char}
    (hsign : sign = [] ∨ sign = ['-']) (plus : Bool) :
    IsDecimal (String.ofList (sign ++ n.text plus)) := by
  refine ⟨sign, n.whole, if n.fraction = [] then [] else '.' :: n.fraction, ?_, hsign,
    ⟨h.whole_ne_nil, h.whole⟩, ?_⟩
  · rw [String.toList_ofList, h.text_eq, List.append_assoc]
  · split
    · exact .inl rfl
    · rename_i hne
      exact .inr ⟨n.fraction, rfl, hne, h.fraction⟩

namespace Number
variable {x : Number}

theorem toList_text (h : x.isFinite) : x.text.toList =
    (Numeral.positional false x.isNegative (Decimal.shortest .up x.magnitude)).text false := by
  unfold text textIn
  rw [Nat.compare_eq_lt.mpr ((isFinite_iff x).mp h)]
  exact String.toList_ofList

theorem toList_text_of_isNegative (hfinite : x.isFinite) (hsign : x.isNegative) :
    x.text.toList = '-' :: (-x).text.toList := by
  have hpositive : (-x).isNegative = false := by
    rw [isNegative_neg hfinite, hsign]
    rfl
  rw [toList_text hfinite, toList_text (isFinite_neg hfinite), magnitude_neg hfinite, hsign,
    hpositive, Numeral.text_positional_negative]

theorem isDecimal_text (h : x.isFinite) : IsDecimal x.text := by
  have hplain := Numeral.isPlain_positional (Decimal.shortest .up x.magnitude)
  rw [← String.ofList_toList (s := x.text), toList_text h]
  cases x.isNegative with
  | false => exact hplain.isDecimal (.inl rfl) false
  | true =>
    rw [Numeral.text_positional_negative]
    exact hplain.isDecimal (.inr rfl) false

theorem isDecimal_valueText (h : x.isFinite) : IsDecimal x.valueText := by
  unfold valueText
  split
  · exact ⟨[], ['0'], [], rfl, .inl rfl, by simp, .inl rfl⟩
  · exact isDecimal_text h

theorem word_text (hfinite : x.isFinite) (hsign : ¬ x.isNegative) {rest : List Char}
    (hdigit : ∀ c ∈ rest.head?, ¬ c.isDigit) (hpoint : rest.head? ≠ some '.') :
    Token.Word (.number x) x.text.toList rest := by
  have hmagnitude : x.magnitude < Magnitude.infinity := (isFinite_iff x).mp hfinite
  have hnegative : x.isNegative = false := Bool.eq_false_iff.mpr hsign
  have hnumeral : Numeral.ofNumber plainStyle x =
      Numeral.positional false false (Decimal.shortest .up x.magnitude) := by
    unfold Numeral.ofNumber
    rw [hnegative]
    rfl
  have hshortest := Decimal.toMagnitude_shortest .up hmagnitude
  have hplain : (Numeral.ofNumber plainStyle x).IsPlain := by
    rw [hnumeral]
    exact Numeral.isPlain_positional _
  have hnumber : (Numeral.ofNumber plainStyle x).toNumber = x := by
    unfold Numeral.toNumber
    rw [hplain.negative, hnumeral, Numeral.toMagnitude_positional, hshortest,
      ← hnegative, ofMagnitude_self]
  have htext : x.text.toList = (Numeral.ofNumber plainStyle x).text false := toList_text hfinite
  have hword := hplain.word false hdigit hpoint
  rwa [hnumber, ← htext] at hword

end Number
end LineCalc
