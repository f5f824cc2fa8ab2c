/-! Magnitudes: the binary64 values that are not negative, coded by their bit patterns, so that
`0` is zero, the codes grow with the values and `infinity` is the first code past the finite
ones. Exact values are ratios of naturals, and rounding one to a code is integer arithmetic. -/

namespace LineCalc.Magnitude

/-- Stored mantissa bits of a code; the bits above them hold the exponent. -/
def fractionBits : Nat := 52

def minExponent : Int := -1074

def infinity : Nat := 2047 * Nat.pow 2 fractionBits

/-- The pair `(m, q)` with `m * 2 ^ q` the value of a finite code. Below `2 ^ fractionBits` the
spacing is that of the smallest magnitude; above it the leading bit of `m` is not stored. -/
def decode (code : Nat) : Nat × Int :=
  let field := code / Nat.pow 2 fractionBits
  let fraction := code % Nat.pow 2 fractionBits
  if field = 0 then (fraction, minExponent)
  else (Nat.pow 2 fractionBits + fraction, minExponent + (field - 1 : Nat))

def rescale (base num den : Nat) (k : Int) : Nat × Nat :=
  if 0 ≤ k then (num, den * base.pow k.toNat) else (num * base.pow (-k).toNat, den)

def roundDiv (num den : Nat) : Nat :=
  let quotient := num / den
  match compare (2 * (num % den)) den with
  | .lt => quotient
  | .eq => quotient + quotient % 2
  | .gt => quotient + 1

/-- The exponent `e` with `2 ^ e ≤ num / den < 2 ^ (e + 1)`, for positive `num` and `den`. -/
def binaryOrder (num den : Nat) : Int :=
  let e := (num.log2 : Int) - den.log2
  let (n, d) := rescale 2 num den e
  if d ≤ n then e else e - 1

/-- The code nearest to `num / den`, a half going to the even mantissa. The mantissa is counted
in units of `2 ^ q`; adding it below the exponent field carries into the field by itself when the
mantissa rounds up to a power of two. Values past the finite codes give `infinity`. -/
def nearest (num den : Nat) : Nat :=
  if num = 0 then 0
  else
    let q := max minExponent (binaryOrder num den - fractionBits)
    let (n, d) := rescale 2 num den q
    min infinity ((q - minExponent).toNat * Nat.pow 2 fractionBits + roundDiv n d)

end LineCalc.Magnitude
