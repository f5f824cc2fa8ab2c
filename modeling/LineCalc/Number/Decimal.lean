import LineCalc.Number.Magnitude

/-! Decimals, the exact numbers that text can spell, in both directions: the magnitude a decimal
reads as, and the shortest decimal that reads as a given magnitude. -/

namespace LineCalc

structure Decimal where
  digits : Nat
  exponent : Int
  deriving DecidableEq, Repr

namespace Decimal

def digitCount (n : Nat) : Nat := (Nat.toDigits 10 n).length

def ratio (d : Decimal) : Nat × Nat :=
  if 0 ≤ d.exponent then (d.digits * Nat.pow 10 d.exponent.toNat, 1)
  else (d.digits, Nat.pow 10 (-d.exponent).toNat)

/-- The code of the magnitude nearest to `d`. Orders beyond `400` either way lie far outside the
finite magnitudes, so those powers of ten are never formed. -/
def toMagnitude (d : Decimal) : Nat :=
  if d.digits = 0 then 0
  else if 400 < d.exponent then Magnitude.infinity
  else if d.exponent + digitCount d.digits < -400 then 0
  else Magnitude.nearest d.ratio.1 d.ratio.2

def trim (d : Decimal) : Decimal :=
  if _h : d.digits ≠ 0 ∧ d.digits % 10 = 0 then trim ⟨d.digits / 10, d.exponent + 1⟩ else d
termination_by d.digits
decreasing_by omega

def order (d : Decimal) : Int := d.exponent + digitCount d.digits - 1

inductive Tie where
  | up
  | toEven
  deriving DecidableEq, Repr

/-- Whether the lower of the neighbours `low` and `low + 1` is written, given how the distance to
the lower one compares with half a unit. -/
def Tie.takesLower (tie : Tie) (low : Nat) : Ordering → Bool
  | .lt => true
  | .gt => false
  | .eq => tie = .toEven ∧ low % 2 = 0

/-- The exponent `e` with `10 ^ e ≤ num / den < 10 ^ (e + 1)`, for positive `num` and `den`. -/
def orderOfRatio (num den : Nat) : Int :=
  if den ≤ num then (digitCount (num / den) : Int) - 1 else -(digitCount ((den - 1) / num) : Int)

def ofMagnitude (code : Nat) : Decimal :=
  let (m, q) := Magnitude.decode code
  if 0 ≤ q then ⟨m * Nat.pow 2 q.toNat, 0⟩ else ⟨m * Nat.pow 5 (-q).toNat, q⟩

/-- A multiple of `10 ^ unit` that reads as `code`: one of the two next to its value, the nearer
if both do. -/
def onGrid (tie : Tie) (code : Nat) (unit : Int) : Option Decimal :=
  let (num, den) := (ofMagnitude code).ratio
  let (n, d) := Magnitude.rescale 10 num den unit
  let low := n / d
  let below := trim ⟨low, unit⟩
  let above := trim ⟨low + 1, unit⟩
  match decide (below.toMagnitude = code), decide (above.toMagnitude = code) with
  | true, true => some (if tie.takesLower low (compare (2 * (n % d)) d) then below else above)
  | true, false => some below
  | false, true => some above
  | false, false => none

/-- A decimal with the fewest digits that reads as `code`, and among those one nearest to it.
Seventeen digits always suffice; the exact value closes the search without relying on that. -/
def shortest (tie : Tie) (code : Nat) : Decimal :=
  if code = 0 then ⟨0, 0⟩
  else
    let (num, den) := (ofMagnitude code).ratio
    let top := orderOfRatio num den
    ((List.range 17).findSome? fun (i : Nat) => onGrid tie code (top - i)).getD
      (trim (ofMagnitude code))

end Decimal
end LineCalc
