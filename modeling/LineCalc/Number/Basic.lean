import LineCalc.Number.Decimal

/-! Numbers of the language and their written forms. A number is a binary64 value. A numeral is
what stands on paper: a sign, digits before and after the point, perhaps an exponent. A style
says which numeral is written for a number; reading a numeral needs no style. -/

namespace LineCalc

abbrev Number := Float

namespace Number

/-- The code of the magnitude. Codes beyond `Magnitude.infinity` are not numbers. -/
def magnitude (x : Number) : Nat := x.toBits.toNat % Nat.pow 2 63

def isNegative (x : Number) : Bool := Nat.pow 2 63 ≤ x.toBits.toNat

def ofMagnitude (negative : Bool) (code : Nat) : Number :=
  Float.ofBits (UInt64.ofNat (if negative then Nat.pow 2 63 + code else code))

end Number

/-- A written number. The digit lists hold decimal digits; an empty fraction is written without
a point. -/
structure Numeral where
  negative : Bool
  whole : List Char
  fraction : List Char
  exponent : Option Int
  deriving DecidableEq, Repr

namespace Numeral

def digitsValue (digits : List Char) : Nat :=
  digits.foldl (fun n c => 10 * n + (c.toNat - '0'.toNat)) 0

def decimal (n : Numeral) : Decimal :=
  ⟨digitsValue (n.whole ++ n.fraction), n.exponent.getD 0 - n.fraction.length⟩

def toNumber (n : Numeral) : Number := Number.ofMagnitude n.negative n.decimal.toMagnitude

def text (plus : Bool) (n : Numeral) : List Char :=
  let sign := if n.negative then ['-'] else []
  let fraction := if n.fraction = [] then [] else '.' :: n.fraction
  let exponent :=
    match n.exponent with
    | none => []
    | some e =>
      let mark := if e < 0 then ['-'] else if plus then ['+'] else []
      'e' :: (mark ++ Nat.toDigits 10 e.natAbs)
  sign ++ n.whole ++ fraction ++ exponent

end Numeral

/-- How numbers are written. All styles write the shortest digits that read back. -/
structure Number.Style where
  tie : Decimal.Tie
  /-- Whether a number whose leading digit counts `10 ^ order` is written without an exponent. -/
  positional : Int → Bool
  pointZero : Bool
  plus : Bool

namespace Numeral

/-- The digits of `d` around the point: `d` itself if it is whole, else with zeros in front when
the point stands before the first digit. -/
def positional (pointZero : Bool) (negative : Bool) (d : Decimal) : Numeral :=
  let digits := Nat.toDigits 10 d.digits
  let places := (-d.exponent).toNat
  if 0 ≤ d.exponent then
    ⟨negative, digits ++ List.replicate d.exponent.toNat '0', if pointZero then ['0'] else [], none⟩
  else if places < digits.length then
    ⟨negative, digits.take (digits.length - places), digits.drop (digits.length - places), none⟩
  else ⟨negative, ['0'], List.replicate (places - digits.length) '0' ++ digits, none⟩

def scientific (negative : Bool) (d : Decimal) : Numeral :=
  let digits := Nat.toDigits 10 d.digits
  ⟨negative, digits.take 1, digits.drop 1, some d.order⟩

def ofNumber (style : Number.Style) (x : Number) : Numeral :=
  let d := Decimal.shortest style.tie x.magnitude
  if style.positional d.order then positional style.pointZero x.isNegative d
  else scientific x.isNegative d

end Numeral

namespace Number

/-- Positional at any size, without a point when whole. -/
def plainStyle : Style := ⟨.up, fun _ => true, false, false⟩

def textIn (style : Style) (x : Number) : String :=
  match compare x.magnitude Magnitude.infinity with
  | .lt => String.ofList ((Numeral.ofNumber style x).text style.plus)
  | .eq => if x.isNegative then "-inf" else "inf"
  | .gt => "NaN"

/-- The plain text of a number, in which zero keeps its sign. -/
def text (x : Number) : String := x.textIn plainStyle

/-- The text of a computed value: plain, and one zero for both signs. -/
def valueText (x : Number) : String := if x == 0 then "0" else x.text

end Number
end LineCalc
