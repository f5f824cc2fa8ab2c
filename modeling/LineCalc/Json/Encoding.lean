import LineCalc.Json.Reader
import LineCalc.Log

/-! Tokens and programs as JSON. A case of a type without data is a string, one with data an
object with one key; records are objects. Reading is more liberal than writing: a record may also
be an array of all its fields in order, an object may have further fields, and a case without data
may be written as an object with a null.

What is read may nest only so deep. `room` counts how many arrays and objects may still open
inside one another; fields that are ignored do not count. -/

namespace LineCalc

namespace Json

/-- How many arrays and objects may stand inside one another in what is read. -/
def maxDepth : Nat := 127

def string? : Json → Option String
  | string s => s
  | _ => none

/-- Adds decimal digits to a number for as long as it stays below `2 ^ 64`, and returns the digits
that are left. -/
def addDigits (n : Nat) : List Char → Nat × List Char
  | [] => (n, [])
  | c :: digits =>
    let longer := 10 * n + (c.toNat - '0'.toNat)
    if longer < Nat.pow 2 64 then addDigits longer digits else (n, c :: digits)

def powerOfTen (k : Nat) : Number := .ofMagnitude false (Decimal.toMagnitude ⟨1, k⟩)

def scaleUp (x : Number) (k : Nat) : Option Number :=
  if k ≤ 308 then
    let y := x * powerOfTen k
    if y.isFinite then some y else none
  else if x == 0 then some x
  else none

def scaleDown (x : Number) (k : Nat) : Number :=
  if k ≤ 308 then x / powerOfTen k
  else if x == 0 then x
  else scaleDown (x / powerOfTen 308) (k - 308)
termination_by k

/-- A number, unless it is too large. Its leading digits are rounded first and then scaled by a power
of ten, so that the result may differ from the nearest number in its last bit. -/
def number? : Json → Option Number
  | number n => do
    let (whole, dropped) := addDigits 0 n.whole
    let (significand, lost) := addDigits whole n.fraction
    let x := Number.ofMagnitude false (Magnitude.nearest significand 1)
    let e := n.exponent.getD 0 + dropped.length - (n.fraction.length - lost.length : Nat)
    let y ← if 0 ≤ e then scaleUp x e.toNat else some (scaleDown x (-e).toNat)
    return if n.negative then -y else y
  | _ => none

/-- A natural number below `2 ^ 64`, written without a sign, a point or an exponent. -/
def nat? : Json → Option Nat
  | number ⟨false, whole, [], none⟩ =>
    let n := Numeral.digitsValue whole
    if n < Nat.pow 2 64 then some n else none
  | _ => none

def member? (members : List (Option String × Json)) (name : String) : Option Json :=
  match members.filter (·.1 = some name) with
  | [m] => some m.2
  | _ => none

def fields? (names : List String) : Json → Option (List Json)
  | object members => if members.all (·.1.isSome) then names.mapM (member? members) else none
  | array items => if items.length = names.length then some items else none
  | _ => none

def items? {α : Type} (item? : Json → Option α) : Json → Option (List α)
  | array items => items.mapM item?
  | _ => none

def case? (room : Nat) : Json → Option String
  | string s => s
  | object [(tag, null)] => if 0 < room then tag else none
  | _ => none

end Json

open Json

namespace UnaryOp

def toJson : UnaryOp → Json
  | neg => ofString "Neg"

def ofJson? (room : Nat) (j : Json) : Option UnaryOp :=
  match j.case? room with
  | some "Neg" => some neg
  | _ => none

end UnaryOp

namespace BinaryOp

def toJson : BinaryOp → Json
  | add => ofString "Add"
  | sub => ofString "Sub"
  | mul => ofString "Mul"
  | div => ofString "Div"

def ofJson? (room : Nat) (j : Json) : Option BinaryOp :=
  match j.case? room with
  | some "Add" => some add
  | some "Sub" => some sub
  | some "Mul" => some mul
  | some "Div" => some div
  | _ => none

end BinaryOp

namespace Expr

def toJson : Expr → Json
  | num x => tagged "NumberLiteral" (Json.ofNumber x)
  | var name => tagged "Variable" (ofString name)
  | unary op e => tagged "Unary" (record [("op", op.toJson), ("operand", e.toJson)])
  | binary op l r =>
    tagged "Binary" (record [("op", op.toJson), ("left", l.toJson), ("right", r.toJson)])

def ofJson? : (room : Nat) → Json → Option Expr
  | room + 1, object [(some tag, payload)] =>
    match tag, room with
    | "NumberLiteral", _ => payload.number?.map num
    | "Variable", _ => payload.string?.map var
    | "Unary", room + 1 =>
      match payload.fields? ["op", "operand"] with
      | some [op, e] => do return unary (← UnaryOp.ofJson? room op) (← ofJson? room e)
      | _ => none
    | "Binary", room + 1 =>
      match payload.fields? ["op", "left", "right"] with
      | some [op, l, r] => do
        return binary (← BinaryOp.ofJson? room op) (← ofJson? room l) (← ofJson? room r)
      | _ => none
    | _, _ => none
  | _, _ => none

end Expr

namespace Statement

def toJson : Statement → Json
  | assign name e => tagged "Assignment" (record [("name", ofString name), ("value", e.toJson)])
  | expr e => tagged "Expression" e.toJson

def ofJson? : (room : Nat) → Json → Option Statement
  | room + 1, object [(some tag, payload)] =>
    match tag, room with
    | "Expression", _ => (Expr.ofJson? room payload).map expr
    | "Assignment", room + 1 =>
      match payload.fields? ["name", "value"] with
      | some [name, e] => do return assign (← name.string?) (← Expr.ofJson? room e)
      | _ => none
    | _, _ => none
  | _, _ => none

end Statement

namespace Program

def toJson (p : Program) : Json := record [("statements", array (p.map Statement.toJson))]

def ofJson? : (room : Nat) → Json → Option Program
  | room + 2, j =>
    match j.fields? ["statements"] with
    | some [statements] => statements.items? (Statement.ofJson? room)
    | _ => none
  | _, _ => none

end Program

namespace Token

def Kind.toJson (k : Kind) : Json :=
  match k with
  | .number x => tagged k.tag (Json.ofNumber x)
  | .identifier name => tagged k.tag (ofString name)
  | _ => ofString k.tag

def Kind.simple : List Kind :=
  [.plus, .minus, .star, .slash, .assign, .leftParen, .rightParen, .newline, .eof]

def Kind.ofJson? (room : Nat) (j : Json) : Option Kind :=
  match j, room with
  | object [(some "Number", payload)], _ + 1 => payload.number?.map .number
  | object [(some "Identifier", payload)], _ + 1 => payload.string?.map .identifier
  | _, _ => do
    let tag ← j.case? room
    Kind.simple.find? (·.tag = tag)

def toJson (t : Token) : Json :=
  record [("kind", t.kind.toJson), ("lexeme", ofString t.lexeme), ("line", ofNat t.pos.line),
    ("column", ofNat t.pos.column)]

def ofJson? : (room : Nat) → Json → Option Token
  | room + 1, j =>
    match j.fields? ["kind", "lexeme", "line", "column"] with
    | some [kind, lexeme, line, column] => do
      return ⟨← Kind.ofJson? room kind, ← lexeme.string?, ⟨← line.nat?, ← column.nat?⟩⟩
    | _ => none
  | _, _ => none

def listToJson (tokens : List Token) : Json := array (tokens.map toJson)

def listOfJson? : (room : Nat) → Json → Option (List Token)
  | room + 1, j => j.items? (ofJson? room)
  | _, _ => none

end Token
end LineCalc
