import LineCalc.Number.Basic

/-! JSON values and their text, on one line or indented. -/

namespace LineCalc

/-- A JSON value. A string is `none` when its escapes name half of a surrogate pair, so that it
is well formed and yet spells no text; this concerns only values that were read. -/
inductive Json where
  | null
  | bool (value : Bool)
  | number (numeral : Numeral)
  | string (text : Option String)
  | array (items : List Json)
  | object (members : List (Option String × Json))

namespace Json

def ofString (s : String) : Json := string (some s)

def ofNat (n : Nat) : Json := number ⟨false, Nat.toDigits 10 n, [], none⟩

/-- Numbers from `10 ^ -5` to below `10 ^ 16` are written positionally, and a whole one still
shows a point. -/
def numberStyle : Number.Style := ⟨.toEven, fun order => -5 ≤ order && order < 16, true, true⟩

/-- There is no JSON number for an infinity or a NaN. -/
def ofNumber (x : Number) : Json :=
  if x.isFinite then number (Numeral.ofNumber numberStyle x) else null

def record (fields : List (String × Json)) : Json :=
  object (fields.map fun f => (some f.1, f.2))

def tagged (tag : String) (payload : Json) : Json := record [(tag, payload)]

def escape (c : Char) : List Char :=
  match c with
  | '"' => ['\\', '"']
  | '\\' => ['\\', '\\']
  | '\x08' => ['\\', 'b']
  | '\x0c' => ['\\', 'f']
  | '\n' => ['\\', 'n']
  | '\r' => ['\\', 'r']
  | '\t' => ['\\', 't']
  | _ =>
    if c.toNat < 0x20 then
      ['\\', 'u', '0', '0', Nat.digitChar (c.toNat / 16), Nat.digitChar (c.toNat % 16)]
    else [c]

def quote (s : String) : List Char := '"' :: (s.toList.flatMap escape ++ ['"'])

/-- How deep a value stands in an indented text; `none` puts everything on one line. -/
abbrev Indent := Option Nat

def Indent.newline : Indent → List Char
  | none => []
  | some depth => '\n' :: List.replicate (2 * depth) ' '

def Indent.colon : Indent → List Char
  | none => [':']
  | some _ => [':', ' ']

def Indent.deeper (d : Indent) : Indent := d.map (· + 1)

mutual

def write (d : Indent) : Json → List Char
  | null => ['n', 'u', 'l', 'l']
  | bool true => ['t', 'r', 'u', 'e']
  | bool false => ['f', 'a', 'l', 's', 'e']
  | number n => n.text true
  | string s => quote (s.getD "")
  | array [] => ['[', ']']
  | array (x :: xs) =>
    '[' :: (d.deeper.newline ++ write d.deeper x ++ writeItems d.deeper xs ++ d.newline ++ [']'])
  | object [] => ['\x7b', '\x7d']
  | object (m :: ms) =>
    '\x7b' :: (d.deeper.newline ++ writeMember d.deeper m ++ writeMembers d.deeper ms ++ d.newline
      ++ ['\x7d'])

def writeItems (d : Indent) : List Json → List Char
  | [] => []
  | x :: xs => ',' :: (d.newline ++ write d x ++ writeItems d xs)

def writeMember (d : Indent) : Option String × Json → List Char
  | (key, value) => quote (key.getD "") ++ d.colon ++ write d value

def writeMembers (d : Indent) : List (Option String × Json) → List Char
  | [] => []
  | m :: ms => ',' :: (d.newline ++ writeMember d m ++ writeMembers d ms)

end

def compact (j : Json) : String := String.ofList (write none j)

def pretty (j : Json) : String := String.ofList (write (some 0) j)

end Json
end LineCalc
