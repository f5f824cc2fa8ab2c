import LineCalc.Error

/-! Where a program text comes from, and what can prevent reading it. -/

namespace LineCalc

inductive Source where
  | stdin
  | file (path : String)
  deriving DecidableEq, Repr

namespace Source

/-- The source that a file argument names: none, or a lone dash, is standard input. -/
def ofArgument : Option String → Source
  | none | some "-" => stdin
  | some path => file path

def text : Source → String
  | stdin => "<stdin>"
  | file path => path

/-- Bytes as a text; a byte order mark is part of the text. -/
def decode (bytes : ByteArray) : Except Error String :=
  match String.fromUTF8? bytes with
  | some text => .ok text
  | none => .error (.io "stream did not contain valid UTF-8")

/-- The text of a source, given the bytes that were read or why they could not be. Errors name the
file. -/
def contents (s : Source) (bytes : Except String ByteArray) : Except Error String :=
  match s, bytes with
  | stdin, .ok bytes => decode bytes
  | stdin, .error reason => .error (.io reason)
  | file path, .error reason => .error (.io s!"cannot read '{path}': {reason}")
  | file path, .ok bytes =>
    match decode bytes with
    | .error (.io reason) => .error (.io s!"cannot read '{path}': {reason}")
    | result => result

end Source
end LineCalc
