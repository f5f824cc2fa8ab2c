import LineCalc.Command.Options

/-! The words of a command line.

They are read from left to right. The value of `--emit` given as a word of its own, and the file,
are checked only when the next accepted option or the end is reached: an unknown option in between
is reported first. -/

namespace LineCalc

def Emit.ofName? : String → Option Emit
  | "values" => some values
  | "tokens" => some tokens
  | "ast" => some ast
  | _ => none

namespace Arguments

inductive Refusal where
  | invalidValue
  | unknownArgument
  | conflict
  | tooManyValues
  | help
  | version
  deriving DecidableEq, Repr

inductive Pending where
  | file
  | emit (value : Option String)
  deriving DecidableEq, Repr

structure Draft where
  file : Option String := none
  emit : Option Emit := none
  trace : Bool := false
  verbose : UInt8 := 0
  pending : Option Pending := none
  filesOnly : Bool := false
  deriving DecidableEq, Repr

namespace Draft

/-- Counts one more request for log output, up to the largest byte. -/
def addVerbose (d : Draft) : Draft :=
  { d with verbose := if d.verbose = 255 then 255 else d.verbose + 1 }

def setEmit (d : Draft) (value : String) : Except Refusal Draft :=
  match d.emit, Emit.ofName? value with
  | some _, _ => .error .conflict
  | none, none => .error .invalidValue
  | none, some emit => .ok { d with emit := some emit }

def settle (d : Draft) : Except Refusal Draft :=
  let done := { d with pending := none }
  match d.pending with
  | none => .ok done
  | some .file => if d.file = some "" then .error .invalidValue else .ok done
  | some (.emit none) => .error .invalidValue
  | some (.emit (some value)) => done.setEmit value

def answer (d : Draft) (refusal : Refusal) : Except Refusal Draft := do
  discard d.settle
  throw refusal

def letter (d : Draft) : Char → Except Refusal Draft
  | 'v' => do return (← d.settle).addVerbose
  | 'h' => d.answer .help
  | 'V' => d.answer .version
  | _ => .error .unknownArgument

/-- An option by name, with the value joined to it by `=` if there is one. -/
def option (d : Draft) (name : String) (value : Option String) : Except Refusal Draft :=
  match name, value with
  | "emit", some value => do (← d.settle).setEmit value
  | "emit", none => do return { ← d.settle with pending := some (.emit none) }
  | "trace", none => do
    let d ← d.settle
    if d.trace then throw .conflict else return { d with trace := true }
  | "verbose", none => do return (← d.settle).addVerbose
  | "help", none => d.answer .help
  | "version", none => d.answer .version
  | "trace", some _ | "verbose", some _ | "help", some _ | "version", some _ =>
    .error .tooManyValues
  | _, _ => .error .unknownArgument

def addFile (d : Draft) (path : String) : Except Refusal Draft :=
  match d.file with
  | some _ => .error .unknownArgument
  | none => do return { ← d.settle with file := some path, pending := some .file }

def word (d : Draft) (arg : String) : Except Refusal Draft :=
  if d.filesOnly then d.addFile arg
  else
    match arg.toList with
    | ['-', '-'] => .ok { d with filesOnly := true }
    | '-' :: '-' :: long =>
      let name := String.ofList (long.takeWhile (· ≠ '='))
      match long.dropWhile (· ≠ '=') with
      | [] => d.option name none
      | _ :: value => d.option name (some (String.ofList value))
    | '-' :: c :: letters => (c :: letters).foldlM letter d
    | _ =>
      match d.pending with
      | some (.emit none) => .ok { d with pending := some (.emit (some arg)) }
      | _ => d.addFile arg

end Draft

def ofWords (words : List String) : Except Refusal Arguments := do
  let d ← words.foldlM Draft.word {}
  let d ← d.settle
  return ⟨d.file, d.emit.getD .values, d.trace, d.verbose⟩

def Refusal.exitStatus : Refusal → Nat
  | help | version => 0
  | _ => 2

end Arguments
end LineCalc
