import LineCalc.Program.Parser
import LineCalc.Session
import LineCalc.Token.Scanner

/-! Running source texts, with the values as a list of lines or written line by line to a sink that
may be full before the run is over. -/

namespace LineCalc

def version : String := "1.0.0"

/-- Where lines go: the text written so far, and how many more lines are taken (`none`: any
number). -/
structure Sink where
  written : String := ""
  room : Option Nat := none
  deriving DecidableEq, Repr

namespace Sink

def writeLine (s : Sink) (line : String) : Option Sink :=
  match s.room with
  | some 0 => none
  | room => some ⟨s.written ++ line ++ "\n", room.map (· - 1)⟩

def closed : Error := .io "sink closed"

end Sink

namespace Program

/-- Runs a program, writing each value as soon as it is computed. Gives the number of lines
written, or the error that ended the run; a statement whose line could not be written has been
run. -/
def executeInto (m : Session) (out : Sink) : Program → Except Error Nat × Session × Sink
  | [] => (.ok 0, m, out)
  | s :: rest =>
    match s.exec m with
    | .error e => (.error (.evaluation e), m, out)
    | .ok (x, m') =>
      match out.writeLine x.valueText with
      | none => (.error Sink.closed, m', out)
      | some out' =>
        let (result, last) := executeInto m' out' rest
        (result.map (· + 1), last)

def ofSource (source : String) : Except Error Program :=
  (Parser.parse { unread := (Scanner.ofSource source).items }).1

def lines (store : Store) (p : Program) : Except EvalError (List String) × Store :=
  let (result, m) := p.execute { store }
  (result.map (·.map Number.valueText), m.store)

end Program

def run (source : String) : Except Error (List String) := do
  let p ← Program.ofSource source
  (p.lines .empty).1.mapError .evaluation

/-- Runs a source text on a store, writing to a sink. A text that does not parse writes nothing
and leaves the store as it was. -/
def runInto (store : Store) (out : Sink) (source : String) : Except Error Nat × Store × Sink :=
  match Program.ofSource source with
  | .error e => (.error e, store, out)
  | .ok p =>
    let (result, m, out) := p.executeInto { store } out
    (result, m.store, out)

end LineCalc
