import LineCalc.Program.Basic
import LineCalc.Text.Quote
import LineCalc.Token.Basic

/-! The log: what a run reports about its own progress. Each event makes a record with a level, a
message and named fields. Which records are shown, and how, is not settled here. -/

namespace LineCalc

inductive Level where
  | error
  | warn
  | info
  | debug
  | trace
  deriving DecidableEq, Repr

namespace Level

def rank : Level → Nat
  | error => 1
  | warn => 2
  | info => 3
  | debug => 4
  | trace => 5

end Level

/-- The least important level that is shown; `none` shows nothing. -/
abbrev Verbosity := Option Level

def Verbosity.admits (v : Verbosity) (level : Level) : Bool :=
  v.any fun shown => level.rank ≤ shown.rank

def Token.Kind.tag : Token.Kind → String
  | number _ => "Number"
  | identifier _ => "Identifier"
  | plus => "Plus"
  | minus => "Minus"
  | star => "Star"
  | slash => "Slash"
  | assign => "Assign"
  | leftParen => "LeftParen"
  | rightParen => "RightParen"
  | newline => "Newline"
  | eof => "Eof"

/-- Numbers in the log have a point or an exponent; very large and very small ones take the
exponent. -/
def Number.logStyle : Number.Style := ⟨.up, fun order => -4 ≤ order && order < 16, true, false⟩

def Token.Kind.logText (k : Token.Kind) : String :=
  match k with
  | number x => k.tag ++ "(" ++ x.textIn Number.logStyle ++ ")"
  | identifier name => k.tag ++ "(" ++ Text.quoteName name ++ ")"
  | _ => k.tag

inductive Event where
  | sourceRead (source : String) (bytes : Nat)
  | tokenRead (token : Token)
  | statementParsed (index : Nat) (statement : Statement)
  | programParsed (statements : Nat)
  | statementEvaluated (index : Nat) (statement : Statement) (value : Number)
  | statementFailed (index : Nat) (statement : Statement) (cause : EvalError)
  | runComplete (statements stored : Nat)
  | assigned (name : String) (value : Number)
  deriving DecidableEq, Repr

structure Record where
  level : Level
  message : String
  fields : List (String × String)
  deriving DecidableEq, Repr

def Event.record : Event → Record
  | sourceRead source bytes =>
    ⟨.info, "read program", [("source", source), ("bytes", toString bytes)]⟩
  | tokenRead t =>
    ⟨.trace, "token", [("kind", t.kind.logText), ("line", toString t.pos.line),
      ("column", toString t.pos.column)]⟩
  | statementParsed i s =>
    ⟨.debug, "parsed statement", [("index", toString i), ("statement", s.text)]⟩
  | programParsed n => ⟨.debug, "parsed program", [("statements", toString n)]⟩
  | statementEvaluated i s v =>
    ⟨.debug, "evaluated statement",
      [("index", toString i), ("statement", s.text), ("value", v.valueText)]⟩
  | statementFailed i s cause =>
    ⟨.debug, "statement failed",
      [("index", toString i), ("statement", s.text), ("error", cause.message)]⟩
  | runComplete n stored =>
    ⟨.info, "run complete", [("statements", toString n), ("variables", toString stored)]⟩
  | assigned name v => ⟨.info, "assignment", [("name", name), ("value", v.valueText)]⟩

end LineCalc
