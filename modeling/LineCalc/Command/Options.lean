import LineCalc.Command.Source
import LineCalc.Log

/-! What a run of the command is asked to do. -/

namespace LineCalc

inductive Emit where
  | values
  | tokens
  | ast
  deriving DecidableEq, Repr

structure Arguments where
  file : Option String := none
  emit : Emit := .values
  /-- Whether the assignments made are logged after the run. -/
  trace : Bool := false
  verbose : UInt8 := 0
  deriving DecidableEq, Repr

structure Options where
  source : Source := .stdin
  emit : Emit := .values
  trace : Bool := false
  /-- The level of the log where the environment sets none. -/
  level : Level := .warn
  deriving DecidableEq, Repr

def Level.ofCount : UInt8 → Level
  | 0 => warn
  | 1 => info
  | 2 => debug
  | _ => trace

/-- The assignments are logged at `info`, so asking for them admits at least that. -/
def Options.ofArguments (a : Arguments) : Options where
  source := .ofArgument a.file
  emit := a.emit
  trace := a.trace
  level :=
    let asked := Level.ofCount a.verbose
    if a.trace ∧ asked.rank < Level.info.rank then .info else asked

end LineCalc
