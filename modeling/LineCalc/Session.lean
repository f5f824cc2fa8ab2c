import LineCalc.Error
import LineCalc.Program.Basic
import LineCalc.Store

/-! Running programs. Statements run in order, each yielding one value; the first that fails ends
the run. A session holds what outlasts a statement: the store, and the trace of all assignments
made. -/

namespace LineCalc

namespace Number

/-- Passes a finite number; an infinity or a NaN is an overflow. -/
def checked (x : Number) : Except EvalError Number :=
  if x.isFinite then .ok x else .error .numericOverflow

/-- The quotient, unless the divisor is a zero of either sign. -/
def divide (x y : Number) : Except EvalError Number :=
  if y == 0 then .error .divisionByZero else .ok (x / y)

def order? (x y : Number) : Option Ordering :=
  if x < y then some .lt else if x == y then some .eq else if y < x then some .gt else none

end Number

/-- The operation on numbers, not yet checked for overflow. -/
def BinaryOp.apply : BinaryOp → Number → Number → Except EvalError Number
  | .add, x, y => .ok (x + y)
  | .sub, x, y => .ok (x - y)
  | .mul, x, y => .ok (x * y)
  | .div, x, y => x.divide y

def Store.read (s : Store) (name : String) : Except EvalError Number :=
  match s.get? name with
  | some x => .ok x
  | none => .error (.undefinedVariable name)

def Expr.eval (s : Store) : Expr → Except EvalError Number
  | .num x => x.checked
  | .var name => s.read name
  | .unary .neg e => do
    let x ← e.eval s
    return -x
  | .binary op l r => do
    let x ← l.eval s
    let y ← r.eval s
    let z ← op.apply x y
    z.checked

structure Session where
  store : Store := .empty
  /-- The assignments made, the latest first. -/
  trace : List (String × Number) := []

/-- The value of a statement and the session after it. A statement that fails leaves the session
as it was. -/
def Statement.exec (m : Session) : Statement → Except EvalError (Number × Session)
  | .expr e => do
    let x ← e.eval m.store
    return (x, m)
  | .assign name e => do
    let x ← e.eval m.store
    return (x, ⟨m.store.set name x, (name, x) :: m.trace⟩)

structure Attempt where
  statement : Statement
  result : Except EvalError Number

namespace Program

def attempts (m : Session) : Program → List Attempt × Session
  | [] => ([], m)
  | s :: rest =>
    match s.exec m with
    | .error e => ([⟨s, .error e⟩], m)
    | .ok (x, m') =>
      let (later, last) := attempts m' rest
      (⟨s, .ok x⟩ :: later, last)

def execute (m : Session) (p : Program) : Except EvalError (List Number) × Session :=
  let (made, last) := attempts m p
  (made.mapM Attempt.result, last)

end Program
end LineCalc
