import LineCalc.Position

/-! What can go wrong between a source text and its values, and the wording of each cause. -/

namespace LineCalc

inductive EvalError where
  | undefinedVariable (name : String)
  | divisionByZero
  | numericOverflow
  deriving DecidableEq, Repr

inductive Error where
  /-- A character that begins no token. -/
  | lexical (found : Char) (pos : Position)
  /-- A token that the grammar, or the nesting limit, does not allow where it stands. -/
  | unexpected (expected found : String) (pos : Position)
  | evaluation (cause : EvalError)
  | io (reason : String)
  deriving DecidableEq, Repr

instance decidableEqExcept {ε α : Type} [DecidableEq ε] [DecidableEq α] :
    DecidableEq (Except ε α)
  | .ok a, .ok b => decidable_of_iff (a = b) ⟨congrArg _, Except.ok.inj⟩
  | .error e, .error f => decidable_of_iff (e = f) ⟨congrArg _, Except.error.inj⟩
  | .ok _, .error _ => isFalse (by simp)
  | .error _, .ok _ => isFalse (by simp)

theorem except_bind_eq_ok {ε α β : Type} {x : Except ε α} {f : α → Except ε β} {b : β}
    (h : x >>= f = .ok b) : ∃ a, x = .ok a ∧ f a = .ok b := by
  cases x with
  | error e => cases h
  | ok a => exact ⟨a, rfl, h⟩

theorem except_bind_eq_error {ε α β : Type} {x : Except ε α} {f : α → Except ε β} {e : ε}
    (h : x >>= f = .error e) : x = .error e ∨ ∃ a, x = .ok a ∧ f a = .error e := by
  cases x with
  | error e' =>
    cases h
    exact .inl rfl
  | ok a => exact .inr ⟨a, rfl, h⟩

inductive Stage where
  | lexing
  | parsing
  | evaluation
  | io
  deriving DecidableEq, Repr

def EvalError.message : EvalError → String
  | .undefinedVariable name => s!"Undefined variable: {name}"
  | .divisionByZero => "Division by zero"
  | .numericOverflow => "Numeric overflow: result is not a finite number"

namespace Error

def message : Error → String
  | .lexical found pos =>
    s!"Lexical error at line {pos.line}, column {pos.column}: unexpected character '{found}'"
  | .unexpected expected found pos =>
    s!"Syntax error at line {pos.line}, column {pos.column}: expected {expected}, found {found}"
  | .evaluation cause => cause.message
  | .io reason => s!"I/O error: {reason}"

def stage : Error → Stage
  | .lexical .. => .lexing
  | .unexpected .. => .parsing
  | .evaluation _ => .evaluation
  | .io _ => .io

end Error
end LineCalc
