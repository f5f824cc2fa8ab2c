import LineCalc.Number.Basic

/-! Programs: lists of statements over arithmetic expressions, and their text. The text of an
expression is fully parenthesised, so it shows the tree whatever the precedence of operators. -/

namespace LineCalc

inductive UnaryOp where
  | neg
  deriving DecidableEq, Repr

inductive BinaryOp where
  | add
  | sub
  | mul
  | div
  deriving DecidableEq, Repr

inductive Expr where
  | num (value : Number)
  | var (name : String)
  | unary (op : UnaryOp) (operand : Expr)
  | binary (op : BinaryOp) (left right : Expr)
  deriving DecidableEq, Repr

inductive Statement where
  | assign (name : String) (value : Expr)
  | expr (value : Expr)
  deriving DecidableEq, Repr

abbrev Program := List Statement

def BinaryOp.text : BinaryOp → String
  | .add => "+"
  | .sub => "-"
  | .mul => "*"
  | .div => "/"

namespace Expr

def text : Expr → String
  | num x => x.text
  | var name => name
  | unary .neg e => "(-" ++ e.text ++ ")"
  | binary op l r => "(" ++ l.text ++ " " ++ op.text ++ " " ++ r.text ++ ")"

/-- The number of operators on the longest path from the root. -/
def height : Expr → Nat
  | num _ | var _ => 0
  | unary _ e => e.height + 1
  | binary _ l r => max l.height r.height + 1

end Expr

namespace Statement

def body : Statement → Expr
  | assign _ e | expr e => e

def text : Statement → String
  | assign name e => name ++ " = " ++ e.text
  | expr e => e.text

end Statement
end LineCalc
