import LineCalc.Error
import LineCalc.Number.Basic

/-! Tokens: what the scanner cuts a source text into and the parser reads. -/

namespace LineCalc

namespace Token

inductive Kind where
  | number (value : Number)
  | identifier (name : String)
  | plus
  | minus
  | star
  | slash
  | assign
  | leftParen
  | rightParen
  | newline
  | eof
  deriving DecidableEq, Repr

namespace Kind

def text : Kind → String
  | .number x => "number `" ++ x.text ++ "`"
  | .identifier name => "identifier `" ++ name ++ "`"
  | .plus => "`+`"
  | .minus => "`-`"
  | .star => "`*`"
  | .slash => "`/`"
  | .assign => "`=`"
  | .leftParen => "`(`"
  | .rightParen => "`)`"
  | .newline => "end of line"
  | .eof => "end of file"

def isTerminator : Kind → Bool
  | .newline | .eof => true
  | _ => false

end Kind
end Token

structure Token where
  kind : Token.Kind
  lexeme : String
  pos : Position
  deriving DecidableEq, Repr

namespace Token

/-- The place just past the token. A line feed moves to the next line whatever its lexeme. -/
def finish (t : Token) : Position :=
  if t.kind = .newline then ⟨t.pos.line + 1, 1⟩
  else ⟨t.pos.line, t.pos.column + t.lexeme.length⟩

def unexpected (t : Token) (expected : String) : Error :=
  .unexpected expected t.kind.text t.pos

/-- What a stream of tokens delivers: tokens, or an error in place of one. -/
abbrev Item := Except Error Token

end Token
end LineCalc
