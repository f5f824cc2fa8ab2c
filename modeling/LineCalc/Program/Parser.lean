import LineCalc.Log

/-! Reading programs from tokens.

    program    := (NEWLINE | statement (NEWLINE | EOF))* EOF
    statement  := IDENTIFIER ASSIGN expression | expression
    expression := term ((PLUS | MINUS) term)*
    term       := factor ((STAR | SLASH) factor)*
    factor     := MINUS factor | NUMBER | IDENTIFIER | LPAREN expression RPAREN

A parser takes items from a stream one at a time and looks at most two tokens ahead. An error
stops a parse where it is found and leaves the parser as it then stands, so that a later parse
goes on from there. -/

namespace LineCalc

structure Parser where
  unread : List Token.Item
  /-- Tokens looked at and not yet used, at most two. -/
  buffer : List Token := []
  /-- The place just past the last token taken. -/
  finish : Position := .start
  events : List Event := []

namespace Parser

/-- The limit on nesting: of open parentheses and signs around a token, and of tree height. -/
def maxDepth : Nat := 256

def ofTokens (tokens : List Token) : Parser := { unread := tokens.map .ok }

/-- A step over states `σ`. A step that fails has its effect on the state all the same. -/
abbrev Step (σ : Type) := ExceptT Error (StateM σ)

abbrev Parse := Step Parser

abbrev Tree := Expr × Nat

/-- The moves that all reading is made of. -/
class Moves (σ : Type) where
  peek : Step σ Token
  peekSecond : Step σ Token
  advance : Step σ Token
  /-- Reads what stands inside a parenthesis or behind a sign. -/
  inside (opener : Token) (x : Step σ Tree) : Step σ Tree
  report (e : Event) : Step σ Unit
  remaining (s : σ) : Nat

def report (e : Event) : Parse Unit := modify fun p => { p with events := e :: p.events }

/-- Takes the next token from the stream. Once the stream is dry every further token is an end of
file just past the last one. -/
def pull : Parse Token := do
  let p ← get
  match p.unread with
  | [] => return ⟨.eof, "", p.finish⟩
  | .error e :: unread =>
    set { p with unread }
    throw e
  | .ok t :: unread =>
    set { p with unread, finish := t.finish }
    report (.tokenRead t)
    return t

def peek : Parse Token := do
  match (← get).buffer with
  | t :: _ => return t
  | [] =>
    let t ← pull
    modify fun p => { p with buffer := [t] }
    return t

def peekSecond : Parse Token := do
  let first ← peek
  match (← get).buffer with
  | _ :: t :: _ => return t
  | _ =>
    let t ← pull
    modify fun p => { p with buffer := [first, t] }
    return t

def advance : Parse Token := do
  match (← get).buffer with
  | t :: buffer =>
    modify fun p => { p with buffer }
    return t
  | [] => pull

instance : Moves Parser where
  peek := peek
  peekSecond := peekSecond
  advance := advance
  inside _ x := x
  report := report
  remaining p := p.unread.length + p.buffer.length

@[simp] theorem moves_peek : (Moves.peek : Parse Token) = peek := rfl

@[simp] theorem moves_peekSecond : (Moves.peekSecond : Parse Token) = peekSecond := rfl

@[simp] theorem moves_advance : (Moves.advance : Parse Token) = advance := rfl

@[simp] theorem moves_inside (t : Token) (x : Parse Tree) : Moves.inside t x = x := rfl

@[simp] theorem moves_report (e : Event) : (Moves.report e : Parse Unit) = report e := rfl

def tooDeep (t : Token) : Error := t.unexpected s!"at most {maxDepth} levels of nesting"

def additive? : Token.Kind → Option BinaryOp
  | .plus => some .add
  | .minus => some .sub
  | _ => none

def multiplicative? : Token.Kind → Option BinaryOp
  | .star => some .mul
  | .slash => some .div
  | _ => none

section
variable {σ : Type} [Moves σ]

/-- Reads on after a left operand: operators with their right operands, grouped to the left. A
tree that grows too high is refused at its operator, after its right operand. -/
def operations (op? : Token.Kind → Option BinaryOp) (operand : Step σ Tree)
    (left : Expr) (height : Nat) : Step σ Tree := do
  match op? (← Moves.peek).kind with
  | none => return (left, height)
  | some op =>
    let t ← Moves.advance
    let (right, rightHeight) ← operand
    if maxDepth < max height rightHeight + 1 then throw (tooDeep t)
    else operations op? operand (.binary op left right) (max height rightHeight + 1)
termination_by maxDepth - height
decreasing_by omega

def chain (op? : Token.Kind → Option BinaryOp) (operand : Step σ Tree) : Step σ Tree := do
  let (left, height) ← operand
  operations op? operand left height

def term (factor : Step σ Tree) : Step σ Tree := chain multiplicative? factor

def sum (factor : Step σ Tree) : Step σ Tree := chain additive? (term factor)

def closeParen : Step σ Unit := do
  let t ← Moves.peek
  if t.kind = .rightParen then discard Moves.advance
  else throw (t.unexpected Token.Kind.rightParen.text)

/-- A factor, where `room` more parentheses and signs may open around a token. -/
def factor (room : Nat) : Step σ Tree := do
  let t ← Moves.advance
  match t.kind with
  | .number x => return (.num x, 0)
  | .identifier name => return (.var name, 0)
  | .minus =>
    let (operand, height) ← Moves.inside t <| match room with
      | 0 => throw (tooDeep t)
      | room + 1 => factor room
    if maxDepth < height + 1 then throw (tooDeep t)
    else return (.unary .neg operand, height + 1)
  | .leftParen =>
    let inner ← Moves.inside t <| match room with
      | 0 => throw (tooDeep t)
      | room + 1 => sum (factor room)
    closeParen
    return inner
  | _ => throw (t.unexpected "number, identifier, `-` or `(`")

def expression : Step σ Expr := return (← sum (factor maxDepth)).1

def statement : Step σ Statement := do
  match (← Moves.peek).kind with
  | .identifier name =>
    if (← Moves.peekSecond).kind = .assign then
      discard Moves.advance
      discard Moves.advance
      return .assign name (← expression)
    else return .expr (← expression)
  | _ => return .expr (← expression)

/-- A statement ends with its line or with the file. The end of file stays in place. -/
def endStatement : Step σ Unit := do
  let t ← Moves.peek
  if !t.kind.isTerminator then throw (t.unexpected "operator or end of line")
  else if t.kind = .newline then discard Moves.advance

/-- The statements up to the end of file, numbered from `index`. Each round uses up a token other
than the end of file, so as many rounds as tokens, and one more, suffice. -/
def statements : (rounds index : Nat) → Step σ Program
  | 0, _ => return []
  | rounds + 1, index => do
    match (← Moves.peek).kind with
    | .eof => return []
    | .newline =>
      discard Moves.advance
      statements rounds index
    | _ =>
      let s ← statement
      Moves.report (.statementParsed index s)
      endStatement
      return s :: (← statements rounds (index + 1))

def program : Step σ Program := do
  let statements ← statements (Moves.remaining (← get) + 1) 0
  Moves.report (.programParsed statements.length)
  return statements

end

def parse (p : Parser) : Except Error Program × Parser := program.run.run p

end Parser
end LineCalc
