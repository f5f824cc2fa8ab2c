/-! Places in a source text. Lines and columns count from one; a column counts characters. Both are
naturals without a bound. A machine that counts in words agrees with them as long as no line number
and no column, of a text or of tokens given by hand, goes beyond the largest word. -/

namespace LineCalc

structure Position where
  line : Nat
  column : Nat
  deriving DecidableEq, Repr

namespace Position

def start : Position := ⟨1, 1⟩

/-- The place after a character: a line feed ends its line. -/
def step (p : Position) (c : Char) : Position :=
  if c = '\n' then ⟨p.line + 1, 1⟩ else ⟨p.line, p.column + 1⟩

def after (p : Position) (text : List Char) : Position := text.foldl step p

end Position
end LineCalc
