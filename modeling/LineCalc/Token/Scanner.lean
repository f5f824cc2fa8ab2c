import LineCalc.Text.Letter
import LineCalc.Token.Basic

/-! Cutting a source text into tokens. Each step skips layout, then takes the longest lexeme at
the front of the text. A scanner delivers its items one at a time and ends with the end-of-file
token or with the first error; `items` is the whole stream. -/

namespace LineCalc.Token

/-- A blank separates tokens and has no other meaning. A line feed is a token, not a blank. -/
def isBlank (c : Char) : Bool := c = ' ' || c = '\t' || c = '\r'

/-- The blanks at the front of a text with the comment that may follow them, and the rest. A
comment runs up to the line feed, which is no blank, so nothing more can be skipped after it. -/
def splitLayout (text : List Char) : List Char × List Char :=
  let blanks := text.takeWhile isBlank
  let rest := text.dropWhile isBlank
  match rest with
  | '#' :: _ => (blanks ++ rest.takeWhile (· ≠ '\n'), rest.dropWhile (· ≠ '\n'))
  | _ => (blanks, rest)

def symbol? : Char → Option Kind
  | '\n' => some .newline
  | '+' => some .plus
  | '-' => some .minus
  | '*' => some .star
  | '/' => some .slash
  | '=' => some .assign
  | '(' => some .leftParen
  | ')' => some .rightParen
  | _ => none

/-- The digits after a point at the front of a text, and the rest. A point that no digit follows
belongs to the rest. -/
def splitFraction : List Char → List Char × List Char
  | '.' :: text =>
    if text.takeWhile Char.isDigit = [] then ([], '.' :: text)
    else (text.takeWhile Char.isDigit, text.dropWhile Char.isDigit)
  | text => ([], text)

def splitNumeral (text : List Char) : Numeral × List Char :=
  let (fraction, rest) := splitFraction (text.dropWhile Char.isDigit)
  (⟨false, text.takeWhile Char.isDigit, fraction, none⟩, rest)

/-- The kind and lexeme of the token at the front of a text, and the rest; `none` when no token
begins there. -/
def lex : List Char → Option (Kind × List Char × List Char)
  | [] => none
  | c :: text =>
    match symbol? c with
    | some kind => some (kind, [c], text)
    | none =>
      if c.isDigit then
        let (numeral, rest) := splitNumeral (c :: text)
        some (.number numeral.toNumber, numeral.text false, rest)
      else if Letter.isLetter c then
        let name := c :: text.takeWhile Letter.isLetterOrDigit
        some (.identifier (String.ofList name), name, text.dropWhile Letter.isLetterOrDigit)
      else none

theorem length_splitLayout_le (text : List Char) :
    (splitLayout text).2.length ≤ text.length := by
  have hblank := (List.dropWhile_sublist isBlank (l := text)).length_le
  have hcomment := (List.dropWhile_sublist (fun c => decide (c ≠ '\n'))
    (l := text.dropWhile isBlank)).length_le
  simp only [splitLayout]
  split
  · exact Nat.le_trans hcomment hblank
  · exact hblank

theorem length_splitFraction_le (text : List Char) :
    (splitFraction text).2.length ≤ text.length := by
  unfold splitFraction
  split
  · rename_i rest
    have := (List.dropWhile_sublist Char.isDigit (l := rest)).length_le
    split <;> simp; omega
  · exact Nat.le_refl _

theorem length_lt_of_lex {text lexeme rest : List Char} {kind : Kind}
    (h : lex text = some (kind, lexeme, rest)) : rest.length < text.length := by
  match text with
  | [] => simp [lex] at h
  | c :: text =>
    simp only [lex] at h
    split at h
    · simp only [Option.some.injEq, Prod.mk.injEq] at h
      simp [← h.2.2]
    · split at h
      · rename_i hdigit
        simp only [splitNumeral, Option.some.injEq, Prod.mk.injEq] at h
        rw [← h.2.2, List.dropWhile_cons_of_pos hdigit]
        have hfraction := length_splitFraction_le (text.dropWhile Char.isDigit)
        have := (List.dropWhile_sublist Char.isDigit (l := text)).length_le
        simp only [List.length_cons]
        omega
      · split at h
        · simp only [Option.some.injEq, Prod.mk.injEq] at h
          rw [← h.2.2]
          have := (List.dropWhile_sublist Letter.isLetterOrDigit (l := text)).length_le
          simp only [List.length_cons]
          omega
        · simp at h

end Token

/-- A source text partly read: what is left of it, the place of its first character, and whether
the last item has been delivered. -/
structure Scanner where
  text : List Char
  pos : Position
  finished : Bool
  deriving DecidableEq, Repr

namespace Scanner

def ofSource (source : String) : Scanner := ⟨source.toList, .start, false⟩

def next (s : Scanner) : Option Token.Item × Scanner :=
  if s.finished then (none, s)
  else
    let (layout, text) := Token.splitLayout s.text
    let pos := s.pos.after layout
    match text with
    | [] => (some (.ok ⟨.eof, "", pos⟩), ⟨[], pos, true⟩)
    | c :: _ =>
      match Token.lex text with
      | some (kind, lexeme, rest) =>
        (some (.ok ⟨kind, String.ofList lexeme, pos⟩), ⟨rest, pos.after lexeme, false⟩)
      | none => (some (.error (.lexical c pos)), ⟨text, pos, true⟩)

def remaining (s : Scanner) : Nat := if s.finished then 0 else s.text.length + 1

theorem remaining_lt_of_next {s s' : Scanner} {item : Token.Item}
    (h : s.next = (some item, s')) : s'.remaining < s.remaining := by
  simp only [next] at h
  split at h
  · simp at h
  · rename_i hs
    have hlayout := Token.length_splitLayout_le s.text
    split at h
    · simp only [Prod.mk.injEq] at h
      simp [← h.2, remaining, hs]
    · split at h
      · rename_i hlex
        have := Token.length_lt_of_lex hlex
        simp only [Prod.mk.injEq] at h
        simp only [← h.2, remaining, hs, Bool.false_eq_true, if_false]
        omega
      · simp only [Prod.mk.injEq] at h
        simp [← h.2, remaining, hs]

def items (s : Scanner) : List Token.Item :=
  match _h : s.next with
  | (none, _) => []
  | (some item, s') => item :: s'.items
termination_by s.remaining
decreasing_by exact remaining_lt_of_next _h

def takeAll (s : Scanner) : Except Error (List Token) × Scanner :=
  (s.items.mapM id, { s with finished := true })

end Scanner

def Token.scan (source : String) : Except Error (List Token) :=
  (Scanner.ofSource source).takeAll.1

end LineCalc
