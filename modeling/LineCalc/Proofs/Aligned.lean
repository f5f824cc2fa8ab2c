import LineCalc.Proofs.Cut

/-! A line scans the same way on its own and inside a text. The items differ in their line number
and in the end of the line, which is the end of file when the line stands alone or comes last. -/

namespace LineCalc
open Token

def lineEnd : Option (List Char) → List Char
  | none => []
  | some below => '\n' :: below

def Token.Kind.onLine (last : Bool) : Kind → Kind
  | .eof => if last then .eof else .newline
  | kind => kind

/-- The error of a line, as it is reported when the line is the `n`-th of a text. Where a line
alone ends with the file, a line that is not the last one ends with a line feed. -/
def Error.onLine (n : Nat) (last : Bool) : Error → Error
  | .lexical found pos => .lexical found ⟨n, pos.column⟩
  | .unexpected expected found pos =>
    .unexpected expected (if found = "end of file" ∧ last = false then "end of line" else found)
      ⟨n, pos.column⟩
  | e => e

namespace Token

structure OnLine (n : Nat) (last : Bool) (t u : Token) : Prop where
  kind : u.kind = t.kind.onLine last
  pos : u.pos = ⟨n, t.pos.column⟩

/-- The items of a line alone and the items of a text from that line on. After the line there are
the items `below` in the text, if it goes on. -/
inductive Aligned (n : Nat) (below : Option (List Item)) : List Item → List Item → Prop
  | token {t u xs ys} : ¬ t.kind.isTerminator → OnLine n below.isNone t u →
    Aligned n below xs ys → Aligned n below (.ok t :: xs) (.ok u :: ys)
  | finish {t u} : t.kind = .eof → OnLine n below.isNone t u →
    Aligned n below [.ok t] (.ok u :: below.getD [])
  | error {c pos} :
    Aligned n below [.error (.lexical c pos)] [.error (.lexical c ⟨n, pos.column⟩)]

variable {kind : Kind} {x b rest : List Char} {n : Nat} {last : Bool} {t u : Token}
  {below : Option (List Item)} {xs ys : List Item}

theorem Kind.onLine_of_not_isTerminator (h : ¬ kind.isTerminator) :
    kind.onLine last = kind := by
  cases kind <;> first | rfl | exact absurd rfl h

theorem Kind.text_eq_end_iff : kind.text = "end of file" ↔ kind = .eof := by
  refine ⟨fun h => ?_, fun h => by rw [h]; rfl⟩
  cases kind with
  | eof => rfl
  | number x =>
    have hchars := congrArg String.toList h
    simp [Kind.text] at hchars
  | identifier name =>
    have hchars := congrArg String.toList h
    simp [Kind.text] at hchars
  | _ => exact absurd h (by decide)

theorem OnLine.unexpected (h : OnLine n last t u) (expected : String) :
    u.unexpected expected = (t.unexpected expected).onLine n last := by
  have htext : u.kind.text =
      if t.kind.text = "end of file" ∧ last = false then "end of line" else t.kind.text := by
    rw [h.kind]
    by_cases heof : t.kind = .eof
    · rw [heof]
      cases last <;> rfl
    · rw [if_neg (fun hand => heof (Kind.text_eq_end_iff.mp hand.1))]
      cases hk : t.kind <;> first | rfl | exact absurd hk heof
  rw [Token.unexpected, htext, h.pos]
  rfl

theorem OnLine.kind_cases (h : OnLine n last t u) :
    t.kind = u.kind ∨ t.kind.isTerminator ∧ u.kind.isTerminator := by
  rw [h.kind]
  cases t.kind with
  | eof => cases last <;> exact .inr ⟨rfl, rfl⟩
  | _ => exact .inl rfl

theorem Aligned.front_cases (h : Aligned n below xs ys) :
    (∃ t u xs' ys', xs = .ok t :: xs' ∧ ys = .ok u :: ys' ∧ OnLine n below.isNone t u ∧
      (¬ t.kind.isTerminator → Aligned n below xs' ys') ∧
      (t.kind.isTerminator → t.kind = .eof ∧ xs' = [] ∧ ys' = below.getD [])) ∨
    ∃ e, xs = [.error e] ∧ ys = [.error (e.onLine n below.isNone)] := by
  cases h with
  | token ht htu h =>
    exact .inl ⟨_, _, _, _, rfl, rfl, htu, fun _ => h, fun hterm => absurd hterm ht⟩
  | @finish t u ht htu =>
    have hterm : t.kind.isTerminator := by
      rw [ht]
      rfl
    exact .inl ⟨_, _, _, _, rfl, rfl, htu, absurd hterm, fun _ => ⟨ht, rfl, rfl⟩⟩
  | error => exact .inr ⟨_, rfl, rfl⟩

theorem head?_append_lineEnd {p : Char → Bool} (h : ∀ c ∈ rest.head?, ¬ p c) (hp : ¬ p '\n')
    (below : Option (List Char)) : ∀ c ∈ (rest ++ lineEnd below).head?, ¬ p c := by
  intro c hc
  cases rest with
  | cons d rest => exact h c hc
  | nil =>
    cases below with
    | none => cases hc
    | some below =>
      cases hc
      exact hp

theorem Layout.append_lineEnd (h : Layout rest b) (below : Option (List Char)) :
    Layout (rest ++ lineEnd below) b := by
  induction h with
  | nil => exact .nil
  | blank hc _ ih => exact .blank hc ih
  | comment hbody hrest =>
    refine .comment hbody ?_
    cases rest with
    | cons d rest => exact .inr (hrest.resolve_left (List.cons_ne_nil d rest))
    | nil =>
      cases below with
      | none => exact .inl rfl
      | some below => exact .inr rfl

theorem Word.append_lineEnd (h : Word kind x rest) (below : Option (List Char)) :
    Word kind x (rest ++ lineEnd below) := by
  cases h with
  | symbol hc => exact .symbol hc
  | integer hne hdigits hrest hpoint =>
    refine .integer hne hdigits (head?_append_lineEnd hrest (by decide) below) ?_
    intro c later heq
    cases rest with
    | nil => cases below <;> cases heq
    | cons d rest =>
      rw [List.cons_append] at heq
      obtain ⟨rfl, htail⟩ := List.cons.inj heq
      have hdigit : ∀ c ∈ rest.head?, ¬ c.isDigit := by
        intro c hc
        cases rest with
        | nil => cases hc
        | cons e rest =>
          cases hc
          exact hpoint _ _ rfl
      exact head?_append_lineEnd hdigit (by decide) below c (by rw [htail]; rfl)
  | decimal hne hdigits hne' hdigits' hrest =>
    exact .decimal hne hdigits hne' hdigits' (head?_append_lineEnd hrest (by decide) below)
  | identifier hc hname hrest =>
    exact .identifier hc hname (head?_append_lineEnd hrest (by decide) below)

end Token

theorem Position.after_of_not_mem {text : List Char} (h : '\n' ∉ text) (pos : Position) :
    pos.after text = ⟨pos.line, pos.column + text.length⟩ := by
  induction text generalizing pos with
  | nil => rfl
  | cons c text ih =>
    obtain ⟨hc, htext⟩ := not_or.mp (mt List.mem_cons.mpr h)
    change (pos.step c).after text = _
    rw [ih htext, step, if_neg (Ne.symm hc), List.length_cons]
    simp only [Nat.add_assoc, Nat.add_comm 1]

namespace Scanner
open Token

theorem items_aligned {l : List Char} (hl : '\n' ∉ l) (below : Option (List Char))
    (m n column : Nat) :
    Aligned n (below.map fun text => items ⟨text, ⟨n + 1, 1⟩, false⟩)
      (items ⟨l, ⟨m, column⟩, false⟩) (items ⟨l ++ lineEnd below, ⟨n, column⟩, false⟩) := by
  -- what is below the line is scanned only after the line has come to its end
  induction l using text_induction generalizing column with
  | @done b hb =>
    rw [items_layout hb, Position.after_of_not_mem hl]
    have hb' := hb.append_lineEnd below
    cases below with
    | none =>
      rw [lineEnd, List.append_nil, items_layout hb, Position.after_of_not_mem hl]
      exact .finish rfl ⟨rfl, rfl⟩
    | some text =>
      have hword : Word .newline ['\n'] text := .symbol (by simp [symbols])
      change Layout (['\n'] ++ text) b at hb'
      change Aligned n _ _ (items ⟨b ++ (['\n'] ++ text), ⟨n, column⟩, false⟩)
      rw [items_word hb' hword, Position.after_of_not_mem hl]
      exact .finish rfl ⟨rfl, rfl⟩
  | @word b kind x rest hb hx ih =>
    simp only [List.mem_append, not_or] at hl
    obtain ⟨hlb, hlx, hlrest⟩ := hl
    have hb' := hb.append_lineEnd below
    rw [List.append_assoc] at hb'
    rw [List.append_assoc, List.append_assoc, items_word hb hx,
      items_word hb' (hx.append_lineEnd below)]
    simp only [Position.after_of_not_mem hlb, Position.after_of_not_mem hlx]
    have hkind : ¬ kind.isTerminator := by
      intro hk
      obtain ⟨-, rfl⟩ := hx.lexeme.eq_of_isTerminator hk
      exact hlx (List.mem_singleton.mpr rfl)
    exact .token hkind ⟨(Kind.onLine_of_not_isTerminator hkind).symm, rfl⟩ (ih hlrest _)
  | @stray b c rest hb hc =>
    simp only [List.mem_append, not_or] at hl
    have hb' := hb.append_lineEnd below
    rw [List.cons_append] at hb'
    rw [List.append_assoc, List.cons_append, items_stray hb hc, items_stray hb' hc]
    simp only [Position.after_of_not_mem hl.1]
    exact .error

end Scanner
end LineCalc
