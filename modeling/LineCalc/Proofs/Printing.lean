import LineCalc.Proofs.Cut
import LineCalc.Proofs.Limits
import LineCalc.Proofs.ReadBack
import LineCalc.Run

/-! Parsing undoes printing. The text of a program spells the kinds of tokens that its trees have
in the grammar, fully parenthesised, and the depth of these is the weight of the trees. -/

namespace LineCalc

namespace Expr

/-- How deep the text of an expression nests: a negation costs its sign and its parentheses. -/
def weight : Expr → Nat
  | num _ | var _ => 0
  | unary _ e => e.weight + 2
  | binary _ l r => max l.weight r.weight + 1

theorem height_le_weight (e : Expr) : e.height ≤ e.weight := by
  induction e with
  | num _ => exact Nat.le_refl 0
  | var _ => exact Nat.le_refl 0
  | unary _ e ih =>
    simp only [height, weight]
    omega
  | binary _ l r ihl ihr =>
    simp only [height, weight]
    omega

def kinds : Expr → List Token.Kind
  | num x => [.number x]
  | var name => [.identifier name]
  | unary .neg e => .leftParen :: (.minus :: e.kinds ++ [.rightParen])
  | binary op l r => .leftParen :: (l.kinds ++ op.kind :: r.kinds ++ [.rightParen])

end Expr

def IsName (name : String) : Prop :=
  ∃ c rest, name.toList = c :: rest ∧ Letter.isLetter c ∧ ∀ d ∈ rest, Letter.isLetterOrDigit d

/-- The text of the expression can be read: names are identifiers, and literals are finite and
have no sign. -/
def Expr.Readable : Expr → Prop
  | num x => x.isFinite ∧ ¬ x.isNegative
  | var name => IsName name
  | unary _ e => e.Readable
  | binary _ l r => l.Readable ∧ r.Readable

namespace Statement

def kinds : Statement → List Token.Kind
  | assign name e => .identifier name :: .assign :: e.kinds
  | expr e => e.kinds

def Readable : Statement → Prop
  | assign name e => IsName name ∧ e.Readable
  | expr e => e.Readable

end Statement

namespace Program

def text (p : Program) : String := String.intercalate "\n" (p.map Statement.text)

def kinds : Program → List Token.Kind
  | [] => []
  | [s] => s.kinds
  | s :: p => s.kinds ++ .newline :: kinds p

def weight (p : Program) : Nat := (p.map (·.body.weight)).foldr max 0

theorem weight_le_iff {p : Program} {n : Nat} : p.weight ≤ n ↔ ∀ s ∈ p, s.body.weight ≤ n := by
  induction p with
  | nil => simp [weight]
  | cons s p ih =>
    rw [List.forall_mem_cons, ← ih]
    exact Nat.max_le

end Program

namespace Grammar

theorem derives_kinds (e : Expr) : Derives .factor e.kinds e e.weight := by
  induction e with
  | num x => exact .number x
  | var name => exact .identifier name
  | unary op e ih =>
    cases op
    exact .parens (.term (.factor (.negation ih)))
  | binary op l r ihl ihr =>
    refine .parens ?_
    cases op with
    | add => exact .sum (.inl rfl) (.term (.factor ihl)) (.factor ihr)
    | sub => exact .sum (.inr rfl) (.term (.factor ihl)) (.factor ihr)
    | mul => exact .term (.product (.inl rfl) (.factor ihl) ihr)
    | div => exact .term (.product (.inr rfl) (.factor ihl) ihr)

theorem derivesStatement_kinds (s : Statement) : DerivesStatement s.kinds s s.body.weight := by
  cases s with
  | assign name e => exact .assign (.term (.factor (derives_kinds e)))
  | expr e => exact .expr (.term (.factor (derives_kinds e)))

theorem derivesProgram_kinds (p : Program) : DerivesProgram p.kinds p p.weight := by
  induction p with
  | nil => exact .empty
  | cons s p ih =>
    have hs := derivesStatement_kinds s
    cases p with
    | nil =>
      have hweight : Program.weight [s] = s.body.weight := Nat.max_zero _
      rw [hweight]
      exact .last hs
    | cons t p => exact .line hs ih

end Grammar

namespace Scanner
open Token
variable {c : Char} {kind : Kind} {u w rest : List Char} {v v' : List Kind}

def Scans (text : List Char) (kinds : List Kind) (rest : List Char) : Prop :=
  ∀ pos, ∃ (tokens : List Token) (pos' : Position), tokens.map Token.kind = kinds ∧
    items ⟨text ++ rest, pos, false⟩ = tokens.map .ok ++ items ⟨rest, pos', false⟩

theorem Scans.append (hu : Scans u v (w ++ rest)) (hw : Scans w v' rest) :
    Scans (u ++ w) (v ++ v') rest := by
  intro pos
  obtain ⟨tokens, pos', hkinds, hitems⟩ := hu pos
  obtain ⟨tokens', pos'', hkinds', hitems'⟩ := hw pos'
  refine ⟨tokens ++ tokens', pos'', by rw [List.map_append, hkinds, hkinds'], ?_⟩
  rw [List.append_assoc, hitems, hitems', List.map_append, List.append_assoc]

theorem scans_word (h : Word kind u rest) : Scans u [kind] rest := by
  intro pos
  exact ⟨[⟨kind, String.ofList u, pos⟩], pos.after u, rfl, items_word .nil h pos⟩

theorem scans_symbol (h : (c, kind) ∈ symbols) (rest : List Char) : Scans [c] [kind] rest :=
  scans_word (.symbol h)

theorem items_eq_of_next_eq {s s' : Scanner} (h : s.next = s'.next) : s.items = s'.items := by
  rcases hnext : s'.next with ⟨_ | item, later⟩
  · rw [items_of_next_none (h.trans hnext), items_of_next_none hnext]
  · rw [items_of_next_some (h.trans hnext), items_of_next_some hnext]

theorem scans_blank (hc : isBlank c) (rest : List Char) : Scans [c] [] rest := by
  intro pos
  refine ⟨[], pos.step c, rfl, items_eq_of_next_eq ?_⟩
  unfold next
  dsimp only [List.singleton_append]
  rw [splitLayout_blank hc]
  rfl

theorem scans_space (rest : List Char) : Scans [' '] [] rest := scans_blank (by decide) rest

def Stops (rest : List Char) : Prop := ∀ c ∈ rest.head?, c = ' ' ∨ c = ')' ∨ c = '\n'

theorem stops_cons (hc : c = ' ' ∨ c = ')' ∨ c = '\n') : Stops (c :: rest) := by
  rintro d ⟨⟩
  exact hc

theorem Stops.not_isDigit (h : Stops rest) : ∀ c ∈ rest.head?, ¬ c.isDigit := by
  intro c hc
  rcases h c hc with rfl | rfl | rfl <;> decide

theorem Stops.not_isLetterOrDigit (h : Stops rest) :
    ∀ c ∈ rest.head?, ¬ Letter.isLetterOrDigit c := by
  intro c hc
  rcases h c hc with rfl | rfl | rfl <;> decide

theorem scans_name {name : String} (h : IsName name) (hrest : Stops rest) :
    Scans name.toList [.identifier name] rest := by
  obtain ⟨c, tail, hname, hc, htail⟩ := h
  have hword : Word (.identifier (String.ofList (c :: tail))) (c :: tail) rest :=
    .identifier hc htail hrest.not_isLetterOrDigit
  rw [← hname, String.ofList_toList] at hword
  exact scans_word hword

theorem scans_number {x : Number} (hfinite : x.isFinite) (hsign : ¬ x.isNegative)
    (hrest : Stops rest) : Scans x.text.toList [.number x] rest := by
  refine scans_word (Number.word_text hfinite hsign hrest.not_isDigit fun hpoint => ?_)
  have hstop := hrest '.' hpoint
  revert hstop
  decide

theorem scans_operator (op : BinaryOp) (rest : List Char) :
    Scans op.text.toList [op.kind] rest := by
  cases op <;> exact scans_symbol (by decide) rest

theorem scans_expr {e : Expr} (h : e.Readable) (hrest : Stops rest) :
    Scans e.text.toList e.kinds rest := by
  induction e generalizing rest with
  | num x => exact scans_number h.1 h.2 hrest
  | var name => exact scans_name h hrest
  | unary op e ih =>
    cases op
    have htext : (Expr.unary .neg e).text.toList =
        ['('] ++ (['-'] ++ (e.text.toList ++ [')'])) := by simp [Expr.text]
    rw [htext]
    exact (scans_symbol (by decide) _).append ((scans_symbol (by decide) _).append
      ((ih h (stops_cons (by decide))).append (scans_symbol (by decide) rest)))
  | binary op l r ihl ihr =>
    have htext : (Expr.binary op l r).text.toList = ['('] ++ (l.text.toList ++ ([' '] ++
        (op.text.toList ++ ([' '] ++ (r.text.toList ++ [')']))))) := by simp [Expr.text]
    have hkinds : (Expr.binary op l r).kinds =
        [.leftParen] ++ (l.kinds ++ ([] ++ ([op.kind] ++ ([] ++ (r.kinds ++ [.rightParen]))))) := by
      simp [Expr.kinds]
    have hright : Scans (r.text.toList ++ [')']) (r.kinds ++ [.rightParen]) rest :=
      (ihr h.2 (stops_cons (by decide))).append (scans_symbol (by decide) rest)
    have hoperator := (scans_operator op _).append ((scans_space _).append hright)
    have hleft := (ihl h.1 (stops_cons (by decide))).append ((scans_space _).append hoperator)
    rw [htext, hkinds]
    exact (scans_symbol (by decide) _).append hleft

theorem scans_statement {s : Statement} (h : s.Readable) (hrest : Stops rest) :
    Scans s.text.toList s.kinds rest := by
  cases s with
  | expr e => exact scans_expr h hrest
  | assign name e =>
    have htext : (Statement.assign name e).text.toList =
        name.toList ++ ([' '] ++ (['='] ++ ([' '] ++ e.text.toList))) := by simp [Statement.text]
    have hvalue : Scans (['='] ++ ([' '] ++ e.text.toList)) ([.assign] ++ ([] ++ e.kinds)) rest :=
      (scans_symbol (by decide) _).append ((scans_space _).append (scans_expr h.2 hrest))
    rw [htext]
    exact (scans_name h.1 (stops_cons (.inl rfl))).append ((scans_space _).append hvalue)

theorem scans_program {p : Program} (h : ∀ s ∈ p, s.Readable) :
    Scans p.text.toList p.kinds [] := by
  have hend : Stops [] := by simp [Stops]
  induction p with
  | nil => exact fun pos => ⟨[], pos, rfl, rfl⟩
  | cons s p ih =>
    obtain ⟨hs, hp⟩ := List.forall_mem_cons.mp h
    cases p with
    | nil =>
      have htext : Program.text [s] = s.text := String.intercalate_singleton
      rw [htext]
      exact scans_statement hs hend
    | cons t p =>
      have htext : (Program.text (s :: t :: p)).toList =
          s.text.toList ++ (['\n'] ++ (Program.text (t :: p)).toList) := by
        simp [Program.text, String.intercalate_cons_cons]
      rw [htext]
      exact (scans_statement hs (stops_cons (by decide))).append
        ((scans_symbol (by decide) _).append (ih hp))

end Scanner

namespace Program
open LineCalc.Parser Grammar

theorem exists_tokens_of_scans {source : String} {kinds : List Token.Kind} {p : Program} {d : Nat}
    (hscans : Scanner.Scans source.toList kinds []) (hderives : DerivesProgram kinds p d) :
    ∃ tokens : List Token, ofSource source = (ofTokens tokens).parse.1 ∧
      DerivesProgram (kindsBeforeEof tokens) p d := by
  obtain ⟨tokens, pos, hkinds, hitems⟩ := hscans .start
  rw [List.append_nil, Scanner.items_layout .nil] at hitems
  rw [← hkinds] at hderives
  have heof := kindsBeforeEof_of_derives hderives (rfl : kindsBeforeEof [⟨.eof, "", pos⟩] = [])
  refine ⟨tokens ++ [⟨.eof, "", pos⟩], ?_, by rwa [heof]⟩
  change (Parser.parse { unread := Scanner.items ⟨source.toList, .start, false⟩ }).1 = _
  rw [hitems, ofTokens, List.map_append]
  rfl

theorem exists_tokens_of_text {p : Program} (h : ∀ s ∈ p, s.Readable) :
    ∃ tokens : List Token, ofSource p.text = (ofTokens tokens).parse.1 ∧
      DerivesProgram (kindsBeforeEof tokens) p p.weight :=
  exists_tokens_of_scans (Scanner.scans_program h) (derivesProgram_kinds p)

/-- Parsing undoes printing, up to the limit on nesting. -/
theorem ofSource_text_of_weight (p : Program) (h : ∀ s ∈ p, s.Readable) :
    ((∀ s ∈ p, s.body.weight ≤ 256) → ofSource p.text = .ok p) ∧
    ((∃ s ∈ p, 256 < s.body.weight) → ∃ found pos,
      ofSource p.text = .error (.unexpected "at most 256 levels of nesting" found pos)) := by
  obtain ⟨tokens, hsource, hderives⟩ := exists_tokens_of_text h
  rw [hsource]
  constructor
  · intro hlight
    refine parse_within_limits hderives (weight_le_iff.mpr hlight) fun s hs => ?_
    exact (Expr.height_le_weight _).trans (hlight s hs)
  · rintro ⟨s, hs, hheavy⟩
    have hdepth : maxDepth < p.weight := by
      rw [← Nat.not_le, weight_le_iff]
      exact fun hlight => absurd (hlight s hs) (Nat.not_le.mpr hheavy)
    obtain ⟨t, ht⟩ := parse_beyond_limits hderives (.inl hdepth)
    exact ⟨t.kind.text, t.pos, ht⟩

theorem ofSource_text_of_weight_negations :
    let light : Program := [.assign "x" (.binary .sub (.num 1.5) (.unary .neg (.var "y")))]
    let heavy : Program := [.expr ((Expr.unary .neg)^[129] (.var "x"))]
    ((∀ s ∈ light, s.Readable) ∧ (∀ s ∈ light, s.body.weight ≤ 256) ∧
      ofSource light.text = .ok light) ∧
    (∀ s ∈ heavy, s.Readable) ∧ (∃ s ∈ heavy, 256 < s.body.weight) ∧ ∃ found pos,
      ofSource heavy.text = .error (.unexpected "at most 256 levels of nesting" found pos) := by
  intro light heavy
  have hname {c : Char} (hc : Letter.isLetter c) : IsName (String.singleton c) :=
    ⟨c, [], by simp, hc, by simp⟩
  have hlight : ∀ s ∈ light, s.Readable := List.forall_mem_singleton.mpr
    ⟨hname (by decide : Letter.isLetter 'x'), ⟨by decide +kernel, by decide +kernel⟩,
      hname (by decide : Letter.isLetter 'y')⟩
  have hsigns (n : ℕ) : ((Expr.unary .neg)^[n] (.var "x")).Readable := by
    induction n with
    | zero => exact hname (by decide : Letter.isLetter 'x')
    | succ n ih =>
      rw [Function.iterate_succ_apply']
      exact ih
  have hheavy : ∀ s ∈ heavy, s.Readable := List.forall_mem_singleton.mpr (hsigns 129)
  have hweight : ∀ s ∈ light, s.body.weight ≤ 256 := by decide
  have hweight' : ∃ s ∈ heavy, 256 < s.body.weight := ⟨_, .head _, by decide +kernel⟩
  exact ⟨⟨hlight, hweight, (ofSource_text_of_weight light hlight).1 hweight⟩, hheavy, hweight',
    (ofSource_text_of_weight heavy hheavy).2 hweight'⟩

end Program
end LineCalc
