import LineCalc.Proofs.Steps

/-! What every step of a parser keeps. Unlike the other accounts of the parser this one follows it
into its failures: what single steps keep holds of the parser after a parse that fails too. -/

namespace LineCalc

namespace Parser
variable {α β : Type}

/-- Success or not, the step takes parsers with `S` to such parsers; if it fails, then with one of
the errors `E`. -/
def Keeps (S : Parser → Prop) (E : Error → Prop) (x : Parse α) : Prop :=
  ∀ p, S p → S (p.run x).2 ∧ ∀ e, (p.run x).1 = .error e → E e

structure StepInvariant where
  state : Parser → Prop
  error : Error → Prop
  unexpected (t : Token) (expected : String) : error (t.unexpected expected)
  keeps_peek : Keeps state error peek
  keeps_peekSecond : Keeps state error peekSecond
  keeps_advance : Keeps state error advance

structure Invariant extends StepInvariant where
  keeps_statementParsed (index : Nat) (s : Statement) :
    Keeps state error (report (.statementParsed index s))
  keeps_programParsed (statements : Nat) : Keeps state error (report (.programParsed statements))

section
variable {S : Parser → Prop} {E : Error → Prop} {x : Parse α} {f : α → Parse β}

theorem keeps_pure (a : α) : Keeps S E (pure a) := by
  intro p hp
  exact ⟨hp, fun e h => by cases h⟩

theorem keeps_throw {e : Error} (h : E e) : Keeps S E (throw e : Parse α) := by
  intro p hp
  refine ⟨hp, fun e' h' => ?_⟩
  cases h'
  exact h

theorem keeps_get : Keeps S E get := by
  intro p hp
  exact ⟨hp, fun e h => by cases h⟩

theorem Keeps.bind (hx : Keeps S E x) (hf : ∀ a, Keeps S E (f a)) : Keeps S E (x >>= f) := by
  intro p hp
  obtain ⟨hstate, herror⟩ := hx p hp
  rcases hrun : p.run x with ⟨e | a, q⟩
  · rw [hrun] at hstate herror
    rw [run_bind_of_error hrun]
    refine ⟨hstate, fun e' h => ?_⟩
    cases h
    exact herror e rfl
  · rw [hrun] at hstate
    rw [run_bind_of_ok hrun]
    exact hf a q hstate

theorem Keeps.discard (hx : Keeps S E x) : Keeps S E (discard x) := hx.bind fun _ => keeps_pure ()

/-- What taking an item and changing the buffer keep, looking at tokens and using them up keep. -/
theorem keeps_peek_of (hpull : Keeps S E pull)
    (hbuffer : ∀ buffer, Keeps S E (modify fun p => { p with buffer })) : Keeps S E peek := by
  refine keeps_get.bind fun p => ?_
  split
  · exact keeps_pure _
  · exact hpull.bind fun t => (hbuffer [t]).bind fun _ => keeps_pure t

theorem keeps_peekSecond_of (hpull : Keeps S E pull)
    (hbuffer : ∀ buffer, Keeps S E (modify fun p => { p with buffer })) :
    Keeps S E peekSecond := by
  refine (keeps_peek_of hpull hbuffer).bind fun first => keeps_get.bind fun p => ?_
  split
  · exact keeps_pure _
  · exact hpull.bind fun t => (hbuffer [first, t]).bind fun _ => keeps_pure t

theorem keeps_advance_of (hpull : Keeps S E pull)
    (hbuffer : ∀ buffer, Keeps S E (modify fun p => { p with buffer })) : Keeps S E advance := by
  refine keeps_get.bind fun p => ?_
  split
  · exact (hbuffer _).bind fun _ => keeps_pure _
  · exact hpull

end

namespace StepInvariant
variable (I : StepInvariant)

theorem keeps_operations {op? : Token.Kind → Option BinaryOp} {operand : Parse Tree}
    (h : Keeps I.state I.error operand) (left : Expr) (height : Nat) :
    Keeps I.state I.error (operations op? operand left height) := by
  induction hn : maxDepth - height using Nat.strongRecOn generalizing left height with
  | _ n ih =>
    rw [operations]
    refine I.keeps_peek.bind fun t => ?_
    cases op? t.kind with
    | none => exact keeps_pure _
    | some op =>
      refine I.keeps_advance.bind fun u => h.bind fun right => ?_
      dsimp only
      split
      · exact keeps_throw (I.unexpected u _)
      · exact ih _ (by omega) _ _ rfl

theorem keeps_sum {factor : Parse Tree} (h : Keeps I.state I.error factor) :
    Keeps I.state I.error (sum factor) := by
  have hterm : Keeps I.state I.error (term factor) :=
    h.bind fun tree => I.keeps_operations h tree.1 tree.2
  exact hterm.bind fun tree => I.keeps_operations hterm tree.1 tree.2

theorem keeps_closeParen : Keeps I.state I.error closeParen := by
  refine I.keeps_peek.bind fun t => ?_
  split
  · exact I.keeps_advance.discard
  · exact keeps_throw (I.unexpected t _)

theorem keeps_factor (room : Nat) : Keeps I.state I.error (factor room) := by
  induction room using Nat.strongRecOn with
  | _ room ih =>
    unfold factor
    refine I.keeps_advance.bind fun t => ?_
    cases t.kind with
    | number x => exact keeps_pure _
    | identifier name => exact keeps_pure _
    | minus =>
      cases room with
      | zero => exact keeps_throw (I.unexpected t _)
      | succ room =>
        refine (ih room (Nat.lt_succ_self room)).bind fun tree => ?_
        dsimp only
        split
        · exact keeps_throw (I.unexpected t _)
        · exact keeps_pure _
    | leftParen =>
      cases room with
      | zero => exact keeps_throw (I.unexpected t _)
      | succ room =>
        refine (I.keeps_sum (ih room (Nat.lt_succ_self room))).bind fun inner => ?_
        exact I.keeps_closeParen.bind fun _ => keeps_pure inner
    | _ => exact keeps_throw (I.unexpected t _)

theorem keeps_expression : Keeps I.state I.error expression :=
  (I.keeps_sum (I.keeps_factor maxDepth)).bind fun tree => keeps_pure tree.1

theorem keeps_statement : Keeps I.state I.error statement := by
  have hexpr : Keeps I.state I.error (expression >>= fun e => pure (Statement.expr e)) :=
    I.keeps_expression.bind fun e => keeps_pure _
  refine I.keeps_peek.bind fun t => ?_
  split
  · refine I.keeps_peekSecond.bind fun u => ?_
    split
    · refine I.keeps_advance.discard.bind fun _ => I.keeps_advance.discard.bind fun _ => ?_
      exact I.keeps_expression.bind fun e => keeps_pure _
    · exact hexpr
  · exact hexpr

theorem keeps_endStatement : Keeps I.state I.error endStatement := by
  refine I.keeps_peek.bind fun t => ?_
  split
  · exact keeps_throw (I.unexpected t _)
  · split
    · exact I.keeps_advance.discard
    · exact keeps_pure ()

end StepInvariant

namespace Invariant
variable (I : Invariant)

theorem keeps_statements (rounds index : Nat) :
    Keeps I.state I.error (statements rounds index) := by
  induction rounds generalizing index with
  | zero => exact keeps_pure []
  | succ rounds ih =>
    unfold statements
    refine I.keeps_peek.bind fun t => ?_
    split
    · exact keeps_pure []
    · exact I.keeps_advance.discard.bind fun _ => ih index
    · refine I.keeps_statement.bind fun s => ?_
      refine (I.keeps_statementParsed index s).bind fun _ => I.keeps_endStatement.bind fun _ => ?_
      exact (ih (index + 1)).bind fun later => keeps_pure _

theorem keeps_program : Keeps I.state I.error program := by
  refine keeps_get.bind fun p => (I.keeps_statements _ 0).bind fun read => ?_
  exact (I.keeps_programParsed read.length).bind fun _ => keeps_pure read

end Invariant
end Parser

def Event.IsParsing : Event → Prop
  | .tokenRead _ | .statementParsed .. | .programParsed _ => True
  | _ => False

def Error.InText (e : Error) : Prop := e.stage = .lexing ∨ e.stage = .parsing

namespace Parser

/-- The stream has no errors but those of the text, and nothing but reading has been reported. -/
def OnlyReads (p : Parser) : Prop :=
  (∀ e, .error e ∈ p.unread → e.InText) ∧ ∀ event ∈ p.events, event.IsParsing

theorem keeps_report {event : Event} (h : event.IsParsing) :
    Keeps OnlyReads Error.InText (report event) := by
  rintro p ⟨hunread, hevents⟩
  exact ⟨⟨hunread, List.forall_mem_cons.mpr ⟨h, hevents⟩⟩, fun e h => by cases h⟩

theorem keeps_buffer (buffer : List Token) :
    Keeps OnlyReads Error.InText (modify fun p => { p with buffer }) := by
  intro p hp
  exact ⟨hp, fun e h => by cases h⟩

theorem keeps_pull : Keeps OnlyReads Error.InText pull := by
  rintro p ⟨hunread, hevents⟩
  unfold pull
  rw [run_get_bind]
  split
  · exact ⟨⟨hunread, hevents⟩, fun e h => by cases h⟩
  · rename_i e unread hu
    rw [hu] at hunread
    refine ⟨⟨fun e' h => hunread e' (.tail _ h), hevents⟩, fun e' h => ?_⟩
    cases h
    exact hunread e (.head _)
  · rename_i t unread hu
    rw [hu] at hunread
    refine ⟨⟨fun e h => hunread e (.tail _ h), ?_⟩, fun e h => by cases h⟩
    exact List.forall_mem_cons.mpr ⟨trivial, hevents⟩

def onlyReads : Invariant where
  state := OnlyReads
  error := Error.InText
  unexpected _ _ := .inr rfl
  keeps_peek := keeps_peek_of keeps_pull keeps_buffer
  keeps_peekSecond := keeps_peekSecond_of keeps_pull keeps_buffer
  keeps_advance := keeps_advance_of keeps_pull keeps_buffer
  keeps_statementParsed _ _ := keeps_report trivial
  keeps_programParsed _ := keeps_report trivial

theorem parse_onlyReads {items : List Token.Item} (h : ∀ e, .error e ∈ items → e.InText) :
    (∀ e, (Parser.parse { unread := items }).1 = .error e → e.InText) ∧
      ∀ event ∈ (Parser.parse { unread := items }).2.events, event.IsParsing := by
  obtain ⟨⟨-, hevents⟩, herror⟩ := onlyReads.keeps_program { unread := items } ⟨h, by simp⟩
  exact ⟨herror, hevents⟩

end Parser
end LineCalc
