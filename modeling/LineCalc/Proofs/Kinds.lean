import LineCalc.Proofs.InStep
import LineCalc.Proofs.Progress

/-! Only the kinds of tokens decide a parse. Where two streams differ in nothing but the lexemes
and the places of their tokens, the two parsers have tokens of the same kinds in their buffers at
every step, and have taken as many items from their streams. -/

namespace LineCalc.Parser
variable {items items' : List Token.Item} {p q : Parser}

def SameKind (t u : Token) : Prop := u.kind = t.kind

/-- The parsers stand at one place of the two streams, with tokens of the same kinds in their
buffers. -/
structure SameKinds (items items' : List Token.Item) (p q : Parser) : Prop where
  buffer : List.Forall₂ SameKind p.buffer q.buffer
  unread : List.Forall₂ (SameItem SameKind) p.unread q.unread
  place : ∃ n ≤ items.length, p.unread = items.drop n ∧ q.unread = items'.drop n

/-- Errors that differ at most in their place. Only an error of the stream is the very same. -/
inductive SameFault (items : List Token.Item) : Error → Error → Prop
  | item {e} : .error e ∈ items → SameFault items e e
  | unexpected (expected found pos pos') :
    SameFault items (.unexpected expected found pos) (.unexpected expected found pos')

theorem sameFault_unexpected {t u : Token} (h : SameKind t u) (expected : String) :
    SameFault items (t.unexpected expected) (u.unexpected expected) := by
  rw [Token.unexpected, Token.unexpected, h]
  exact .unexpected expected t.kind.text t.pos u.pos

namespace SameKinds

theorem start (h : List.Forall₂ (SameItem SameKind) items items') :
    SameKinds items items' { unread := items } { unread := items' } :=
  ⟨.nil, h, 0, Nat.zero_le _, rfl, rfl⟩

theorem with_buffer {buffer buffer' : List Token} (h : SameKinds items items' p q)
    (hbuffer : List.Forall₂ SameKind buffer buffer') :
    SameKinds items items' { p with buffer } { q with buffer := buffer' } :=
  ⟨hbuffer, h.unread, h.place⟩

theorem next {item item' : Token.Item} {rest rest' : List Token.Item} {finish finish' : Position}
    {events events' : List Event} (h : SameKinds items items' p q)
    (hp : p.unread = item :: rest) (hq : q.unread = item' :: rest')
    (hrest : List.Forall₂ (SameItem SameKind) rest rest') :
    SameKinds items items' ⟨rest, p.buffer, finish, events⟩
      ⟨rest', q.buffer, finish', events'⟩ := by
  obtain ⟨n, -, hn, hn'⟩ := h.place
  have hlt : n < items.length := by
    have hlength := congrArg List.length (hp.symm.trans hn)
    rw [List.length_cons, List.length_drop] at hlength
    omega
  refine ⟨h.buffer, hrest, n + 1, hlt, ?_, ?_⟩
  · rw [← List.tail_drop, ← hn, hp, List.tail_cons]
  · rw [← List.tail_drop, ← hn', hq, List.tail_cons]

theorem mem_of_unread {item : Token.Item} (h : SameKinds items items' p q)
    (hitem : item ∈ p.unread) : item ∈ items := by
  obtain ⟨n, -, hn, -⟩ := h.place
  rw [hn] at hitem
  exact List.mem_of_mem_drop hitem

theorem alike_pull (h : SameKinds items items' p q) :
    Alike (SameKinds items items') SameKind (SameFault items) (p.run pull) (q.run pull) := by
  unfold pull
  rw [run_get_bind, run_get_bind]
  have hunread := h.unread
  generalize hp : p.unread = unread at hunread
  generalize hq : q.unread = unread' at hunread
  cases hunread with
  | nil =>
    -- both streams are dry, and an end of file is made up on both sides
    have hsame : SameKind ⟨.eof, "", p.finish⟩ ⟨.eof, "", q.finish⟩ := rfl
    exact .ok hsame h
  | cons hitem hrest =>
    cases hitem with
    | ok htu => exact .ok htu (h.next hp hq hrest)
    | error e =>
      have he : .error e ∈ items := h.mem_of_unread (by rw [hp]; exact List.mem_cons_self)
      exact .error (.item he) (h.next hp hq hrest)

theorem alike_peek (h : SameKinds items items' p q) :
    Alike (SameKinds items items') SameKind (SameFault items) (p.run peek) (q.run peek) := by
  unfold peek
  rw [run_get_bind, run_get_bind]
  have hbuffer := h.buffer
  generalize p.buffer = buffer at hbuffer
  generalize q.buffer = buffer' at hbuffer
  cases hbuffer with
  | nil =>
    refine h.alike_pull.bind fun t u p' q' htu hpq _ => ?_
    exact .ok htu (hpq.with_buffer (.cons htu .nil))
  | cons htu _ => exact .ok htu h

theorem alike_peekSecond (h : SameKinds items items' p q) :
    Alike (SameKinds items items') SameKind (SameFault items) (p.run peekSecond)
      (q.run peekSecond) := by
  unfold peekSecond
  refine h.alike_peek.bind fun first first' p₁ q₁ hfirst h₁ _ => ?_
  rw [run_get_bind, run_get_bind]
  have hbuffer := h₁.buffer
  generalize p₁.buffer = buffer at hbuffer
  generalize q₁.buffer = buffer' at hbuffer
  have hpull : Alike (SameKinds items items') SameKind (SameFault items)
      (p₁.run (pull >>= fun t =>
        (modify fun p => { p with buffer := [first, t] }) >>= fun _ => pure t))
      (q₁.run (pull >>= fun t =>
        (modify fun p => { p with buffer := [first', t] }) >>= fun _ => pure t)) := by
    refine h₁.alike_pull.bind fun t u p₂ q₂ htu h₂ _ => ?_
    exact .ok htu (h₂.with_buffer (.cons hfirst (.cons htu .nil)))
  cases hbuffer with
  | nil => exact hpull
  | cons _ hrest =>
    cases hrest with
    | nil => exact hpull
    | cons htu _ => exact .ok htu h₁

theorem alike_advance (h : SameKinds items items' p q) :
    Alike (SameKinds items items') SameKind (SameFault items) (p.run advance)
      (q.run advance) := by
  unfold advance
  rw [run_get_bind, run_get_bind]
  have hbuffer := h.buffer
  generalize p.buffer = buffer at hbuffer
  generalize q.buffer = buffer' at hbuffer
  cases hbuffer with
  | nil => exact h.alike_pull
  | cons htu hrest => exact .ok htu (h.with_buffer hrest)

theorem same_rounds (h : SameKinds items items' p q) :
    q.unread.length + q.buffer.length = p.unread.length + p.buffer.length := by
  rw [h.buffer.length_eq, h.unread.length_eq]

end SameKinds

def sameKinds (items items' : List Token.Item) : InStep where
  state := SameKinds items items'
  token := SameKind
  error := SameFault items
  same_kind h := h
  unexpected h expected := sameFault_unexpected h expected
  same_rounds h := h.same_rounds
  keep_events h _ _ := ⟨h.buffer, h.unread, h.place⟩
  alike_peek h := h.alike_peek
  alike_peekSecond h _ := h.alike_peekSecond
  alike_advance h := h.alike_advance

theorem SameKinds.alike_parse (h : SameKinds items items' p q) :
    Alike (SameKinds items items') Eq (SameFault items) p.parse q.parse :=
  InStep.alike_parse (I := sameKinds items items') h

theorem SameKinds.after (h : SameKinds items items' p q) (calls : Nat) :
    SameKinds items items' (p.after calls) (q.after calls) := by
  induction calls with
  | zero => exact h
  | succ calls ih => exact ih.alike_parse.state_snd

/-- Where the tokens of two streams are of the same kinds, and the errors in place of tokens the
same, every parse of the one ends like that of the other: with the same program, with the same
error of the stream, or with complaints that differ in their place alone. Both have then taken the
same number of items. -/
theorem parse_decided_by_kinds {items items' : List Token.Item}
    (h : List.Forall₂ (SameItem fun t u => u.kind = t.kind) items items') (calls : Nat) :
    let p := Parser.after { unread := items } calls
    let q := Parser.after { unread := items' } calls
    ((∃ program, p.parse.1 = .ok program ∧ q.parse.1 = .ok program) ∨
      (∃ e, .error e ∈ items ∧ p.parse.1 = .error e ∧ q.parse.1 = .error e) ∨
      ∃ expected found pos pos', p.parse.1 = .error (.unexpected expected found pos) ∧
        q.parse.1 = .error (.unexpected expected found pos')) ∧
    ∃ n ≤ items.length, p.parse.2.unread = items.drop n ∧ q.parse.2.unread = items'.drop n := by
  intro p q
  have halike : Alike (SameKinds items items') Eq (SameFault items) p.parse q.parse :=
    ((SameKinds.start h).after calls).alike_parse
  refine ⟨?_, halike.state_snd.place⟩
  generalize p.parse = r at halike
  generalize q.parse = r' at halike
  cases halike with
  | ok heq _ => exact .inl ⟨_, rfl, by rw [heq]⟩
  | error hfault _ =>
    cases hfault with
    | item he => exact .inr (.inl ⟨_, he, rfl, rfl⟩)
    | unexpected expected found pos pos' =>
      exact .inr (.inr ⟨expected, found, pos, pos', rfl, rfl⟩)

/-- Lexemes may be at odds with the kinds and places be out of order. The first parse ends with the
error of the stream, and the second with the parenthesis. -/
theorem parse_decided_by_kinds_odd_lexemes :
    let items : List Token.Item := [.ok ⟨.identifier "x", "x", ⟨1, 1⟩⟩, .ok ⟨.plus, "+", ⟨1, 3⟩⟩,
      .error (.lexical '^' ⟨1, 5⟩), .ok ⟨.rightParen, ")", ⟨1, 6⟩⟩, .ok ⟨.eof, "", ⟨1, 7⟩⟩]
    let items' : List Token.Item := [.ok ⟨.identifier "x", "7", ⟨9, 4⟩⟩, .ok ⟨.plus, "", ⟨2, 2⟩⟩,
      .error (.lexical '^' ⟨1, 5⟩), .ok ⟨.rightParen, "((", ⟨1, 1⟩⟩, .ok ⟨.eof, "y", ⟨3, 8⟩⟩]
    List.Forall₂ (SameItem fun t u => u.kind = t.kind) items items' ∧
    (Parser.parse { unread := items }).1 = .error (.lexical '^' ⟨1, 5⟩) ∧
    let p := Parser.after { unread := items } 1
    let q := Parser.after { unread := items' } 1
    p.parse.1 = .error (.unexpected "number, identifier, `-` or `(`" "`)`" ⟨1, 6⟩) ∧
    ((∃ program, p.parse.1 = .ok program ∧ q.parse.1 = .ok program) ∨
      (∃ e, .error e ∈ items ∧ p.parse.1 = .error e ∧ q.parse.1 = .error e) ∨
      ∃ expected found pos pos', p.parse.1 = .error (.unexpected expected found pos) ∧
        q.parse.1 = .error (.unexpected expected found pos')) ∧
    ∃ n ≤ items.length, p.parse.2.unread = items.drop n ∧ q.parse.2.unread = items'.drop n := by
  intro items items'
  have h : List.Forall₂ (SameItem fun t u => u.kind = t.kind) items items' :=
    .cons (.ok rfl) (.cons (.ok rfl) (.cons (.error _) (.cons (.ok rfl) (.cons (.ok rfl) .nil))))
  exact ⟨h, by decide +kernel, by decide +kernel, parse_decided_by_kinds h 1⟩

end LineCalc.Parser
