import LineCalc.Program.Parser

/-! Single steps of a parser. A parser is known by the items it has still to deliver, whether
they are looked at already or not: `peek` and `peekSecond` leave these items in place and
`advance` takes the first of them. -/

namespace LineCalc.Parser
variable {α β : Type} {p q r : Parser}

def run (p : Parser) (x : Parse α) : Except Error α × Parser := (ExceptT.run x).run p

@[simp] theorem run_pure (p : Parser) (a : α) : p.run (pure a) = (.ok a, p) := rfl

theorem run_bind (p : Parser) (x : Parse α) (f : α → Parse β) :
    p.run (x >>= f) = match p.run x with
      | (.ok a, q) => q.run (f a)
      | (.error e, q) => (.error e, q) := by
  change (match p.run x with | (r, q) => (ExceptT.bindCont f r).run q) = _
  rcases p.run x with ⟨_ | _, _⟩ <;> rfl

theorem run_bind_of_ok {x : Parse α} {f : α → Parse β} {a : α} (h : p.run x = (.ok a, q)) :
    p.run (x >>= f) = q.run (f a) := by
  rw [run_bind, h]

theorem run_bind_of_error {x : Parse α} {f : α → Parse β} {e : Error}
    (h : p.run x = (.error e, q)) : p.run (x >>= f) = (.error e, q) := by
  rw [run_bind, h]

theorem run_bind_eq_ok {x : Parse α} {f : α → Parse β} {b : β} :
    p.run (x >>= f) = (.ok b, r) ↔
      ∃ a q, p.run x = (.ok a, q) ∧ q.run (f a) = (.ok b, r) := by
  constructor
  · intro h
    rw [run_bind] at h
    split at h
    · exact ⟨_, _, ‹_›, h⟩
    · simp at h
  · rintro ⟨a, q, hx, hf⟩
    rw [run_bind_of_ok hx, hf]

theorem run_discard_of_ok {x : Parse α} {a : α} (h : p.run x = (.ok a, q)) :
    p.run (discard x) = (.ok (), q) := by
  change p.run (x >>= fun _ => pure ()) = _
  rw [run_bind_of_ok h, run_pure]

theorem run_discard_bind (p : Parser) (x : Parse α) (f : Unit → Parse β) :
    p.run (discard x >>= f) = p.run (x >>= fun _ => f ()) := by
  change p.run ((x >>= fun _ => pure ()) >>= f) = _
  rw [bind_assoc]
  rfl

theorem run_get_bind (p : Parser) (f : Parser → Parse β) : p.run (get >>= f) = p.run (f p) := rfl

theorem run_report_bind (p : Parser) (e : Event) (f : Unit → Parse β) :
    p.run (report e >>= f) = ({ p with events := e :: p.events } : Parser).run (f ()) := rfl

def programIn (rounds : Nat) : Parse Program := do
  let read ← statements rounds 0
  report (.programParsed read.length)
  return read

theorem parse_eq_programIn (p : Parser) :
    p.parse = p.run (programIn (p.unread.length + p.buffer.length + 1)) := rfl

theorem parse_fst (p : Parser) :
    p.parse.1 = (p.run (statements (p.unread.length + p.buffer.length + 1) 0)).1 := by
  change (p.run (statements (p.unread.length + p.buffer.length + 1) 0 >>= fun program =>
    report (.programParsed program.length) >>= fun _ => pure program)).1 = _
  rw [run_bind]
  rcases p.run (statements (p.unread.length + p.buffer.length + 1) 0) with ⟨_ | _, _⟩ <;> rfl

def pending (p : Parser) : List Token.Item := p.buffer.map .ok ++ p.unread

/-- The next item; a dry stream has an end of file in its place. -/
def front (p : Parser) : Token.Item := p.pending.headD (.ok ⟨.eof, "", p.finish⟩)

theorem front_of_pending {item : Token.Item} {rest : List Token.Item}
    (h : p.pending = item :: rest) : p.front = item := by
  rw [front, h, List.headD_cons]

theorem front_of_buffer_nil (h : p.buffer = []) :
    p.front = p.unread.headD (.ok ⟨.eof, "", p.finish⟩) := by
  rw [front, pending, h, List.map_nil, List.nil_append]

theorem pending_of_buffer_nil (h : p.buffer = []) : p.pending = p.unread := by
  rw [pending, h, List.map_nil, List.nil_append]

theorem pending_of_buffer_cons {t : Token} {buffer : List Token} (h : p.buffer = t :: buffer) :
    p.pending = .ok t :: (buffer.map .ok ++ p.unread) := by
  rw [pending, h, List.map_cons, List.cons_append]

theorem run_pull (p : Parser) :
    ∃ q, p.run pull = (p.unread.headD (.ok ⟨.eof, "", p.finish⟩), q) ∧
      q.buffer = p.buffer ∧ q.unread = p.unread.tail := by
  unfold pull
  rw [run_get_bind]
  rcases hu : p.unread with _ | ⟨_ | t, unread⟩
  · exact ⟨p, rfl, rfl, hu⟩
  · exact ⟨_, rfl, rfl, rfl⟩
  · exact ⟨_, rfl, rfl, rfl⟩

theorem run_advance (p : Parser) :
    ∃ q, p.run advance = (p.front, q) ∧ q.pending = p.pending.tail := by
  unfold advance
  rw [run_get_bind]
  cases hb : p.buffer with
  | nil =>
    obtain ⟨q, hq, hqb, hqu⟩ := p.run_pull
    rw [← front_of_buffer_nil hb] at hq
    refine ⟨q, hq, ?_⟩
    rw [pending_of_buffer_nil (hqb.trans hb), pending_of_buffer_nil hb, hqu]
  | cons t buffer =>
    have hp := pending_of_buffer_cons hb
    exact ⟨{ p with buffer }, by rw [front_of_pending hp]; rfl, by rw [hp]; rfl⟩

theorem run_peek_of_ok {t : Token} (h : p.front = .ok t) :
    ∃ q, p.run peek = (.ok t, q) ∧ q.pending = .ok t :: p.pending.tail ∧
      ∃ buffer, q.buffer = t :: buffer := by
  unfold peek
  rw [run_get_bind]
  cases hb : p.buffer with
  | nil =>
    obtain ⟨q, hq, hqb, hqu⟩ := p.run_pull
    rw [← front_of_buffer_nil hb, h] at hq
    refine ⟨{ q with buffer := [t] }, run_bind_of_ok hq, ?_, [], rfl⟩
    rw [pending_of_buffer_nil hb, ← hqu]
    rfl
  | cons t' buffer =>
    have hp := pending_of_buffer_cons hb
    rw [front_of_pending hp] at h
    obtain rfl := Except.ok.inj h
    exact ⟨p, rfl, by rw [hp, List.tail_cons], buffer, hb⟩

theorem run_peek_of_error {e : Error} (h : p.front = .error e) :
    ∃ q, p.run peek = (.error e, q) ∧ q.pending = p.pending.tail := by
  unfold peek
  rw [run_get_bind]
  cases hb : p.buffer with
  | nil =>
    obtain ⟨q, hq, hqb, hqu⟩ := p.run_pull
    rw [← front_of_buffer_nil hb, h] at hq
    refine ⟨q, run_bind_of_error hq, ?_⟩
    rw [pending_of_buffer_nil (hqb.trans hb), pending_of_buffer_nil hb, hqu]
  | cons t buffer =>
    rw [front_of_pending (pending_of_buffer_cons hb)] at h
    cases h

/-- Looking at the token after the next one. An error in its place is used up. -/
theorem run_peekSecond {t : Token} {rest : List Token.Item} (h : p.pending = .ok t :: rest) :
    ∃ pos q, p.run peekSecond = (rest.headD (.ok ⟨.eof, "", pos⟩), q) ∧
      q.pending = .ok t :: match rest.headD (.ok ⟨.eof, "", pos⟩) with
        | .ok u => .ok u :: rest.tail
        | .error _ => rest.tail := by
  obtain ⟨q, hq, hqp, buffer, hqb⟩ := run_peek_of_ok (front_of_pending h)
  have hrest : buffer.map .ok ++ q.unread = rest := by
    rw [pending_of_buffer_cons hqb, h, List.tail_cons] at hqp
    exact (List.cons.inj hqp).2
  unfold peekSecond
  rw [run_bind_of_ok hq, run_get_bind, hqb]
  cases buffer with
  | cons u buffer =>
    refine ⟨.start, q, ?_, ?_⟩
    · rw [← hrest]
      rfl
    · rw [hqp, h, ← hrest]
      rfl
  | nil =>
    obtain ⟨r, hr, hrb, hru⟩ := q.run_pull
    rw [List.map_nil, List.nil_append] at hrest
    rw [hrest] at hr hru
    refine ⟨q.finish, ?_⟩
    -- the second token comes from the stream, and the first one stays in the buffer
    cases hd : rest.headD (.ok ⟨.eof, "", q.finish⟩) with
    | ok u =>
      rw [hd] at hr
      refine ⟨{ r with buffer := [t, u] }, run_bind_of_ok hr, ?_⟩
      rw [← hru]
      rfl
    | error e =>
      rw [hd] at hr
      refine ⟨r, run_bind_of_error hr, ?_⟩
      rw [pending_of_buffer_cons (hrb.trans hqb), List.map_nil, List.nil_append, hru]

theorem run_peek_of_pending {t : Token} {rest : List Token.Item}
    (h : p.pending = .ok t :: rest) :
    ∃ q, p.run peek = (.ok t, q) ∧ q.pending = p.pending := by
  obtain ⟨q, hrun, hq, -⟩ := run_peek_of_ok (front_of_pending h)
  exact ⟨q, hrun, by rw [hq, h, List.tail_cons]⟩

theorem run_advance_of_pending {item : Token.Item} {rest : List Token.Item}
    (h : p.pending = item :: rest) :
    ∃ q, p.run advance = (item, q) ∧ q.pending = rest := by
  obtain ⟨q, hrun, hq⟩ := p.run_advance
  exact ⟨q, by rw [hrun, front_of_pending h], by rw [hq, h, List.tail_cons]⟩

theorem run_peek_fst (p : Parser) : (p.run peek).1 = p.front := by
  cases hfront : p.front with
  | ok t =>
    obtain ⟨q, hrun, -⟩ := run_peek_of_ok hfront
    rw [hrun]
  | error e =>
    obtain ⟨q, hrun, -⟩ := run_peek_of_error hfront
    rw [hrun]

theorem pending_of_run_peek {t : Token} (h : p.run peek = (.ok t, q)) :
    q.pending = .ok t :: p.pending.tail := by
  cases hfront : p.front with
  | ok u =>
    obtain ⟨q', hrun, hq', -⟩ := run_peek_of_ok hfront
    cases hrun.symm.trans h
    exact hq'
  | error e =>
    obtain ⟨q', hrun, -⟩ := run_peek_of_error hfront
    cases hrun.symm.trans h

theorem pending_of_run_peekSecond {t u : Token} {rest : List Token.Item}
    (hp : p.pending = .ok t :: rest) (h : p.run peekSecond = (.ok u, q)) :
    q.pending = .ok t :: .ok u :: rest.tail := by
  obtain ⟨pos, q', hrun, hq'⟩ := run_peekSecond hp
  rw [hrun, Prod.mk.injEq] at h
  obtain ⟨hhead, rfl⟩ := h
  rw [hq', hhead]

theorem pending_of_run_advance {r : Token.Item} (h : p.run advance = (r, q)) :
    r = p.front ∧ q.pending = p.pending.tail := by
  obtain ⟨q', hrun, hq'⟩ := p.run_advance
  cases hrun.symm.trans h
  exact ⟨rfl, hq'⟩

section
variable {op? : Token.Kind → Option BinaryOp} {operand : Parse Tree} {left : Expr} {height : Nat}

theorem run_operations_of_none {t : Token} (hp : p.run peek = (.ok t, q))
    (ht : op? t.kind = none) :
    p.run (operations op? operand left height) = (.ok (left, height), q) := by
  rw [operations, moves_peek, run_bind_of_ok hp, ht]
  rfl

theorem run_operations_of_some {t u : Token} {op : BinaryOp} (hp : p.run peek = (.ok t, q))
    (ht : op? t.kind = some op) (hq : q.run advance = (.ok u, r)) :
    p.run (operations op? operand left height) = r.run (operand >>= fun right =>
      if maxDepth < max height right.2 + 1 then throw (tooDeep u)
      else operations op? operand (.binary op left right.1) (max height right.2 + 1)) := by
  rw [operations, moves_peek, run_bind_of_ok hp, ht]
  exact run_bind_of_ok hq

end

theorem run_statements_of_inner {t : Token} {rounds index : Nat} (hpeek : p.run peek = (.ok t, q))
    (ht : ¬ t.kind.isTerminator) :
    p.run (statements (rounds + 1) index) = q.run (statement >>= fun s =>
      report (.statementParsed index s) >>= fun _ => endStatement >>= fun _ =>
      statements rounds (index + 1) >>= fun later => pure (s :: later)) := by
  rw [statements, moves_peek, run_bind_of_ok hpeek]
  cases hk : t.kind <;> first | rfl | exact absurd (by rw [hk]; rfl) ht

theorem run_bind_cons_fst (x : Parse Program) (s : Statement) :
    (p.run (x >>= fun later => pure (s :: later))).1 = (p.run x).1.map ([s] ++ ·) := by
  rw [run_bind]
  rcases p.run x with ⟨_ | _, _⟩ <;> rfl

end LineCalc.Parser
