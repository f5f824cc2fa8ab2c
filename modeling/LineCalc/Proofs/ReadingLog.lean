import LineCalc.Proofs.Completion
import LineCalc.Proofs.FirstError
import LineCalc.Proofs.Invariant
import LineCalc.Proofs.Outcome
import LineCalc.Proofs.Progress

/-! The log of a parse. A parser reports every token that it takes from the stream. It knows that a
statement is complete when it sees the token behind it, and it has taken no more than this one
token then. So the report of a statement stands right behind that of the token which ended it. -/

namespace LineCalc

namespace Event

def token? : Event → Option Token
  | tokenRead t => some t
  | _ => none

def parsed? : Event → Option (Nat × Statement)
  | statementParsed i s => some (i, s)
  | _ => none

end Event

namespace Parser
open Grammar

inductive IsStream : List Token.Item → Prop
  | eof {t} : t.kind = .eof → IsStream [.ok t]
  | error (e : Error) : IsStream [.error e]
  | cons {t items} : t.kind ≠ .eof → IsStream items → IsStream (.ok t :: items)

/-- The items begin with a token of a statement or an error, and no statement is complete. -/
structure Incomplete (items : List Token.Item) : Prop where
  inner : ∀ t rest, items = .ok t :: rest → ¬ t.kind.isTerminator
  no_statement : ∀ body t s rest, items = (body ++ [t]).map .ok ++ rest → ¬ Completes body t s

/-- The log of reading the items `items` from statement `index` on, and what comes of it. Every
statement is reported when the first token behind it has been taken, and no token after that one. -/
inductive Reading : Nat → List Token.Item → Except Error Program → List Event → Prop
  | finished {index t items} : t.kind = .eof →
    Reading index (.ok t :: items) (.ok []) [.tokenRead t]
  | blank {index t items r log} : t.kind = .newline → Reading index items r log →
    Reading index (.ok t :: items) r (.tokenRead t :: log)
  | line {index items s r log} {body : List Token} {t : Token} :
    Completes body t s → t.kind = .newline → Reading (index + 1) items r log →
    Reading index ((body ++ [t]).map .ok ++ items) (r.map (s :: ·))
      ((body ++ [t]).map .tokenRead ++ .statementParsed index s :: log)
  | last {index items s} {body : List Token} {t : Token} : Completes body t s → t.kind = .eof →
    Reading index ((body ++ [t]).map .ok ++ items) (.ok [s])
      ((body ++ [t]).map .tokenRead ++ [.statementParsed index s])
  | refused {index items s} {body : List Token} {t : Token} :
    Completes body t s → ¬ t.kind.isTerminator →
    Reading index ((body ++ [t]).map .ok ++ items)
      (.error (t.unexpected "operator or end of line"))
      ((body ++ [t]).map .tokenRead ++ [.statementParsed index s])
  | broken {index items e} {us : List Token} : Incomplete (us.map .ok ++ items) →
    Reading index (us.map .ok ++ items) (.error e) (us.map .tokenRead)

variable {α β : Type} {p q : Parser} {x : Parse α} {f : α → Parse β} {s : Statement} {t : Token}
  {us : List Token} {items rest : List Token.Item} {index : Nat}

def told (items : List Token.Item) : List Event :=
  items.filterMap fun item => item.toOption.map .tokenRead

theorem told_append (items rest : List Token.Item) :
    told (items ++ rest) = told items ++ told rest := List.filterMap_append

theorem told_map_ok (us : List Token) : told (us.map .ok) = us.map .tokenRead := by
  simp [told, List.filterMap_map, Except.toOption]

/-- Since `start` the parser has reported the tokens that it took, and nothing else. -/
def Tells (start q : Parser) : Prop :=
  ∃ taken, start.unread = taken ++ q.unread ∧ q.events = (told taken).reverse ++ start.events

theorem tells_self (p : Parser) : Tells p p := ⟨[], rfl, rfl⟩

theorem Tells.trans {r : Parser} (hq : Tells p q) (hr : Tells q r) : Tells p r := by
  obtain ⟨taken, hunread, hevents⟩ := hq
  obtain ⟨taken', hunread', hevents'⟩ := hr
  refine ⟨taken ++ taken', by rw [hunread, hunread', List.append_assoc], ?_⟩
  rw [hevents', hevents, told_append, List.reverse_append, List.append_assoc]

theorem tells_pull (p : Parser) : Tells p (p.run pull).2 := by
  unfold pull
  rw [run_get_bind]
  rcases hu : p.unread with _ | ⟨e | t, unread⟩
  · exact tells_self p
  · exact ⟨[.error e], hu, rfl⟩
  · exact ⟨[.ok t], hu, rfl⟩

theorem keeps_tells_pull (start : Parser) : Keeps (Tells start) (fun _ => True) pull :=
  fun p hp => ⟨hp.trans (tells_pull p), fun _ _ => trivial⟩

theorem keeps_tells_buffer (start : Parser) (buffer : List Token) :
    Keeps (Tells start) (fun _ => True) (modify fun p => { p with buffer }) :=
  fun _ hp => ⟨hp, fun _ _ => trivial⟩

def tells (start : Parser) : StepInvariant where
  state := Tells start
  error _ := True
  unexpected _ _ := trivial
  keeps_peek := keeps_peek_of (keeps_tells_pull start) (keeps_tells_buffer start)
  keeps_peekSecond := keeps_peekSecond_of (keeps_tells_pull start) (keeps_tells_buffer start)
  keeps_advance := keeps_advance_of (keeps_tells_pull start) (keeps_tells_buffer start)

theorem filterMap_token?_told (taken : List Token.Item) :
    (told taken).filterMap Event.token? = taken.filterMap Except.toOption := by
  rw [told, List.filterMap_filterMap]
  congr 1
  funext item
  cases item <;> rfl

def Names (items : List Token.Item) (q : Parser) : Prop :=
  ∃ taken, items = taken ++ q.unread ∧
    q.events.reverse.filterMap Event.token? = taken.filterMap Except.toOption

theorem Names.trans (h : Names items p) (hq : Tells p q) : Names items q := by
  obtain ⟨taken, hitems, htokens⟩ := h
  obtain ⟨taken', hunread, hevents⟩ := hq
  refine ⟨taken ++ taken', by rw [hitems, hunread, List.append_assoc], ?_⟩
  rw [hevents, List.reverse_append, List.reverse_reverse, List.filterMap_append, htokens,
    filterMap_token?_told, List.filterMap_append]

theorem keeps_names_pull (items : List Token.Item) : Keeps (Names items) (fun _ => True) pull :=
  fun p hp => ⟨hp.trans (tells_pull p), fun _ _ => trivial⟩

theorem keeps_names_buffer (items : List Token.Item) (buffer : List Token) :
    Keeps (Names items) (fun _ => True) (modify fun p => { p with buffer }) :=
  fun _ hp => ⟨hp, fun _ _ => trivial⟩

theorem keeps_names_report (items : List Token.Item) {event : Event} (h : event.token? = none) :
    Keeps (Names items) (fun _ => True) (report event) := by
  rintro p ⟨taken, hitems, htokens⟩
  refine ⟨⟨taken, hitems, ?_⟩, fun _ _ => trivial⟩
  change (event :: p.events).reverse.filterMap Event.token? = _
  rw [List.reverse_cons, List.filterMap_append, List.filterMap_cons_none h, List.filterMap_nil,
    List.append_nil, htokens]

def names (items : List Token.Item) : Invariant where
  state := Names items
  error _ := True
  unexpected _ _ := trivial
  keeps_peek := keeps_peek_of (keeps_names_pull items) (keeps_names_buffer items)
  keeps_peekSecond := keeps_peekSecond_of (keeps_names_pull items) (keeps_names_buffer items)
  keeps_advance := keeps_advance_of (keeps_names_pull items) (keeps_names_buffer items)
  keeps_statementParsed _ _ := keeps_names_report items rfl
  keeps_programParsed _ := keeps_names_report items rfl

theorem names_parse (items : List Token.Item) :
    Names items (Parser.parse { unread := items }).2 :=
  ((names items).keeps_program { unread := items } ⟨[], rfl, rfl⟩).1

def Leaves (x : Parse α) : Prop :=
  ∀ ⦃p q : Parser⦄ ⦃a : α⦄, p.run x = (.ok a, q) → q.buffer ≠ []

theorem leaves_peek : Leaves peek := by
  intro p q t hrun
  have hfront : p.front = .ok t := by rw [← run_peek_fst, hrun]
  obtain ⟨q', hrun', -, buffer, hbuffer⟩ := run_peek_of_ok hfront
  cases hrun'.symm.trans hrun
  rw [hbuffer]
  exact List.cons_ne_nil t buffer

theorem Leaves.bind (h : ∀ a, Leaves (f a)) : Leaves (x >>= f) := by
  intro p q b hrun
  obtain ⟨a, r, -, hrest⟩ := run_bind_eq_ok.mp hrun
  exact h a hrest

theorem Leaves.map (h : Leaves x) (g : α → β) : Leaves (x >>= fun a => pure (g a)) := by
  intro p q b hrun
  obtain ⟨a, r, hx, hrest⟩ := run_bind_eq_ok.mp hrun
  cases hrest
  exact h hx

theorem leaves_operations (op? : Token.Kind → Option BinaryOp) (operand : Parse Tree) (left : Expr)
    (height : Nat) : Leaves (operations op? operand left height) := by
  induction hn : maxDepth - height using Nat.strongRecOn generalizing left height with
  | _ n ih =>
    intro p q tree hrun
    rw [operations] at hrun
    obtain ⟨t, r, hpeek, hrest⟩ := run_bind_eq_ok.mp hrun
    cases hop : op? t.kind with
    | none =>
      rw [hop] at hrest
      cases hrest
      exact leaves_peek hpeek
    | some op =>
      rw [hop] at hrest
      refine Leaves.bind (fun u => Leaves.bind fun right => ?_) hrest
      dsimp only
      split
      · rintro p q tree ⟨⟩
      · exact ih _ (by omega) _ _ rfl

theorem leaves_expression : Leaves expression := by
  have hsum : Leaves (sum (factor maxDepth)) :=
    Leaves.bind fun tree => leaves_operations additive? _ tree.1 tree.2
  exact hsum.map Prod.fst

theorem leaves_statement : Leaves statement := by
  have hexpr : Leaves (expression >>= fun e => pure (Statement.expr e)) := leaves_expression.map _
  refine .bind fun t => ?_
  split
  · refine .bind fun u => ?_
    split
    · exact .bind fun _ => .bind fun _ => leaves_expression.map _
    · exact hexpr
  · exact hexpr

namespace IsStream

theorem append (hus : ∀ t ∈ us, t.kind ≠ .eof) (h : IsStream items) :
    IsStream (us.map .ok ++ items) := by
  induction us with
  | nil => exact h
  | cons t us ih =>
    obtain ⟨ht, hus⟩ := List.forall_mem_cons.mp hus
    exact .cons ht (ih hus)

theorem tail (h : IsStream (.ok t :: items)) (ht : t.kind ≠ .eof) : IsStream items := by
  cases h with
  | eof hk => exact absurd hk ht
  | cons _ h => exact h

theorem of_append (h : IsStream (us.map .ok ++ items)) (hus : ∀ t ∈ us, t.kind ≠ .eof) :
    IsStream items := by
  induction us with
  | nil => exact h
  | cons t us ih =>
    obtain ⟨ht, hus⟩ := List.forall_mem_cons.mp hus
    exact ih (h.tail ht) hus

theorem exists_tokens (h : IsStream items) : ∃ (ts : List Token) (more : List Token.Item),
    items = ts.map .ok ++ more ∧
    ((more = [] ∧ ∃ t ∈ ts, t.kind = .eof) ∨ ∃ e, more = [.error e]) := by
  induction h with
  | @eof t ht => exact ⟨[t], [], rfl, .inl ⟨rfl, t, by simp, ht⟩⟩
  | error e => exact ⟨[], [.error e], rfl, .inr ⟨e, rfl⟩⟩
  | @cons t items ht _ ih =>
    obtain ⟨ts, more, rfl, hmore⟩ := ih
    refine ⟨t :: ts, more, rfl, hmore.imp_left ?_⟩
    rintro ⟨rfl, u, hu, hk⟩
    exact ⟨rfl, u, List.mem_cons_of_mem t hu, hk⟩

theorem exists_told {taken : List Token.Item} (h : IsStream (taken ++ rest)) :
    ∃ (us : List Token) (tail : List Token.Item),
      taken ++ rest = us.map .ok ++ tail ∧ told taken = us.map .tokenRead := by
  obtain ⟨ts, more, heq, hmore⟩ := h.exists_tokens
  rcases List.append_eq_append_iff.mp heq with ⟨mid, hts, -⟩ | ⟨mid, htaken, hrest⟩
  · obtain ⟨us, vs, -, rfl, -⟩ := List.map_eq_append_iff.mp hts
    exact ⟨us, rest, rfl, told_map_ok us⟩
  · refine ⟨ts, more, heq, ?_⟩
    have hmid : told mid = [] := by
      rcases hmore with ⟨rfl, -⟩ | ⟨e, rfl⟩
      · obtain ⟨rfl, -⟩ := List.append_eq_nil_iff.mp hrest.symm
        rfl
      · rcases List.singleton_eq_append_iff.mp hrest with ⟨rfl, -⟩ | ⟨rfl, -⟩ <;> rfl
    rw [htaken, told_append, told_map_ok, hmid, List.append_nil]

end IsStream

theorem isStream_items (source : String) : IsStream (Scanner.ofSource source).items := by
  obtain ⟨tokens, last, hitems, hkind, ⟨t, rfl, ht⟩ | ⟨c, pos, rfl⟩⟩ :=
    Scanner.items_eq_append source
  · rw [hitems]
    exact .append hkind (.eof ht)
  · rw [hitems]
    exact .append hkind (.error _)

theorem run_peek_of_unread (hbuffer : p.buffer = []) (hunread : p.unread = .ok t :: rest) :
    ∃ q, p.run peek = (.ok t, q) ∧ q.buffer = [t] ∧ q.unread = rest ∧
      q.events = .tokenRead t :: p.events := by
  unfold peek pull
  rw [run_get_bind, hbuffer]
  dsimp only
  rw [bind_assoc, run_get_bind, hunread]
  exact ⟨_, rfl, rfl, rfl, rfl⟩

theorem run_peek_of_buffer (hbuffer : p.buffer = [t]) : p.run peek = (.ok t, p) := by
  unfold peek
  rw [run_get_bind, hbuffer]
  rfl

theorem run_advance_of_buffer (hbuffer : p.buffer = [t]) :
    p.run advance = (.ok t, { p with buffer := [] }) := by
  unfold advance
  rw [run_get_bind, hbuffer]
  rfl

/-- A statement that is read has taken one token more than its own, which waits in the buffer. -/
theorem run_statement_reads (hstream : IsStream p.pending) (hbuffer : p.buffer = [t])
    (ht : t.kind ≠ .eof) (hrun : p.run statement = (.ok s, q)) :
    ∃ body u, p.pending = (body ++ [u]).map .ok ++ q.unread ∧ q.buffer = [u] ∧
      Completes body u s := by
  -- a step that succeeds has looked one token ahead and, with the first one used, no further
  obtain ⟨u, hu⟩ : ∃ u, q.buffer = [u] := by
    have hlength : p.buffer.length ≤ [t].length := Nat.le_of_eq (congrArg List.length hbuffer)
    have hadvances := advances_statement (going_self hlength) hbuffer ht
    unfold Advances at hadvances
    rw [hrun] at hadvances
    have hne := leaves_statement hrun
    exact List.length_eq_one_iff.mp
      (Nat.le_antisymm hadvances.buffer_length (List.length_pos_iff.mpr hne))
  obtain ⟨ts, more, hpending, hmore⟩ := hstream.exists_tokens
  obtain ⟨us, vs, rfl, hus, hx, hq⟩ :=
    exists_consumes_of_run hpending (hmore.imp_left And.right) hrun
  rw [pending, hu] at hq
  cases vs with
  | nil => rcases hmore with ⟨rfl, -⟩ | ⟨e, rfl⟩ <;> cases hq
  | cons v vs =>
    obtain ⟨hv, hunread⟩ := List.cons.inj hq
    obtain rfl := Except.ok.inj hv
    refine ⟨us, u, ?_, hu, completes_of_consumes hus fun p ws more hws hp => hx hws hp⟩
    rw [hpending, show q.unread = vs.map .ok ++ more from hunread]
    simp

theorem run_statements_of_buffer (hbuffer : p.buffer = [t]) (ht : t.kind = .eof)
    (rounds index : Nat) : p.run (statements rounds index) = (.ok [], p) := by
  cases rounds with
  | zero => rfl
  | succ rounds =>
    rw [statements, moves_peek, run_bind_of_ok (run_peek_of_buffer hbuffer), ht]
    rfl

theorem run_endStatement_of_newline (hbuffer : p.buffer = [t]) (ht : t.kind = .newline) :
    p.run endStatement = (.ok (), { p with buffer := [] }) := by
  unfold endStatement
  rw [moves_peek, run_bind_of_ok (run_peek_of_buffer hbuffer), ht]
  exact run_discard_of_ok (run_advance_of_buffer hbuffer)

theorem run_endStatement_of_eof (hbuffer : p.buffer = [t]) (ht : t.kind = .eof) :
    p.run endStatement = (.ok (), p) := by
  unfold endStatement
  rw [moves_peek, run_bind_of_ok (run_peek_of_buffer hbuffer), ht]
  rfl

theorem run_endStatement_of_inner (hbuffer : p.buffer = [t]) (ht : ¬ t.kind.isTerminator) :
    p.run endStatement = (.error (t.unexpected "operator or end of line"), p) := by
  unfold endStatement
  rw [moves_peek, run_bind_of_ok (run_peek_of_buffer hbuffer), Bool.eq_false_iff.mpr ht]
  rfl

theorem run_bind_cons (p : Parser) (x : Parse Program) (s : Statement) :
    p.run (x >>= fun later => pure (s :: later)) =
      ((p.run x).1.map (s :: ·), (p.run x).2) := by
  rw [run_bind]
  rcases p.run x with ⟨_ | _, _⟩ <;> rfl

/-- What the step reports, added to what was reported before the items still to come, is a log of
reading these items. -/
def Reports (index : Nat) (past : List Event) (p : Parser) (x : Parse Program) : Prop :=
  ∃ log, Reading index p.pending (p.run x).1 log ∧ (p.run x).2.events = log.reverse ++ past

theorem Reports.of_run_eq {past : List Event} {y z : Parse Program} (h : Reports index past q z)
    (hrun : p.run y = q.run z) (hpending : p.pending = q.pending) : Reports index past p y := by
  unfold Reports
  rwa [hrun, hpending]

section
variable {past : List Event} {rounds : Nat}

theorem incomplete_of_error (e : Error) (rest : List Token.Item) :
    Incomplete (.error e :: rest) := by
  constructor
  · intro t rest' h
    cases h
  · intro body t s rest' h hs
    obtain ⟨u, later, rfl, -⟩ := hs.exists_cons
    cases h

theorem incomplete_of_run {e : Error} (hpending : p.pending = .ok t :: rest)
    (ht : ¬ t.kind.isTerminator) (hrun : p.run statement = (.error e, q)) :
    Incomplete p.pending := by
  constructor
  · intro u rest' h
    cases hpending.symm.trans h
    exact ht
  · intro body u s rest' h hs
    obtain ⟨q', hrun', -⟩ := hs.consumes rfl h
    cases hrun.symm.trans hrun'

theorem reports_broken {taken : List Token.Item} {e : Error} {y : Parse Program}
    (hstream : IsStream p.pending) (hnone : Incomplete p.pending) (hrun : p.run y = (.error e, q))
    (hpending : p.pending = taken ++ q.unread) (hevents : q.events = (told taken).reverse ++ past) :
    Reports index past p y := by
  rw [hpending] at hstream hnone
  obtain ⟨us, tail, hitems, htold⟩ := hstream.exists_told
  refine ⟨us.map .tokenRead, ?_, ?_⟩
  · rw [hitems] at hnone
    rw [hrun, hpending, hitems]
    exact .broken hnone
  · rw [hrun, ← htold]
    exact hevents

/-- A statement that is read is reported behind the token that follows it, and then it depends on
this token how the parse goes on. -/
theorem reports_statement {body : List Token} {u : Token} {y : Parse Program}
    (hpending : p.pending = (body ++ [u]).map .ok ++ q.unread) (hbuffer : q.buffer = [u])
    (hbody : Completes body u s)
    (hevents : q.events =
      .statementParsed index s :: (((body ++ [u]).map Event.tokenRead).reverse ++ past))
    (hrun : p.run y = q.run (endStatement >>= fun _ =>
      statements rounds (index + 1) >>= fun later => pure (s :: later)))
    (hlater : u.kind = .newline → Reports (index + 1) q.events { q with buffer := [] }
      (statements rounds (index + 1))) : Reports index past p y := by
  have hlog (log : List Event) : log.reverse ++ q.events =
      ((body ++ [u]).map Event.tokenRead ++ Event.statementParsed index s :: log).reverse ++
        past := by
    rw [hevents]
    simp
  unfold Reports
  rw [hrun, hpending]
  by_cases hu : u.kind.isTerminator
  · rcases isTerminator_iff.mp hu with hu | hu
    · obtain ⟨log, hreading, hend⟩ := hlater hu
      rw [run_bind_of_ok (run_endStatement_of_newline hbuffer hu), run_bind_cons]
      exact ⟨_, .line hbody hu hreading, hend.trans (hlog log)⟩
    · rw [run_bind_of_ok (run_endStatement_of_eof hbuffer hu), run_bind_cons,
        run_statements_of_buffer hbuffer hu]
      exact ⟨_, .last hbody hu, hlog []⟩
  · rw [run_bind_of_error (run_endStatement_of_inner hbuffer hu)]
    exact ⟨_, .refused hbody hu, hlog []⟩

theorem reports_statementsFrom (hstream : IsStream p.pending) (hbuffer : p.buffer = [t])
    (ht : ¬ t.kind.isTerminator) (hevents : p.events = .tokenRead t :: past)
    (hlater : ∀ ⦃r : Parser⦄, r.buffer = [] → IsStream r.unread →
      r.unread.length < p.pending.length → Reports (index + 1) r.events r
        (statements rounds (index + 1))) :
    Reports index past p (statementsFrom rounds index) := by
  have hpending : p.pending = .ok t :: p.unread := by rw [pending, hbuffer]; rfl
  obtain ⟨⟨taken, hunread, htold⟩, -⟩ := (tells p).keeps_statement p (tells_self p)
  rcases hrun : p.run statement with ⟨e | s, q⟩ <;> rw [hrun] at hunread htold
  · have htaken : p.pending = (.ok t :: taken) ++ q.unread := by
      rw [hpending, hunread]
      rfl
    have hnone := incomplete_of_run hpending ht hrun
    refine reports_broken hstream hnone (run_bind_of_error hrun) htaken ?_
    rw [htold, hevents]
    simp [told, Except.toOption]
  · have hk : t.kind ≠ .eof := fun hk => ht (isTerminator_iff.mpr (.inr hk))
    obtain ⟨body, u, hbody, hu, hcompletes⟩ := run_statement_reads hstream hbuffer hk hrun
    have htaken : .ok t :: taken = (body ++ [u]).map Except.ok := by
      have happend : (.ok t :: taken) ++ q.unread = (body ++ [u]).map .ok ++ q.unread := by
        rw [← hbody, hpending, hunread]
        rfl
      exact List.append_cancel_right happend
    have hrun' : p.run (statementsFrom rounds index) =
        Parser.run { q with events := .statementParsed index s :: q.events } (endStatement >>=
          fun _ => statements rounds (index + 1) >>= fun later => pure (s :: later)) :=
      run_bind_of_ok hrun
    refine reports_statement (q := { q with events := .statementParsed index s :: q.events })
      hbody hu hcompletes ?_ hrun' fun hk => hlater rfl ?_ ?_
    · rw [← told_map_ok, ← htaken, htold, hevents]
      simp [told, Except.toOption]
    · rw [hbody] at hstream
      refine hstream.of_append (List.forall_mem_append.mpr ⟨hcompletes.ne_eof, ?_⟩)
      simp [hk]
    · rw [hbody]
      simp only [List.length_append, List.length_map, List.length_singleton]
      omega

theorem reports_blank (hpeek : p.run peek = (.ok t, q)) (hbuffer : q.buffer = [t])
    (hpending : p.pending = .ok t :: q.unread) (hevents : q.events = .tokenRead t :: p.events)
    (ht : t.kind = .newline)
    (hlater : Reports index q.events { q with buffer := [] } (statements rounds index)) :
    Reports index p.events p (statements (rounds + 1) index) := by
  have hrun : p.run (statements (rounds + 1) index) =
      Parser.run { q with buffer := [] } (statements rounds index) := by
    rw [statements, moves_peek, run_bind_of_ok hpeek, ht]
    exact (run_discard_bind ..).trans (run_bind_of_ok (run_advance_of_buffer hbuffer))
  obtain ⟨log, hreading, hend⟩ := hlater
  unfold Reports
  rw [hrun, hpending]
  refine ⟨.tokenRead t :: log, .blank ht hreading, ?_⟩
  rw [hend, hevents]
  simp

theorem reports_finished (hpeek : p.run peek = (.ok t, q))
    (hpending : p.pending = .ok t :: q.unread) (hevents : q.events = .tokenRead t :: p.events)
    (ht : t.kind = .eof) : Reports index p.events p (statements (rounds + 1) index) := by
  have hrun : p.run (statements (rounds + 1) index) = (.ok [], q) := by
    rw [statements, moves_peek, run_bind_of_ok hpeek, ht]
    rfl
  unfold Reports
  rw [hrun, hpending]
  exact ⟨[.tokenRead t], .finished ht, hevents⟩

theorem reports_statements (index : Nat) (hbuffer : p.buffer = []) (hstream : IsStream p.unread)
    (hrounds : p.unread.length ≤ rounds) : Reports index p.events p (statements rounds index) := by
  induction rounds generalizing p index with
  | zero =>
    rw [List.length_eq_zero_iff.mp (Nat.le_zero.mp hrounds)] at hstream
    cases hstream
  | succ rounds ih =>
    have hpending := pending_of_buffer_nil hbuffer
    rcases hunread : p.unread with _ | ⟨e | t, rest⟩
    · rw [hunread] at hstream
      cases hstream
    · obtain ⟨⟨taken, htaken, hevents⟩, -⟩ := (tells p).keeps_peek p (tells_self p)
      obtain ⟨q, hpeek, -⟩ := run_peek_of_error (front_of_pending (hpending.trans hunread))
      rw [hpeek] at htaken hevents
      have hnone : Incomplete p.unread := by
        rw [hunread]
        exact incomplete_of_error e rest
      rw [← hpending] at hstream htaken hnone
      exact reports_broken hstream hnone (run_bind_of_error hpeek) htaken hevents
    · obtain ⟨q, hpeek, hbuffer', rfl, hevents⟩ := run_peek_of_unread hbuffer hunread
      rw [hunread] at hstream hrounds hpending
      have hpending' : p.pending = q.pending := by
        rw [hpending, pending, hbuffer']
        rfl
      have hlength : q.unread.length ≤ rounds := Nat.le_of_succ_le_succ hrounds
      by_cases hterminator : t.kind.isTerminator
      · rcases isTerminator_iff.mp hterminator with ht | ht
        · refine reports_blank hpeek hbuffer' hpending hevents ht ?_
          exact ih index rfl (hstream.tail (by simp [ht])) hlength
        · exact reports_finished hpeek hpending hevents ht
      · rw [← hpending, hpending'] at hstream
        refine (reports_statementsFrom hstream hbuffer' hterminator hevents ?_).of_run_eq
          (run_statements_of_inner hpeek hterminator) hpending'
        intro r hr hstream' hshorter
        refine ih (index + 1) hr hstream' ?_
        rw [← hpending', hpending, List.length_cons] at hshorter
        omega

end

def closing : Except Error Program → List Event
  | .ok program => [.programParsed program.length]
  | .error _ => []

theorem reading_of_parse (hstream : IsStream items) : ∃ log,
    Reading 0 items (Parser.parse { unread := items }).1 log ∧
      (Parser.parse { unread := items }).2.events.reverse =
        log ++ closing (Parser.parse { unread := items }).1 := by
  have hreports : Reports 0 [] { unread := items } (statements (items.length + 1) 0) :=
    reports_statements 0 rfl hstream (Nat.le_succ _)
  obtain ⟨log, hreading, hevents⟩ := hreports
  have hparse : Parser.parse { unread := items } =
      Parser.run { unread := items } (statements (items.length + 1) 0 >>= fun read =>
        report (.programParsed read.length) >>= fun _ => pure read) := rfl
  rw [hparse]
  rcases hrun : Parser.run { unread := items } (statements (items.length + 1) 0) with
    ⟨e | program, q⟩ <;> rw [hrun] at hreading hevents
  · rw [run_bind_of_error hrun]
    refine ⟨log, hreading, ?_⟩
    dsimp only at hevents ⊢
    rw [hevents, closing, List.append_nil, List.append_nil, List.reverse_reverse]
  · rw [run_bind_of_ok hrun, run_report_bind, run_pure]
    refine ⟨log, hreading, ?_⟩
    dsimp only at hevents ⊢
    rw [List.reverse_cons, hevents, closing, List.append_nil, List.reverse_reverse]

end Parser
end LineCalc
