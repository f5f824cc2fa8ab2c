import LineCalc.Proofs.Steps

/-! A parser under watch. It counts the parentheses and signs open around its token in its own
state, where the plain parser hands the room that is left on to the steps inside, and it notes all
the states that it passes through. Both read the same, and the count is back where it was after
every step, whether the step succeeds or fails. -/

namespace LineCalc.Parser

structure Watched where
  parser : Parser
  /-- The parentheses and signs open around the current token, the innermost first. -/
  openers : List Token := []
  /-- The states the parser has passed through, the latest first. -/
  past : List Parser := []

abbrev Watch := Step Watched

namespace Watched
variable {α β : Type}

def nesting (w : Watched) : Nat := w.openers.length

def step (x : Parse α) : Watch α := ExceptT.mk fun w =>
  let (r, p) := w.parser.run x
  (r, { w with parser := p, past := p :: w.past })

def store (buffer : List Token) : Watch Unit := step (modify fun p => { p with buffer })

def peek : Watch Token := do
  match (← get).parser.buffer with
  | t :: _ => return t
  | [] =>
    let t ← step pull
    store [t]
    return t

def peekSecond : Watch Token := do
  let first ← peek
  match (← get).parser.buffer with
  | _ :: t :: _ => return t
  | _ =>
    let t ← step pull
    store [first, t]
    return t

def advance : Watch Token := do
  match (← get).parser.buffer with
  | t :: buffer =>
    store buffer
    return t
  | [] => step pull

/-- What stands inside an opening token. The count is raised before it and lowered after it. -/
def nested (opener : Token) (x : Watch α) : Watch α := do
  if maxDepth < (← get).nesting + 1 then throw (tooDeep opener)
  else ExceptT.mk do
    modify fun w => { w with openers := opener :: w.openers }
    let r ← x.run
    modify fun w => { w with openers := w.openers.tail }
    return r

instance : Moves Watched where
  peek := peek
  peekSecond := peekSecond
  advance := advance
  inside := nested
  report e := step (report e)
  remaining w := w.parser.unread.length + w.parser.buffer.length

def parse (w : Watched) : Except Error Program × Watched := program.run.run w

def after (w : Watched) : Nat → Watched
  | 0 => w
  | calls + 1 => (w.after calls).parse.2

def run (w : Watched) (y : Watch α) : Except Error α × Watched := (ExceptT.run y).run w

theorem run_bind (w : Watched) (y : Watch α) (g : α → Watch β) :
    w.run (y >>= g) = match w.run y with
      | (.ok a, w') => w'.run (g a)
      | (.error e, w') => (.error e, w') := by
  change (match w.run y with | (r, w') => (ExceptT.bindCont g r).run w') = _
  rcases w.run y with ⟨_ | _, _⟩ <;> rfl

theorem run_get_bind (w : Watched) (g : Watched → Watch β) : w.run (get >>= g) = w.run (g w) := rfl

theorem run_nested (w : Watched) (opener : Token) (y : Watch α) :
    w.run (nested opener y) = if maxDepth < w.nesting + 1 then (.error (tooDeep opener), w)
      else match Watched.run { w with openers := opener :: w.openers } y with
        | (r, w') => (r, { w' with openers := w'.openers.tail }) := by
  unfold nested
  rw [run_get_bind]
  split <;> rfl

/-- Inside these openers the watched step does what the plain one does, with at most two tokens in
the buffer all the while. -/
def Tracks (openers : List Token) (y : Watch α) (x : Parse α) : Prop :=
  ∀ p past, p.buffer.length ≤ 2 → ∃ new,
    Watched.run ⟨p, openers, past⟩ y = ((p.run x).1, ⟨(p.run x).2, openers, new ++ past⟩) ∧
      (p.run x).2.buffer.length ≤ 2 ∧ ∀ q ∈ new, q.buffer.length ≤ 2

section
variable {openers : List Token} {x : Parse α} {y : Watch α} {f : α → Parse β} {g : α → Watch β}

theorem tracks_pure (a : α) : Tracks openers (pure a) (pure a) :=
  fun _ _ hp => ⟨[], rfl, hp, by simp⟩

theorem tracks_throw (e : Error) : Tracks openers (throw e : Watch α) (throw e) :=
  fun _ _ hp => ⟨[], rfl, hp, by simp⟩

theorem tracks_step (hx : ∀ p : Parser, p.buffer.length ≤ 2 → (p.run x).2.buffer.length ≤ 2) :
    Tracks openers (step x) x :=
  fun p _ hp => ⟨[(p.run x).2], rfl, hx p hp, by simpa using hx p hp⟩

theorem Tracks.bind (hx : Tracks openers y x) (hf : ∀ a, Tracks openers (g a) (f a)) :
    Tracks openers (y >>= g) (x >>= f) := by
  intro p past hp
  obtain ⟨new, hrun, hbuffer, hnew⟩ := hx p past hp
  rw [run_bind, hrun]
  rcases hr : p.run x with ⟨e | a, q⟩
  · rw [hr] at hbuffer
    rw [run_bind_of_error hr]
    exact ⟨new, rfl, hbuffer, hnew⟩
  · rw [hr] at hbuffer
    rw [run_bind_of_ok hr]
    obtain ⟨new', hrun', hbuffer', hnew'⟩ := hf a q (new ++ past) hbuffer
    refine ⟨new' ++ new, by rw [List.append_assoc]; exact hrun', hbuffer', fun q' hq' => ?_⟩
    exact (List.mem_append.mp hq').elim (hnew' q') (hnew q')

theorem Tracks.discard (h : Tracks openers y x) : Tracks openers (discard y) (discard x) :=
  h.bind fun _ => tracks_pure ()

theorem tracks_pull : Tracks openers (step pull) pull := by
  refine tracks_step fun p hp => ?_
  obtain ⟨q, hrun, hbuffer, -⟩ := p.run_pull
  rwa [hrun, hbuffer]

theorem tracks_store {buffer : List Token} (h : buffer.length ≤ 2) :
    Tracks openers (store buffer) (modify fun p => { p with buffer }) :=
  tracks_step fun _ _ => h

theorem tracks_report (e : Event) : Tracks openers (step (report e)) (report e) :=
  tracks_step fun _ hp => hp

/-- A step that depends on the buffer may be followed for each buffer alone. -/
theorem tracks_get_bind {g : Watched → Watch β} {f : Parser → Parse β}
    (h : ∀ p past, p.buffer.length ≤ 2 → Tracks openers (g ⟨p, openers, past⟩) (f p)) :
    Tracks openers (get >>= g) (get >>= f) :=
  fun p past hp => h p past hp p past hp

theorem tracks_peek : Tracks openers peek Parser.peek := by
  refine tracks_get_bind fun p past _ => ?_
  dsimp only
  cases p.buffer with
  | nil => exact tracks_pull.bind fun t => (tracks_store (by simp)).bind fun _ => tracks_pure t
  | cons t buffer => exact tracks_pure t

theorem tracks_peekSecond : Tracks openers peekSecond Parser.peekSecond := by
  refine tracks_peek.bind fun first => tracks_get_bind fun p past _ => ?_
  have hpull : Tracks openers (step pull >>= fun t => store [first, t] >>= fun _ => pure t)
      (pull >>= fun t => (modify fun p => { p with buffer := [first, t] }) >>= fun _ => pure t) :=
    tracks_pull.bind fun t => (tracks_store (by simp)).bind fun _ => tracks_pure t
  dsimp only
  match p.buffer with
  | [] => exact hpull
  | [_] => exact hpull
  | _ :: t :: _ => exact tracks_pure t

theorem tracks_advance : Tracks openers advance Parser.advance := by
  refine tracks_get_bind fun p past hp => ?_
  dsimp only
  cases hb : p.buffer with
  | nil => exact tracks_pull
  | cons t buffer =>
    rw [hb, List.length_cons] at hp
    exact (tracks_store (by omega)).bind fun _ => tracks_pure t

theorem Tracks.nested {opener : Token} (h : Tracks (opener :: openers) y x)
    (hroom : openers.length < maxDepth) : Tracks openers (nested opener y) x := by
  intro p past hp
  obtain ⟨new, hrun, hbuffer, hnew⟩ := h p past hp
  refine ⟨new, ?_, hbuffer, hnew⟩
  have hopen : ¬ maxDepth < Watched.nesting ⟨p, openers, past⟩ + 1 := Nat.not_lt.mpr hroom
  rw [run_nested, if_neg hopen, hrun]
  rfl

theorem tracks_nested_bind_of_full {opener : Token} (hfull : openers.length = maxDepth) :
    Tracks openers (Watched.nested opener y >>= g) (throw (tooDeep opener)) := by
  intro p past hp
  refine ⟨[], ?_, hp, by simp⟩
  have hopen : maxDepth < Watched.nesting ⟨p, openers, past⟩ + 1 :=
    Nat.lt_succ_of_le (Nat.le_of_eq hfull.symm)
  rw [run_bind, run_nested, if_pos hopen]
  rfl

section
variable {op? : Token.Kind → Option BinaryOp} {operand : Parse Tree} {operand' : Watch Tree}

theorem tracks_operations (h : Tracks openers operand' operand) (left : Expr) (height : Nat) :
    Tracks openers (operations op? operand' left height)
      (operations op? operand left height) := by
  induction hn : maxDepth - height using Nat.strongRecOn generalizing left height with
  | _ n ih =>
    rw [operations, operations]
    refine tracks_peek.bind fun t => ?_
    cases op? t.kind with
    | none => exact tracks_pure _
    | some op =>
      refine tracks_advance.bind fun u => h.bind fun right => ?_
      dsimp only
      split
      · exact tracks_throw _
      · exact ih _ (by omega) _ _ rfl

theorem Tracks.chain (h : Tracks openers operand' operand) :
    Tracks openers (chain op? operand') (chain op? operand) :=
  h.bind fun tree => tracks_operations h tree.1 tree.2

theorem Tracks.sum (h : Tracks openers operand' operand) :
    Tracks openers (sum operand') (sum operand) :=
  h.chain.chain

end

theorem tracks_closeParen : Tracks openers closeParen Parser.closeParen := by
  refine tracks_peek.bind fun t => ?_
  split
  · exact tracks_advance.discard
  · exact tracks_throw _

theorem tracks_factor (room : Nat) (h : openers.length + room = maxDepth) :
    Tracks openers (factor room) (factor room) := by
  induction room using Nat.strongRecOn generalizing openers with
  | _ room ih =>
    unfold factor
    refine tracks_advance.bind fun t => ?_
    cases t.kind with
    | number x => exact tracks_pure _
    | identifier name => exact tracks_pure _
    | minus =>
      cases room with
      | zero => exact tracks_nested_bind_of_full h
      | succ room =>
        have hinner : Tracks (t :: openers) (factor room) (factor room) :=
          ih room (Nat.lt_succ_self room) (by rw [List.length_cons]; omega)
        refine (hinner.nested (by omega)).bind fun tree => ?_
        dsimp only
        split
        · exact tracks_throw _
        · exact tracks_pure _
    | leftParen =>
      cases room with
      | zero => exact tracks_nested_bind_of_full h
      | succ room =>
        have hinner : Tracks (t :: openers) (factor room) (factor room) :=
          ih room (Nat.lt_succ_self room) (by rw [List.length_cons]; omega)
        refine (hinner.sum.nested (by omega)).bind fun tree => ?_
        exact tracks_closeParen.bind fun _ => tracks_pure _
    | _ => exact tracks_throw _

end

theorem tracks_expression : Tracks [] expression Parser.expression :=
  (tracks_factor maxDepth (Nat.zero_add _)).sum.bind fun tree => tracks_pure tree.1

theorem tracks_statement : Tracks [] statement Parser.statement := by
  have hexpr : Tracks [] (expression >>= fun e => pure (Statement.expr e))
      (expression >>= fun e => pure (Statement.expr e)) :=
    tracks_expression.bind fun e => tracks_pure _
  refine tracks_peek.bind fun t => ?_
  cases t.kind with
  | identifier name =>
    refine tracks_peekSecond.bind fun u => ?_
    split
    · refine tracks_advance.discard.bind fun _ => tracks_advance.discard.bind fun _ => ?_
      exact tracks_expression.bind fun e => tracks_pure _
    · exact hexpr
  | _ => exact hexpr

theorem tracks_endStatement : Tracks [] endStatement Parser.endStatement := by
  refine tracks_peek.bind fun t => ?_
  split
  · exact tracks_throw _
  · split
    · exact tracks_advance.discard
    · exact tracks_pure ()

theorem tracks_statements (rounds index : Nat) :
    Tracks [] (statements rounds index) (statements rounds index) := by
  induction rounds generalizing index with
  | zero => exact tracks_pure []
  | succ rounds ih =>
    unfold statements
    refine tracks_peek.bind fun t => ?_
    cases t.kind with
    | eof => exact tracks_pure []
    | newline => exact tracks_advance.discard.bind fun _ => ih index
    | _ =>
      refine tracks_statement.bind fun s => (tracks_report _).bind fun _ => ?_
      exact tracks_endStatement.bind fun _ => (ih (index + 1)).bind fun later => tracks_pure _

theorem tracks_program : Tracks [] program Parser.program := by
  refine tracks_get_bind fun p past _ => (tracks_statements _ 0).bind fun read => ?_
  exact (tracks_report _).bind fun _ => tracks_pure read

end Watched
end LineCalc.Parser
