import LineCalc.Proofs.InStep
import LineCalc.Proofs.Progress
import LineCalc.Proofs.Watched

/-! Calling a parser again. Nothing of a parse lasts beyond it but the tokens and items it has left,
so that the next parse is that of a new parser over these. -/

namespace LineCalc.Parser
variable {α β : Type} {p : Parser}

section
variable {P : α → Prop} {Q : β → Prop} {x : Parse α} {f : α → Parse β}

/-- What the step returns has the property, whatever the parser. -/
def Returns (x : Parse α) (P : α → Prop) : Prop :=
  ∀ (p : Parser) a q, p.run x = (.ok a, q) → P a

theorem Returns.bind (hx : Returns x P) (hf : ∀ a, P a → Returns (f a) Q) :
    Returns (x >>= f) Q := by
  intro p b r hrun
  obtain ⟨a, q, hrun, hrest⟩ := run_bind_eq_ok.mp hrun
  exact hf a (hx p a q hrun) q b r hrest

theorem returns_bind (hf : ∀ a, Returns (f a) Q) : Returns (x >>= f) Q := by
  have hx : Returns x fun _ => True := fun _ _ _ _ => trivial
  exact hx.bind fun a _ => hf a

theorem returns_pure {a : α} (h : P a) : Returns (pure a) P := by
  intro p b q hrun
  cases hrun
  exact h

theorem returns_throw (e : Error) : Returns (throw e) P := by
  intro p a q hrun
  cases hrun

end

def IsMeasured (tree : Tree) : Prop := tree.1.height = tree.2 ∧ tree.2 ≤ maxDepth

section
variable {op? : Token.Kind → Option BinaryOp} {operand : Parse Tree}

theorem returns_operations (h : Returns operand IsMeasured) {left : Expr} {height : Nat}
    (hleft : IsMeasured (left, height)) :
    Returns (operations op? operand left height) IsMeasured := by
  induction hn : maxDepth - height using Nat.strongRecOn generalizing left height with
  | _ n ih =>
    rw [operations]
    refine returns_bind fun t => ?_
    cases op? t.kind with
    | none => exact returns_pure hleft
    | some op =>
      refine returns_bind fun u => h.bind fun right hright => ?_
      dsimp only
      split
      · exact returns_throw _
      · rename_i hheight
        refine ih _ (by omega) ⟨?_, Nat.not_lt.mp hheight⟩ rfl
        rw [Expr.height, hleft.1, hright.1]

theorem Returns.chain (h : Returns operand IsMeasured) :
    Returns (chain op? operand) IsMeasured :=
  h.bind fun _ htree => returns_operations h htree

theorem Returns.sum (h : Returns operand IsMeasured) : Returns (sum operand) IsMeasured :=
  h.chain.chain

end

theorem returns_factor (room : Nat) : Returns (factor room) IsMeasured := by
  induction room using Nat.strongRecOn with
  | _ room ih =>
    unfold factor
    refine returns_bind fun t => ?_
    cases t.kind with
    | number x => exact returns_pure ⟨rfl, Nat.zero_le _⟩
    | identifier name => exact returns_pure ⟨rfl, Nat.zero_le _⟩
    | minus =>
      cases room with
      | zero => exact returns_throw _
      | succ room =>
        refine (ih room (Nat.lt_succ_self room)).bind fun tree htree => ?_
        dsimp only
        split
        · exact returns_throw _
        · rename_i hheight
          exact returns_pure ⟨congrArg (· + 1) htree.1, Nat.not_lt.mp hheight⟩
    | leftParen =>
      cases room with
      | zero => exact returns_throw _
      | succ room =>
        refine (ih room (Nat.lt_succ_self room)).sum.bind fun tree htree => ?_
        exact returns_bind fun _ => returns_pure htree
    | _ => exact returns_throw _

theorem returns_expression : Returns expression fun e => e.height ≤ maxDepth :=
  (returns_factor maxDepth).sum.bind fun _ htree => returns_pure (htree.1 ▸ htree.2)

theorem returns_statement : Returns statement fun s => s.body.height ≤ maxDepth := by
  have hexpr : Returns (expression >>= fun e => pure (Statement.expr e))
      fun s => s.body.height ≤ maxDepth :=
    returns_expression.bind fun _ he => returns_pure he
  refine returns_bind fun t => ?_
  cases t.kind with
  | identifier name =>
    refine returns_bind fun u => ?_
    split
    · refine returns_bind fun _ => returns_bind fun _ => ?_
      exact returns_expression.bind fun _ he => returns_pure he
    · exact hexpr
  | _ => exact hexpr

theorem returns_statements (rounds index : Nat) :
    Returns (statements rounds index) fun read => ∀ s ∈ read, s.body.height ≤ maxDepth := by
  induction rounds generalizing index with
  | zero => exact returns_pure (by simp)
  | succ rounds ih =>
    unfold statements
    refine returns_bind fun t => ?_
    cases t.kind with
    | eof => exact returns_pure (by simp)
    | newline => exact returns_bind fun _ => ih index
    | _ =>
      refine returns_statement.bind fun s hs => returns_bind fun _ => returns_bind fun _ => ?_
      refine (ih (index + 1)).bind fun later hlater => returns_pure ?_
      exact List.forall_mem_cons.mpr ⟨hs, hlater⟩

theorem returns_program : Returns program fun read => ∀ s ∈ read, s.body.height ≤ maxDepth := by
  refine returns_bind fun p => (returns_statements _ 0).bind fun _ hread => ?_
  exact returns_bind fun _ => returns_pure hread

/-- The stream was last read for the last token in the buffer. -/
def LastRead (p : Parser) : Prop := ∀ t ∈ p.buffer.getLast?, p.finish = t.finish

theorem finish_of_run_pull {t : Token} {q : Parser} (h : p.run pull = (.ok t, q)) :
    q.finish = t.finish := by
  unfold pull at h
  rw [run_get_bind] at h
  rcases hu : p.unread with _ | ⟨e | t', unread⟩ <;> rw [hu] at h <;> cases h <;> rfl

theorem LastRead.of_run_pull {e : Error} {q : Parser} (hp : LastRead p)
    (h : p.run pull = (.error e, q)) : LastRead q := by
  unfold pull at h
  rw [run_get_bind] at h
  rcases hu : p.unread with _ | ⟨e' | t', unread⟩ <;> rw [hu] at h <;> cases h
  exact hp

theorem LastRead.pull_store (hp : LastRead p) (before : List Token) :
    LastRead (p.run (pull >>= fun t =>
      (modify fun p => { p with buffer := before ++ [t] }) >>= fun _ => pure t)).2 := by
  rcases hrun : p.run pull with ⟨e | t, q⟩
  · rw [run_bind_of_error hrun]
    exact hp.of_run_pull hrun
  · rw [run_bind_of_ok hrun]
    intro t' ht'
    change t' ∈ (before ++ [t]).getLast? at ht'
    rw [List.getLast?_concat, Option.mem_some_iff] at ht'
    have hfinish := finish_of_run_pull hrun
    rwa [ht'] at hfinish

theorem LastRead.peek (hp : LastRead p) : LastRead (p.run peek).2 := by
  unfold Parser.peek
  rw [run_get_bind]
  cases p.buffer with
  | nil => exact hp.pull_store []
  | cons t buffer => exact hp

theorem LastRead.peekSecond (hp : LastRead p) : LastRead (p.run peekSecond).2 := by
  have hpeek := hp.peek
  unfold Parser.peekSecond
  rcases hrun : p.run Parser.peek with ⟨e | first, q⟩ <;> rw [hrun] at hpeek
  · rw [run_bind_of_error hrun]
    exact hpeek
  · rw [run_bind_of_ok hrun, run_get_bind]
    match q.buffer with
    | [] => exact hpeek.pull_store [first]
    | [_] => exact hpeek.pull_store [first]
    | _ :: _ :: _ => exact hpeek

theorem LastRead.advance (hp : LastRead p) : LastRead (p.run advance).2 := by
  unfold Parser.advance
  rw [run_get_bind]
  cases hb : p.buffer with
  | nil =>
    obtain ⟨q, hrun, hbuffer, -⟩ := p.run_pull
    change LastRead (p.run pull).2
    rw [hrun, LastRead, hbuffer, hb]
    simp
  | cons t buffer =>
    intro u hu
    change u ∈ buffer.getLast? at hu
    refine hp u ?_
    rw [hb, List.getLast?_cons, Option.mem_def.mp hu]
    rfl

def lastRead : Invariant where
  state := LastRead
  error _ := True
  unexpected _ _ := trivial
  keeps_peek _ hp := ⟨hp.peek, fun _ _ => trivial⟩
  keeps_peekSecond _ hp := ⟨hp.peekSecond, fun _ _ => trivial⟩
  keeps_advance _ hp := ⟨hp.advance, fun _ _ => trivial⟩
  keeps_statementParsed _ _ _ hp := ⟨hp, fun _ _ => trivial⟩
  keeps_programParsed _ _ hp := ⟨hp, fun _ _ => trivial⟩

theorem lastRead_after (hp : LastRead p) (calls : Nat) : LastRead (p.after calls) := by
  induction calls with
  | zero => exact hp
  | succ calls ih => exact (lastRead.keeps_program _ ih).1

theorem forall₂_sameItem_self (items : List Token.Item) :
    List.Forall₂ (SameItem Eq) items items := by
  refine List.forall₂_same.mpr fun item _ => ?_
  cases item with
  | ok t => exact .ok rfl
  | error e => exact .error e

theorem eq_of_sameError {e e' : Error} (h : SameError Eq e e') : e = e' := by
  cases h with
  | refl => rfl
  | unexpected expected htu => rw [htu]

theorem parse_fst_of_error {e : Error} (h : p.front = .error e) : p.parse.1 = .error e := by
  obtain ⟨q, hpeek, -⟩ := run_peek_of_error h
  rw [parse_fst, statements, moves_peek, run_bind_of_error hpeek]

theorem parse_fst_of_eof {t : Token} (h : p.front = .ok t) (ht : t.kind = .eof) :
    p.parse.1 = .ok [] := by
  obtain ⟨q, hpeek, -⟩ := run_peek_of_ok h
  rw [parse_fst, statements, moves_peek, run_bind_of_ok hpeek, ht]
  rfl

theorem parse_fst_of_endAt (h : p.endAt = endAt { unread := p.pending }) :
    p.parse.1 = (Parser.parse { unread := p.pending }).1 := by
  have hstate : Matched Eq p { unread := p.pending } :=
    ⟨forall₂_sameItem_self p.pending, by rw [h]⟩
  have halike := (matched Eq fun htu => by rw [htu]).alike_parse hstate
  cases hr : p.parse.1 with
  | ok program => exact (halike.ok_fst hr).symm
  | error e =>
    obtain ⟨e', hr', he⟩ := halike.error_fst hr
    rw [hr', eq_of_sameError he]

/-- A parse depends on what is left alone: the place of the last token counts only where that token
is in the buffer still, and a new parser finds it out again. -/
theorem parse_fst_eq_fresh (hbuffer : p.buffer.length ≤ 1) (hp : LastRead p) :
    p.parse.1 = (Parser.parse { unread := p.pending }).1 := by
  rcases hb : p.buffer with _ | ⟨t, _ | ⟨u, buffer⟩⟩
  · have hpending := pending_of_buffer_nil hb
    rcases hu : p.unread with _ | ⟨e | t, rest⟩ <;> rw [hu] at hpending
    · rw [hpending, parse_fst_of_eof (by rw [front, hpending]; rfl) rfl]
      rfl
    · rw [hpending, parse_fst_of_error (front_of_pending hpending)]
      exact (parse_fst_of_error rfl).symm
    · refine parse_fst_of_endAt ?_
      rw [hpending, endAt, endAt, hu]
      rfl
  · refine parse_fst_of_endAt ?_
    have hfinish : p.finish = t.finish := hp t (by rw [hb]; rfl)
    rw [endAt, endAt, pending, hb, hfinish]
    rfl
  · simp [hb] at hbuffer

theorem watched_after (hp : p.buffer.length ≤ 1) (calls : Nat) :
    ∃ past, Watched.after { parser := p } calls = ⟨p.after calls, [], past⟩ ∧
      ∀ q ∈ past, q.buffer.length ≤ 2 := by
  induction calls with
  | zero => exact ⟨[], rfl, by simp⟩
  | succ calls ih =>
    obtain ⟨past, hafter, hpast⟩ := ih
    have hbuffer := Nat.le_succ_of_le (buffer_after hp calls)
    obtain ⟨new, hrun, -, hnew⟩ := Watched.tracks_program (p.after calls) past hbuffer
    refine ⟨new ++ past, ?_, fun q hq => (List.mem_append.mp hq).elim (hnew q) (hpast q)⟩
    rw [Watched.after, hafter]
    exact congrArg Prod.snd hrun

/-- After any number of parses, failed or not, no parenthesis or sign is counted as open and at
most one token is in the buffer, where there were never more than two. The next parse returns what
one of a new parser over that token and the items left returns, with trees within the limit. -/
theorem parser_serves_again (items : List Token.Item) (calls : Nat) :
    let p := Parser.after { unread := items } calls
    let w := Watched.after { parser := { unread := items } } calls
    (w.parser = p ∧ w.nesting = 0 ∧ w.parse.1 = p.parse.1 ∧ ∀ q ∈ w.past, q.buffer.length ≤ 2) ∧
    p.buffer.length ≤ 1 ∧
    p.parse.1 = (Parser.parse { unread := p.buffer.map .ok ++ p.unread }).1 ∧
    ∀ program, p.parse.1 = .ok program → ∀ s ∈ program, s.body.height ≤ 256 := by
  intro p w
  have hfresh : (Parser.mk items [] .start []).buffer.length ≤ 1 := Nat.zero_le 1
  have hbuffer : p.buffer.length ≤ 1 := buffer_after hfresh calls
  obtain ⟨past, hw, hpast⟩ := watched_after hfresh calls
  have hw' : w = ⟨p, [], past⟩ := hw
  refine ⟨?_, hbuffer, parse_fst_eq_fresh hbuffer (lastRead_after (by simp [LastRead]) calls), ?_⟩
  · obtain ⟨new, hrun, -⟩ := Watched.tracks_program p past (Nat.le_succ_of_le hbuffer)
    rw [hw']
    exact ⟨rfl, rfl, congrArg Prod.fst hrun, hpast⟩
  · intro program hprogram
    exact returns_program p program p.parse.2 (Prod.ext hprogram rfl)

end LineCalc.Parser
