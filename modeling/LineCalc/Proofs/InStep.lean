import Mathlib.Data.List.Forall2
import LineCalc.Proofs.Ahead
import LineCalc.Proofs.Invariant

/-! Two parsers in step through a whole parse. Where the tokens of two streams are of the same kinds
in the same order, the parsers take the same way through them, and a failure leaves them as far
along as each other. -/

namespace LineCalc.Parser
variable {α β : Type}

inductive Alike (S : Parser → Parser → Prop) (V : α → α → Prop) (E : Error → Error → Prop) :
    Except Error α × Parser → Except Error α × Parser → Prop
  | ok {a b p q} : V a b → S p q → Alike S V E (.ok a, p) (.ok b, q)
  | error {e e' p q} : E e e' → S p q → Alike S V E (.error e, p) (.error e', q)

theorem Alike.bind {S : Parser → Parser → Prop} {V : α → α → Prop} {W : β → β → Prop}
    {E : Error → Error → Prop} {p q : Parser} {x y : Parse α} {f g : α → Parse β}
    (h : Alike S V E (p.run x) (q.run y))
    (hf : ∀ a b p' q', V a b → S p' q' → p.run x = (.ok a, p') →
      Alike S W E (p'.run (f a)) (q'.run (g b))) :
    Alike S W E (p.run (x >>= f)) (q.run (y >>= g)) := by
  generalize hx : p.run x = r at h
  generalize hy : q.run y = r' at h
  cases h with
  | ok hv hs =>
    rw [run_bind_of_ok hx, run_bind_of_ok hy]
    exact hf _ _ _ _ hv hs hx
  | error he hs =>
    rw [run_bind_of_error hx, run_bind_of_error hy]
    exact .error he hs

theorem Alike.ok_fst {S : Parser → Parser → Prop} {E : Error → Error → Prop} {a : α}
    {r r' : Except Error α × Parser} (h : Alike S Eq E r r') (hr : r.1 = .ok a) : r'.1 = .ok a := by
  cases h with
  | ok hab _ => exact hab ▸ hr
  | error _ _ => cases hr

theorem Alike.error_fst {S : Parser → Parser → Prop} {V : α → α → Prop} {E : Error → Error → Prop}
    {e : Error} {r r' : Except Error α × Parser} (h : Alike S V E r r') (hr : r.1 = .error e) :
    ∃ e', r'.1 = .error e' ∧ E e e' := by
  cases h with
  | ok _ _ => cases hr
  | error he _ =>
    cases hr
    exact ⟨_, rfl, he⟩

theorem Alike.state_snd {S : Parser → Parser → Prop} {V : α → α → Prop} {E : Error → Error → Prop}
    {r r' : Except Error α × Parser} (h : Alike S V E r r') : S r.2 r'.2 := by
  cases h with
  | ok _ hs => exact hs
  | error _ hs => exact hs

/-- A correspondence between parsers that single steps keep, with tokens of one kind on both
sides. -/
structure Lockstep where
  state : Parser → Parser → Prop
  token : Token → Token → Prop
  error : Error → Error → Prop
  same_kind {t u} : token t u → u.kind = t.kind
  unexpected {t u} : token t u → ∀ expected, error (t.unexpected expected) (u.unexpected expected)
  keep_events {p q} : state p q → ∀ events events',
    state { p with events := events } { q with events := events' }
  alike_peek {p q} : state p q → Alike state token error (p.run peek) (q.run peek)
  alike_peekSecond {p q t rest} : state p q → p.pending = .ok t :: rest →
    Alike state token error (p.run peekSecond) (q.run peekSecond)
  alike_advance {p q} : state p q → Alike state token error (p.run advance) (q.run advance)

namespace Lockstep
variable {I : Lockstep} {t u : Token} {x y : Parse α}

def Steady (I : Lockstep) (x y : Parse α) : Prop :=
  ∀ ⦃p q : Parser⦄, I.state p q → Alike I.state Eq I.error (p.run x) (q.run y)

theorem steady_pure (a : α) : I.Steady (pure a) (pure a) :=
  fun _ _ h => .ok rfl h

theorem steady_unexpected (h : I.token t u) (expected : String) :
    I.Steady (throw (t.unexpected expected) : Parse α) (throw (u.unexpected expected)) :=
  fun _ _ hpq => .error (I.unexpected h expected) hpq

theorem Steady.bind {f g : α → Parse β} (hx : I.Steady x y) (hf : ∀ a, I.Steady (f a) (g a)) :
    I.Steady (x >>= f) (y >>= g) := by
  intro p q hpq
  refine (hx hpq).bind fun a b p' q' hab hpq' _ => ?_
  subst hab
  exact hf a hpq'

theorem steady_peek_bind {f g : Token → Parse α}
    (hf : ∀ t u, I.token t u → I.Steady (f t) (g u)) :
    I.Steady (peek >>= f) (peek >>= g) := by
  intro p q hpq
  exact (I.alike_peek hpq).bind fun t u p' q' htu hpq' _ => hf t u htu hpq'

theorem steady_advance_bind {f g : Token → Parse α}
    (hf : ∀ t u, I.token t u → I.Steady (f t) (g u)) :
    I.Steady (advance >>= f) (advance >>= g) := by
  intro p q hpq
  exact (I.alike_advance hpq).bind fun t u p' q' htu hpq' _ => hf t u htu hpq'

theorem steady_discard_advance : I.Steady (discard advance) (discard advance) :=
  steady_advance_bind fun _ _ _ => steady_pure ()

theorem steady_report (e e' : Event) : I.Steady (report e) (report e') :=
  fun _ _ hpq => .ok rfl (I.keep_events hpq _ _)

section
variable {op? : Token.Kind → Option BinaryOp} {operand : Parse Tree}

theorem steady_operations (h : I.Steady operand operand) (left : Expr) (height : Nat) :
    I.Steady (operations op? operand left height) (operations op? operand left height) := by
  -- the tree on the left grows in every round, up to the limit
  induction hn : maxDepth - height using Nat.strongRecOn generalizing left height with
  | _ n ih =>
    rw [operations]
    refine steady_peek_bind fun t u htu => ?_
    rw [I.same_kind htu]
    cases op? t.kind with
    | none => exact steady_pure _
    | some op =>
      refine steady_advance_bind fun t' u' htu' => h.bind fun right => ?_
      dsimp only
      split
      · exact steady_unexpected htu' _
      · exact ih _ (by omega) _ _ rfl

theorem steady_chain (h : I.Steady operand operand) :
    I.Steady (chain op? operand) (chain op? operand) :=
  h.bind fun tree => steady_operations h tree.1 tree.2

end

theorem steady_sum {factor : Parse Tree} (h : I.Steady factor factor) :
    I.Steady (sum factor) (sum factor) :=
  steady_chain (steady_chain h)

theorem steady_closeParen : I.Steady closeParen closeParen := by
  unfold closeParen
  refine steady_peek_bind fun t u htu => ?_
  rw [I.same_kind htu]
  split
  · exact steady_discard_advance
  · exact steady_unexpected htu _

theorem steady_factor (room : Nat) : I.Steady (factor room) (factor room) := by
  induction room using Nat.strongRecOn with
  | _ room ih =>
    unfold factor
    refine steady_advance_bind fun t u htu => ?_
    rw [I.same_kind htu]
    cases hk : t.kind with
    | number x => exact steady_pure _
    | identifier name => exact steady_pure _
    | minus =>
      cases room with
      | zero => exact steady_unexpected htu _
      | succ room =>
        refine (ih room (Nat.lt_succ_self room)).bind fun tree => ?_
        dsimp only
        split
        · exact steady_unexpected htu _
        · exact steady_pure _
    | leftParen =>
      cases room with
      | zero => exact steady_unexpected htu _
      | succ room =>
        refine (steady_sum (ih room (Nat.lt_succ_self room))).bind fun inner => ?_
        exact steady_closeParen.bind fun _ => steady_pure inner
    | _ => exact steady_unexpected htu _

theorem steady_expression : I.Steady expression expression :=
  (steady_sum (steady_factor maxDepth)).bind fun tree => steady_pure tree.1

theorem steady_statement : I.Steady statement statement := by
  have hexpr : I.Steady (expression >>= fun e => pure (Statement.expr e))
      (expression >>= fun e => pure (Statement.expr e)) :=
    steady_expression.bind fun e => steady_pure _
  intro p q hpq
  refine (I.alike_peek hpq).bind fun t u p₁ q₁ htu hpq₁ hrun => ?_
  rw [I.same_kind htu]
  cases t.kind with
  | identifier name =>
    have hsecond := I.alike_peekSecond hpq₁ (pending_of_run_peek hrun)
    refine hsecond.bind fun t' u' p₂ q₂ htu' hpq₂ _ => ?_
    rw [I.same_kind htu']
    split
    · refine (steady_discard_advance.bind fun _ => steady_discard_advance.bind fun _ => ?_) hpq₂
      exact steady_expression.bind fun e => steady_pure _
    · exact hexpr hpq₂
  | _ => exact hexpr hpq₁

theorem steady_endStatement : I.Steady endStatement endStatement := by
  unfold endStatement
  refine steady_peek_bind fun t u htu => ?_
  rw [I.same_kind htu]
  split
  · exact steady_unexpected htu _
  · split
    · exact steady_discard_advance
    · exact steady_pure ()

theorem steady_statements (rounds index : Nat) :
    I.Steady (statements rounds index) (statements rounds index) := by
  induction rounds generalizing index with
  | zero => exact steady_pure []
  | succ rounds ih =>
    unfold statements
    refine steady_peek_bind fun t u htu => ?_
    rw [I.same_kind htu]
    cases t.kind with
    | eof => exact steady_pure []
    | newline => exact steady_discard_advance.bind fun _ => ih index
    | _ =>
      refine steady_statement.bind fun s => (steady_report _ _).bind fun _ => ?_
      exact steady_endStatement.bind fun _ => (ih (index + 1)).bind fun later => steady_pure _

theorem steady_programIn (rounds : Nat) : I.Steady (programIn rounds) (programIn rounds) := by
  refine (steady_statements rounds 0).bind fun read => ?_
  exact (steady_report _ _).bind fun _ => steady_pure read

end Lockstep

structure InStep extends Lockstep where
  same_rounds {p q} : state p q →
    q.unread.length + q.buffer.length = p.unread.length + p.buffer.length

theorem InStep.alike_parse {I : InStep} {p q : Parser} (h : I.state p q) :
    Alike I.state Eq I.error p.parse q.parse := by
  rw [parse_eq_programIn p, parse_eq_programIn q, I.same_rounds h]
  exact Lockstep.steady_programIn _ h

section
variable {T : Token → Token → Prop} {p q : Parser}

inductive SameItem (T : Token → Token → Prop) : Token.Item → Token.Item → Prop
  | ok {t u} : T t u → SameItem T (.ok t) (.ok u)
  | error (e) : SameItem T (.error e) (.error e)

inductive SameError (T : Token → Token → Prop) : Error → Error → Prop
  | refl (e) : SameError T e e
  | unexpected {t u} (expected) : T t u →
    SameError T (t.unexpected expected) (u.unexpected expected)

/-- The place of the end of file that is made up when the stream has run dry. -/
def endAt (p : Parser) : Position :=
  p.unread.foldl (fun pos item => match item with | .ok t => t.finish | .error _ => pos) p.finish

/-- The streams correspond item by item, up to the ends of file made up after them. -/
structure Matched (T : Token → Token → Prop) (p q : Parser) : Prop where
  pending : List.Forall₂ (SameItem T) p.pending q.pending
  end_of_file : T ⟨.eof, "", p.endAt⟩ ⟨.eof, "", q.endAt⟩

theorem keeps_endAt_pull (pos : Position) :
    Keeps (fun p => p.endAt = pos) (fun _ => True) pull := by
  rintro p rfl
  refine ⟨?_, fun _ _ => trivial⟩
  unfold pull
  rw [run_get_bind]
  rcases hu : p.unread with _ | ⟨e | t, unread⟩
  · rfl
  · change endAt { p with unread := unread } = _
    rw [endAt, endAt, hu, List.foldl_cons]
  · change endAt { p with unread := unread, finish := t.finish, events := _ } = _
    rw [endAt, endAt, hu, List.foldl_cons]

theorem keeps_endAt_buffer (pos : Position) (buffer : List Token) :
    Keeps (fun p => p.endAt = pos) (fun _ => True) (modify fun p => { p with buffer }) := by
  rintro p rfl
  exact ⟨rfl, fun _ _ => trivial⟩

theorem endAt_peek (p : Parser) : (p.run peek).2.endAt = p.endAt :=
  (keeps_peek_of (keeps_endAt_pull _) (keeps_endAt_buffer _) p rfl).1

theorem endAt_peekSecond (p : Parser) : (p.run peekSecond).2.endAt = p.endAt :=
  (keeps_peekSecond_of (keeps_endAt_pull _) (keeps_endAt_buffer _) p rfl).1

theorem endAt_advance (p : Parser) : (p.run advance).2.endAt = p.endAt :=
  (keeps_advance_of (keeps_endAt_pull _) (keeps_endAt_buffer _) p rfl).1

theorem finish_eq_endAt (h : p.pending = []) : p.finish = p.endAt := by
  have hunread : p.unread = [] := (List.append_eq_nil_iff.mp h).2
  rw [endAt, hunread, List.foldl_nil]

theorem Matched.same_front (h : Matched T p q) : SameItem T p.front q.front := by
  have hpending := h.pending
  unfold front
  rcases hp : p.pending with _ | ⟨item, rest⟩ <;> rcases hq : q.pending with _ | ⟨item', rest'⟩ <;>
    rw [hp, hq] at hpending
  · rw [finish_eq_endAt hp, finish_eq_endAt hq]
    exact .ok h.end_of_file
  · cases hpending
  · cases hpending
  · exact (List.forall₂_cons.mp hpending).1

theorem Matched.tail (h : Matched T p q) :
    List.Forall₂ (SameItem T) p.pending.tail q.pending.tail := by
  have hpending := h.pending
  generalize p.pending = items at hpending
  generalize q.pending = items' at hpending
  cases hpending with
  | nil => exact .nil
  | cons _ hrest => exact hrest

theorem Matched.of_endAt {p' q' : Parser} (h : Matched T p q)
    (hpending : List.Forall₂ (SameItem T) p'.pending q'.pending) (hp : p'.endAt = p.endAt)
    (hq : q'.endAt = q.endAt) : Matched T p' q' :=
  ⟨hpending, by rw [hp, hq]; exact h.end_of_file⟩

theorem Matched.alike_peek (h : Matched T p q) :
    Alike (Matched T) T (SameError T) (p.run peek) (q.run peek) := by
  have hp := endAt_peek p
  have hq := endAt_peek q
  have hfront := h.same_front
  generalize hpf : p.front = item at hfront
  generalize hqf : q.front = item' at hfront
  cases hfront with
  | ok htu =>
    obtain ⟨p', hrun, hp', -⟩ := run_peek_of_ok hpf
    obtain ⟨q', hrun', hq', -⟩ := run_peek_of_ok hqf
    rw [hrun] at hp ⊢
    rw [hrun'] at hq ⊢
    exact .ok htu (h.of_endAt (by rw [hp', hq']; exact .cons (.ok htu) h.tail) hp hq)
  | error e =>
    obtain ⟨p', hrun, hp'⟩ := run_peek_of_error hpf
    obtain ⟨q', hrun', hq'⟩ := run_peek_of_error hqf
    rw [hrun] at hp ⊢
    rw [hrun'] at hq ⊢
    exact .error (.refl e) (h.of_endAt (by rw [hp', hq']; exact h.tail) hp hq)

theorem Matched.alike_advance (h : Matched T p q) :
    Alike (Matched T) T (SameError T) (p.run advance) (q.run advance) := by
  have hp := endAt_advance p
  have hq := endAt_advance q
  obtain ⟨p', hrun, hp'⟩ := p.run_advance
  obtain ⟨q', hrun', hq'⟩ := q.run_advance
  rw [hrun] at hp ⊢
  rw [hrun'] at hq ⊢
  have hmatched : Matched T p' q' := h.of_endAt (by rw [hp', hq']; exact h.tail) hp hq
  have hfront := h.same_front
  generalize p.front = item at hfront
  generalize q.front = item' at hfront
  cases hfront with
  | ok htu => exact .ok htu hmatched
  | error e => exact .error (.refl e) hmatched

theorem run_peekSecond_of_singleton {t : Token} (h : p.pending = [.ok t]) :
    ∃ q, p.run peekSecond = (.ok ⟨.eof, "", p.endAt⟩, q) ∧
      q.pending = [.ok t, .ok ⟨.eof, "", p.endAt⟩] := by
  have hend := endAt_peek p
  obtain ⟨q, hrun, hq, buffer, hbuffer⟩ := run_peek_of_ok (front_of_pending h)
  rw [hrun] at hend
  rw [h, List.tail_cons, pending_of_buffer_cons hbuffer] at hq
  obtain ⟨hmap, hunread⟩ := List.append_eq_nil_iff.mp (List.cons.inj hq).2
  have hnil : buffer = [] := List.map_eq_nil_iff.mp hmap
  obtain ⟨r, hpull, hrbuffer, hrunread⟩ := q.run_pull
  rw [hunread, List.headD_nil] at hpull
  rw [hunread, List.tail_nil] at hrunread
  have hfinish : q.finish = p.endAt := by
    rw [← hend]
    change q.finish = q.endAt
    rw [endAt, hunread, List.foldl_nil]
  rw [hfinish] at hpull
  refine ⟨{ r with buffer := [t, ⟨.eof, "", p.endAt⟩] }, ?_, ?_⟩
  · unfold peekSecond
    rw [run_bind_of_ok hrun, run_get_bind, hbuffer, hnil]
    exact run_bind_of_ok hpull
  · change [t, ⟨.eof, "", p.endAt⟩].map Except.ok ++ r.unread = _
    rw [hrunread]
    rfl

theorem Matched.alike_peekSecond {t : Token} {rest : List Token.Item} (h : Matched T p q)
    (hp : p.pending = .ok t :: rest) :
    Alike (Matched T) T (SameError T) (p.run peekSecond) (q.run peekSecond) := by
  have hpend := endAt_peekSecond p
  have hqend := endAt_peekSecond q
  have hpending := h.pending
  rw [hp] at hpending
  generalize hq : q.pending = items at hpending
  cases hpending with
  | cons hfirst hrest =>
    cases hfirst with
    | ok htu =>
      cases hrest with
      | nil =>
        obtain ⟨p', hrun, hp'⟩ := run_peekSecond_of_singleton hp
        obtain ⟨q', hrun', hq'⟩ := run_peekSecond_of_singleton hq
        rw [hrun] at hpend ⊢
        rw [hrun'] at hqend ⊢
        refine .ok h.end_of_file (h.of_endAt ?_ hpend hqend)
        rw [hp', hq']
        exact .cons (.ok htu) (.cons (.ok h.end_of_file) .nil)
      | cons hsecond hrest =>
        obtain ⟨_, p', hrun, hp'⟩ := run_peekSecond hp
        obtain ⟨_, q', hrun', hq'⟩ := run_peekSecond hq
        rw [hrun] at hpend ⊢
        rw [hrun'] at hqend ⊢
        cases hsecond with
        | ok htu' =>
          refine .ok htu' (h.of_endAt ?_ hpend hqend)
          rw [hp', hq']
          exact .cons (.ok htu) (.cons (.ok htu') hrest)
        | error e =>
          refine .error (.refl e) (h.of_endAt ?_ hpend hqend)
          rw [hp', hq']
          exact .cons (.ok htu) hrest

theorem Matched.same_rounds (h : Matched T p q) :
    q.unread.length + q.buffer.length = p.unread.length + p.buffer.length := by
  have hlength := h.pending.length_eq
  simp only [Parser.pending, List.length_append, List.length_map] at hlength
  omega

def matched (T : Token → Token → Prop) (hkind : ∀ {t u}, T t u → u.kind = t.kind) : InStep where
  state := Matched T
  token := T
  error := SameError T
  same_kind := hkind
  unexpected h expected := .unexpected expected h
  same_rounds h := h.same_rounds
  keep_events h _ _ := ⟨h.pending, h.end_of_file⟩
  alike_peek h := h.alike_peek
  alike_peekSecond h hp := h.alike_peekSecond hp
  alike_advance h := h.alike_advance

end

end LineCalc.Parser
