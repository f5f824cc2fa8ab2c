import LineCalc.Proofs.Execution

/-! Calls on a session. Whatever a call gives back, and whether it succeeds or not, it takes the
session through a stretch of statements that have values and shows nothing but these values. -/

namespace LineCalc

inductive Call where
  | execute (p : Program)
  | executeInto (p : Program) (out : Sink)
  | statement (s : Statement)
  | lines (p : Program)
  | runInto (source : String) (out : Sink)

inductive Answer where
  | values (result : Except EvalError (List Number))
  | value (result : Except EvalError Number)
  | lines (result : Except EvalError (List String))
  | written (result : Except Error Nat) (out out' : Sink)

namespace Session

/-- Serves a call. The last two kinds of call keep a trace of their own, which they drop. -/
def serve (m : Session) : Call → Answer × Session
  | .execute p => (.values (p.execute m).1, (p.execute m).2)
  | .executeInto p out =>
    (.written (p.executeInto m out).1 out (p.executeInto m out).2.2, (p.executeInto m out).2.1)
  | .statement s =>
    match s.exec m with
    | .ok (x, m') => (.value (.ok x), m')
    | .error e => (.value (.error e), m)
  | .lines p => (.lines (p.lines m.store).1, { m with store := (p.lines m.store).2 })
  | .runInto source out =>
    (.written (runInto m.store out source).1 out (runInto m.store out source).2.2,
      { m with store := (runInto m.store out source).2.1 })

def serveAll (m : Session) : List Call → List Answer × Session
  | [] => ([], m)
  | c :: calls => ((m.serve c).1 :: ((m.serve c).2.serveAll calls).1, ((m.serve c).2.serveAll calls).2)

end Session

/-- All that the answer shows are these values, or the first of them, or their lines. -/
inductive Answer.Shows : Answer → List Number → Prop
  | values (values : List Number) : Shows (.values (.ok values)) values
  | noValues (e : EvalError) (values : List Number) : Shows (.values (.error e)) values
  | value (x : Number) : Shows (.value (.ok x)) [x]
  | noValue (e : EvalError) (values : List Number) : Shows (.value (.error e)) values
  | lines (values : List Number) : Shows (.lines (.ok (values.map Number.valueText))) values
  | noLines (e : EvalError) (values : List Number) : Shows (.lines (.error e)) values
  | written (result : Except Error Nat) (out : Sink) (n : Nat) (values : List Number) :
    Shows (.written result out (out.holding ((values.take n).map Number.valueText))) values

namespace Session
variable {m last : Session} {p : Program} {values : List Number}

theorem execute_shows (m : Session) (p : Program) : ∃ done values last, m.Runs done values last ∧
    (p.execute m).2 = last ∧ Answer.Shows (.values (p.execute m).1) values := by
  obtain ⟨done, rest, values, last, stop, rfl, hruns, hends⟩ := m.exists_runs p
  refine ⟨done, values, last, hruns, ?_⟩
  rw [Program.execute_of_runs hruns hends]
  cases stop with
  | none => exact ⟨rfl, .values values⟩
  | some e => exact ⟨rfl, .noValues e values⟩

theorem executeInto_shows (m : Session) (p : Program) (out : Sink) :
    ∃ done values last, m.Runs done values last ∧ (p.executeInto m out).2.1 = last ∧
      Answer.Shows (.written (p.executeInto m out).1 out (p.executeInto m out).2.2) values := by
  obtain ⟨done, rest, values, last, stop, rfl, hruns, hends⟩ := m.exists_runs p
  rcases out.fits_or_full done.length with hfits | ⟨k, hroom, hk⟩
  · refine ⟨done, values, last, hruns, ?_⟩
    rw [Program.executeInto_of_fits hruns hends hfits]
    have hshows := Answer.Shows.written (stop.elim (.ok (done ++ rest).length)
      (.error <| .evaluation ·)) out values.length values
    rw [List.take_length] at hshows
    exact ⟨rfl, hshows⟩
  · obtain ⟨early, htake, hfull⟩ := Program.executeInto_of_full hruns hroom hk rest
    refine ⟨_, _, early, htake, ?_⟩
    rw [hfull]
    have hshows := Answer.Shows.written (.error Sink.closed) out k (values.take (k + 1))
    rw [List.take_take, Nat.min_eq_left (Nat.le_succ k)] at hshows
    exact ⟨rfl, hshows⟩

theorem serve_shows (m : Session) (c : Call) : ∃ done values last, m.Runs done values last ∧
    ((m.serve c).2 = last ∨ (m.serve c).2 = { m with store := last.store }) ∧
    (m.serve c).1.Shows values := by
  cases c with
  | execute p =>
    obtain ⟨done, values, last, hruns, hlast, hshows⟩ := m.execute_shows p
    exact ⟨done, values, last, hruns, .inl hlast, hshows⟩
  | executeInto p out =>
    obtain ⟨done, values, last, hruns, hlast, hshows⟩ := m.executeInto_shows p out
    exact ⟨done, values, last, hruns, .inl hlast, hshows⟩
  | statement s =>
    simp only [serve]
    cases hs : s.exec m with
    | error e => exact ⟨[], [], m, .nil m, .inl rfl, .noValue e []⟩
    | ok result => exact ⟨[s], [result.1], result.2, .cons hs (.nil _), .inl rfl, .value _⟩
  | lines p =>
    obtain ⟨done, values, last, hruns, hlast, hshows⟩ := m.execute_shows p
    simp only [serve, p.lines_eq_execute m, hlast]
    refine ⟨done, values, last, hruns, .inr rfl, ?_⟩
    generalize (p.execute m).1 = result at hshows
    cases hshows with
    | values => exact .lines values
    | noValues e => exact .noLines e values
  | runInto source out =>
    simp only [serve]
    cases hsource : Program.ofSource source with
    | error e =>
      have hshows := Answer.Shows.written (.error e) out 0 []
      rw [List.take_zero, List.map_nil, Sink.holding_nil] at hshows
      rw [runInto, hsource]
      exact ⟨[], [], m, .nil m, .inl rfl, hshows⟩
    | ok p =>
      obtain ⟨done, values, last, hruns, hlast, hshows⟩ := m.executeInto_shows p out
      rw [Program.runInto_of_ok hsource]
      exact ⟨done, values, last, hruns, .inr (by rw [hlast]), hshows⟩

end Session

end LineCalc
