import Mathlib.Data.Finset.Card
import LineCalc.Proofs.Calls

/-! The store is the trace replayed. A statement that has a value sets at most one variable and
makes the same entry in the trace. So whatever calls on a session come one after the other, the
entries they make give the store, and these are the assignments among the statements evaluated. -/

namespace LineCalc

namespace Store

def names (s : Store) : List String := s.bindings.keys

def replay (s : Store) (entries : List (String × Number)) : Store :=
  entries.foldl (fun s entry => s.set entry.1 entry.2) s

theorem mem_names {s : Store} {name : String} : name ∈ s.names ↔ (s.get? name).isSome := by
  rw [names, Std.TreeMap.mem_keys, get?, Std.TreeMap.isSome_getElem?_iff_mem]

theorem size_eq_card_names (s : Store) : s.size = s.names.toFinset.card := by
  have hnodup : s.names.Nodup := Std.TreeMap.nodup_keys
  rw [List.toFinset_card_of_nodup hnodup]
  exact Std.TreeMap.length_keys.symm

theorem replay_append (s : Store) (entries later : List (String × Number)) :
    s.replay (entries ++ later) = (s.replay entries).replay later :=
  List.foldl_append

theorem get?_replay (s : Store) (entries : List (String × Number)) (name : String) :
    (s.replay entries).get? name = (entries.reverse.lookup name).or (s.get? name) := by
  induction entries generalizing s with
  | nil => rfl
  | cons entry entries ih =>
    have hfirst : (s.set entry.1 entry.2).get? name =
        (List.lookup name [entry]).or (s.get? name) := by
      rw [get?_set, List.lookup_cons]
      by_cases hname : entry.1 = name
      · simp [hname]
      · simp [hname, beq_false_of_ne (Ne.symm hname)]
    rw [List.reverse_cons, List.lookup_append, Option.or_assoc, ← hfirst]
    exact ih (s.set entry.1 entry.2)

theorem isSome_lookup_reverse (entries : List (String × Number)) (name : String) :
    (entries.reverse.lookup name).isSome ↔ name ∈ entries.map Prod.fst := by
  rw [List.lookup_isSome_iff, List.mem_map]
  constructor
  · rintro ⟨entry, hentry, hname⟩
    exact ⟨entry, List.mem_reverse.mp hentry, (eq_of_beq hname).symm⟩
  · rintro ⟨entry, hentry, rfl⟩
    exact ⟨entry, List.mem_reverse.mpr hentry, BEq.rfl⟩

theorem get?_replay_of_not_mem {entries : List (String × Number)} {name : String}
    (h : name ∉ entries.map Prod.fst) (s : Store) : (s.replay entries).get? name = s.get? name := by
  rw [← isSome_lookup_reverse, Option.not_isSome_iff_eq_none] at h
  rw [get?_replay, h, Option.none_or]

theorem get?_replay_congr {entries : List (String × Number)} {name : String} {s s' : Store}
    (h : name ∈ entries.map Prod.fst ∨ s.get? name = s'.get? name) :
    (s.replay entries).get? name = (s'.replay entries).get? name := by
  rw [get?_replay, get?_replay]
  rcases h with h | h
  · obtain ⟨x, hx⟩ := Option.isSome_iff_exists.mp ((isSome_lookup_reverse entries name).mpr h)
    rw [hx, Option.some_or, Option.some_or]
  · rw [h]

theorem size_replay (s : Store) (entries : List (String × Number)) :
    (s.replay entries).size = (s.names ++ entries.map Prod.fst).toFinset.card := by
  have hnames : (s.replay entries).names.toFinset =
      (s.names ++ entries.map Prod.fst).toFinset := by
    ext name
    rw [List.mem_toFinset, List.mem_toFinset, List.mem_append, mem_names, mem_names,
      ← isSome_lookup_reverse, get?_replay, Option.isSome_or, Bool.or_eq_true]
    exact or_comm
  rw [size_eq_card_names, hnames]

end Store

namespace Statement

def target? : Statement → Option String
  | assign name _ => some name
  | expr _ => none

def assignment? (s : Statement) (x : Number) : Option (String × Number) := s.target?.map (·, x)

/-- All that a statement does: it evaluates its expression and makes its entry. -/
theorem exec_eq (s : Statement) (m : Session) :
    s.exec m = (s.body.eval m.store).map fun x =>
      (x, ⟨m.store.replay (s.assignment? x).toList, (s.assignment? x).toList ++ m.trace⟩) := by
  cases s with
  | assign name e =>
    simp only [exec, body]
    rcases e.eval m.store with _ | _ <;> rfl
  | expr e =>
    simp only [exec, body]
    rcases e.eval m.store with _ | _ <;> rfl

end Statement

namespace Program

def evaluated (store : Store) : Program → List (Statement × Number)
  | [] => []
  | s :: rest =>
    match s.body.eval store with
    | .error _ => []
    | .ok x => (s, x) :: evaluated (store.replay (s.assignment? x).toList) rest

def assignments (made : List (Statement × Number)) : List (String × Number) :=
  made.filterMap fun r => r.1.assignment? r.2

end Program

namespace Session
open Program
variable {m m' last : Session} {p done rest : Program} {values : List Number}
  {stop : Option EvalError} {s : Statement} {x : Number} {e : EvalError}
  {entries later : List (String × Number)}

theorem eval_of_exec_ok (h : s.exec m = .ok (x, m')) : s.body.eval m.store = .ok x ∧
    m' = ⟨m.store.replay (s.assignment? x).toList, (s.assignment? x).toList ++ m.trace⟩ := by
  rw [s.exec_eq] at h
  cases heval : s.body.eval m.store with
  | error e =>
    rw [heval] at h
    cases h
  | ok y =>
    rw [heval] at h
    cases h
    exact ⟨rfl, rfl⟩

theorem exec_eq_error_iff : s.exec m = .error e ↔ s.body.eval m.store = .error e := by
  rw [s.exec_eq]
  cases s.body.eval m.store <;> simp [Except.map]

structure Replays (m : Session) (entries : List (String × Number)) (last : Session) : Prop where
  store : last.store = m.store.replay entries
  trace : last.trace = entries.reverse ++ m.trace

theorem replays_nil (m : Session) : m.Replays [] m := ⟨rfl, rfl⟩

theorem Replays.trans (h : m.Replays entries m') (h' : m'.Replays later last) :
    m.Replays (entries ++ later) last := by
  refine ⟨?_, ?_⟩
  · rw [h'.store, h.store, Store.replay_append]
  · rw [h'.trace, h.trace, List.reverse_append, List.append_assoc]

theorem replays_of_exec (h : s.exec m = .ok (x, m')) : m.Replays (s.assignment? x).toList m' := by
  obtain ⟨-, rfl⟩ := eval_of_exec_ok h
  refine ⟨rfl, ?_⟩
  cases s.assignment? x <;> rfl

theorem replays_of_runs (h : m.Runs p values last) :
    m.Replays (assignments (p.zip values)) last := by
  induction h with
  | nil m => exact replays_nil m
  | @cons m m' last s rest x values hs _ ih =>
    have hentries : assignments ((s :: rest).zip (x :: values)) =
        (s.assignment? x).toList ++ assignments (rest.zip values) := by
      rw [List.zip_cons_cons, assignments, List.filterMap_cons]
      cases s.assignment? x <;> rfl
    rw [hentries]
    exact (replays_of_exec hs).trans ih

theorem evaluated_of_runs (h : m.Runs done values last) (hends : last.Ends rest stop) :
    (done ++ rest).evaluated m.store = done.zip values := by
  induction h with
  | nil m =>
    cases hends with
    | finished => rfl
    | failed hs =>
      rw [List.nil_append, evaluated, exec_eq_error_iff.mp hs]
      rfl
  | cons hs _ ih =>
    obtain ⟨heval, rfl⟩ := eval_of_exec_ok hs
    rw [List.cons_append, evaluated, heval]
    exact congrArg _ (ih hends)

theorem length_of_runs (h : m.Runs p values last) : values.length = p.length := by
  induction h with
  | nil m => rfl
  | cons _ _ ih => rw [List.length_cons, List.length_cons, ih]

end Session

/-- The part of a run that a sink lets happen. A full sink ends the run behind the statement whose
line it refuses. -/
def Sink.reach {α : Type} (out : Sink) (made : List α) : List α :=
  match out.room with
  | none => made
  | some k => made.take (k + 1)

def Call.isTraced : Call → Bool
  | .execute _ | .executeInto .. | .statement _ => true
  | .lines _ | .runInto .. => false

namespace Session
open Program

def evaluated (m : Session) : Call → List (Statement × Number)
  | .execute p | .lines p => p.evaluated m.store
  | .statement s => Program.evaluated m.store [s]
  | .executeInto p out => out.reach (p.evaluated m.store)
  | .runInto source out =>
    match ofSource source with
    | .error _ => []
    | .ok p => out.reach (p.evaluated m.store)

def evaluatedAll (m : Session) : List Call → List (Statement × Number)
  | [] => []
  | c :: calls => m.evaluated c ++ (m.serve c).2.evaluatedAll calls

theorem execute_runs (m : Session) (p : Program) : ∃ done values,
    m.Runs done values (p.execute m).2 ∧ p.evaluated m.store = done.zip values := by
  obtain ⟨done, rest, values, last, stop, rfl, hruns, hends⟩ := m.exists_runs p
  rw [execute_of_runs hruns hends]
  exact ⟨done, values, hruns, evaluated_of_runs hruns hends⟩

theorem executeInto_runs (m : Session) (p : Program) (out : Sink) : ∃ done values,
    m.Runs done values (p.executeInto m out).2.1 ∧
      out.reach (p.evaluated m.store) = done.zip values := by
  obtain ⟨done, rest, values, last, stop, rfl, hruns, hends⟩ := m.exists_runs p
  have hevaluated := evaluated_of_runs hruns hends
  have hlength := length_of_runs hruns
  rcases out.fits_or_full done.length with hfits | ⟨k, hroom, hk⟩
  · rw [executeInto_of_fits hruns hends hfits]
    refine ⟨done, values, hruns, ?_⟩
    rw [hevaluated, Sink.reach]
    cases hroom : out.room with
    | none => rfl
    | some k =>
      have hk := hfits k hroom
      exact List.take_of_length_le (by rw [List.length_zip]; omega)
  · -- the statement whose line is refused has run
    obtain ⟨early, hearly, hfull⟩ := executeInto_of_full hruns hroom hk rest
    rw [hfull]
    refine ⟨_, _, hearly, ?_⟩
    rw [hevaluated, Sink.reach, hroom]
    exact List.take_zipWith

theorem serve_runs (m : Session) (c : Call) : ∃ done values last, m.Runs done values last ∧
    m.evaluated c = done.zip values ∧ (m.serve c).2.store = last.store ∧
    (c.isTraced → (m.serve c).2 = last) := by
  cases c with
  | execute p =>
    obtain ⟨done, values, hruns, hevaluated⟩ := m.execute_runs p
    exact ⟨done, values, _, hruns, hevaluated, rfl, fun _ => rfl⟩
  | executeInto p out =>
    obtain ⟨done, values, hruns, hevaluated⟩ := m.executeInto_runs p out
    exact ⟨done, values, _, hruns, hevaluated, rfl, fun _ => rfl⟩
  | statement s =>
    simp only [serve, evaluated]
    cases hs : s.exec m with
    | error e =>
      have hends : m.Ends [s] (some e) := .failed hs
      exact ⟨[], [], m, .nil m, evaluated_of_runs (.nil m) hends, rfl, fun _ => rfl⟩
    | ok result =>
      have hruns : m.Runs [s] [result.1] result.2 := .cons hs (.nil _)
      exact ⟨[s], [result.1], _, hruns, evaluated_of_runs hruns .finished, rfl, fun _ => rfl⟩
  | lines p =>
    obtain ⟨done, values, hruns, hevaluated⟩ := m.execute_runs p
    refine ⟨done, values, _, hruns, hevaluated, ?_, by simp [Call.isTraced]⟩
    rw [serve, p.lines_eq_execute m]
  | runInto source out =>
    simp only [serve, evaluated]
    cases hsource : ofSource source with
    | error e =>
      rw [runInto, hsource]
      exact ⟨[], [], m, .nil m, rfl, rfl, fun _ => rfl⟩
    | ok p =>
      obtain ⟨done, values, hruns, hevaluated⟩ := m.executeInto_runs p out
      rw [runInto_of_ok hsource m out]
      exact ⟨done, values, _, hruns, hevaluated, rfl, by simp [Call.isTraced]⟩

theorem serve_replays (m : Session) (c : Call) :
    (m.serve c).2.store = m.store.replay (assignments (m.evaluated c)) ∧
      (c.isTraced → (m.serve c).2.trace = (assignments (m.evaluated c)).reverse ++ m.trace) := by
  obtain ⟨done, values, last, hruns, hevaluated, hstore, hlast⟩ := m.serve_runs c
  have hreplays := replays_of_runs hruns
  rw [hevaluated, hstore]
  exact ⟨hreplays.store, fun hc => by rw [hlast hc, hreplays.trace]⟩

theorem serveAll_replays (m : Session) (calls : List Call) :
    (m.serveAll calls).2.store = m.store.replay (assignments (m.evaluatedAll calls)) ∧
      ((∀ c ∈ calls, c.isTraced) → (m.serveAll calls).2.trace =
        (assignments (m.evaluatedAll calls)).reverse ++ m.trace) := by
  -- the later calls find the session that the first one leaves
  induction calls generalizing m with
  | nil => exact ⟨rfl, fun _ => rfl⟩
  | cons c calls ih =>
    obtain ⟨hstore, htrace⟩ := m.serve_replays c
    obtain ⟨hlater, hlaterTrace⟩ := ih (m.serve c).2
    have hentries : assignments (m.evaluatedAll (c :: calls)) = assignments (m.evaluated c) ++
        assignments ((m.serve c).2.evaluatedAll calls) := List.filterMap_append
    rw [hentries, Store.replay_append, ← hstore, List.reverse_append, List.append_assoc]
    refine ⟨hlater, fun hcalls => ?_⟩
    obtain ⟨hc, hcalls⟩ := List.forall_mem_cons.mp hcalls
    rw [← htrace hc]
    exact hlaterTrace hcalls

/-- The store is the trace replayed. The entries that calls make are the assignments among the
statements that they evaluate without error, in order and behind the earlier ones. A variable has
the value of its last entry, or else the one it had at the start, and the variables with values
are those of the start and of the entries. -/
theorem store_is_trace_replayed (m : Session) (calls : List Call)
    (hcalls : ∀ c ∈ calls, c.isTraced) :
    ∃ added : List (String × Number), (m.serveAll calls).2.trace = added.reverse ++ m.trace ∧
      added = assignments (m.evaluatedAll calls) ∧
      (∀ name, (m.serveAll calls).2.store.get? name =
        (added.reverse.lookup name).or (m.store.get? name)) ∧
      (m.serveAll calls).2.store.size = (m.store.names ++ added.map Prod.fst).toFinset.card := by
  obtain ⟨hstore, htrace⟩ := m.serveAll_replays calls
  refine ⟨_, htrace hcalls, rfl, fun name => ?_, ?_⟩
  · rw [hstore, Store.get?_replay]
  · rw [hstore, Store.size_replay]

/-- The first call fails in evaluation and the second in writing. -/
theorem store_is_trace_replayed_failing_calls :
    let m : Session := ⟨Store.empty.set "x" 2, [("x", 2)]⟩
    let calls : List Call :=
      [.execute [.assign "y" (.var "x"), .assign "y" (.var "z")],
        .executeInto [.assign "x" (.num 3), .assign "x" (.num 4)] ⟨"", some 0⟩,
        .statement (.assign "z" (.unary .neg (.var "x")))]
    (∀ c ∈ calls, c.isTraced) ∧
    assignments (m.evaluatedAll calls) = [("y", 2), ("x", 3), ("z", -3)] ∧
    ∃ added : List (String × Number), (m.serveAll calls).2.trace = added.reverse ++ m.trace ∧
      added = assignments (m.evaluatedAll calls) ∧
      (∀ name, (m.serveAll calls).2.store.get? name =
        (added.reverse.lookup name).or (m.store.get? name)) ∧
      (m.serveAll calls).2.store.size = (m.store.names ++ added.map Prod.fst).toFinset.card := by
  intro m calls
  have hcalls : ∀ c ∈ calls, c.isTraced := by simp [calls, Call.isTraced]
  exact ⟨hcalls, by decide +kernel, store_is_trace_replayed m calls hcalls⟩

end Session
end LineCalc
