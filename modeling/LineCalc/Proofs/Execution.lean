import LineCalc.Run

/-! Every way of running a program goes through the same statements. A stretch of statements that
all have values takes one session to another; a run is the longest such stretch from the start,
cut short where the sink is full. -/

namespace LineCalc

namespace Session
variable {m last : Session} {done rest : Program} {values : List Number} {stop : Option EvalError}

/-- The statements have these values, one after the other, and leave the session `last`. -/
inductive Runs : Session → Program → List Number → Session → Prop
  | nil (m : Session) : Runs m [] [] m
  | cons {m m' last s rest x values} : Statement.exec m s = .ok (x, m') →
    Runs m' rest values last → Runs m (s :: rest) (x :: values) last

/-- A run ends in front of these statements: none is left, or the first of them fails. -/
inductive Ends (last : Session) : Program → Option EvalError → Prop
  | finished : Ends last [] none
  | failed {s rest e} : Statement.exec last s = .error e → Ends last (s :: rest) (some e)

theorem exists_runs (m : Session) (p : Program) :
    ∃ done rest values last stop, p = done ++ rest ∧ m.Runs done values last ∧
      last.Ends rest stop := by
  induction p generalizing m with
  | nil => exact ⟨[], [], [], m, none, rfl, .nil m, .finished⟩
  | cons s p ih =>
    cases hs : s.exec m with
    | error e => exact ⟨[], s :: p, [], m, some e, rfl, .nil m, .failed hs⟩
    | ok result =>
      obtain ⟨done, rest, values, last, stop, rfl, hruns, hends⟩ := ih result.2
      exact ⟨s :: done, rest, result.1 :: values, last, stop, rfl, .cons hs hruns, hends⟩

end Session

def Session.behind (m : Session) (trace : List (String × Number)) : Session :=
  ⟨m.store, m.trace ++ trace⟩

theorem Statement.exec_behind (s : Statement) (m : Session) (trace : List (String × Number)) :
    s.exec (m.behind trace) = (s.exec m).map fun r => (r.1, r.2.behind trace) := by
  cases s with
  | expr e =>
    simp only [exec, Session.behind]
    rcases e.eval m.store with _ | _ <;> rfl
  | assign name e =>
    simp only [exec, Session.behind]
    rcases e.eval m.store with _ | _ <;> rfl

namespace Sink

def holding (out : Sink) (lines : List String) : Sink :=
  ⟨out.written ++ String.join (lines.map (· ++ "\n")), out.room.map (· - lines.length)⟩

theorem holding_nil (out : Sink) : out.holding [] = out := by
  simp [holding]

theorem writeLine_of_fits {out : Sink} (h : ∀ k ∈ out.room, 0 < k) (line : String) :
    out.writeLine line = some (out.holding [line]) := by
  obtain ⟨written, _ | _ | k⟩ := out
  · simp [writeLine, holding, String.append_assoc]
  · exact absurd (h 0 rfl) (Nat.lt_irrefl 0)
  · simp [writeLine, holding, String.append_assoc]

theorem fits_or_full (out : Sink) (n : Nat) :
    (∀ k ∈ out.room, n ≤ k) ∨ ∃ k, out.room = some k ∧ k < n := by
  rcases hroom : out.room with _ | k
  · exact .inl fun k hk => by cases hk
  · rcases Nat.lt_or_ge k n with hk | hk
    · exact .inr ⟨k, rfl, hk⟩
    · exact .inl fun j hj => by cases hj; exact hk

theorem holding_holding (out : Sink) (lines lines' : List String) :
    (out.holding lines).holding lines' = out.holding (lines ++ lines') := by
  simp only [holding, List.map_append, String.join_append, List.length_append, Option.map_map,
    String.append_assoc, Function.comp_def, Nat.sub_sub]

end Sink

namespace Program
variable {m m' last : Session} {done rest : Program} {values : List Number}
  {stop : Option EvalError} {out : Sink} {s : Statement} {x : Number} {e : EvalError}

theorem execute_cons_of_ok (h : s.exec m = .ok (x, m')) (p : Program) :
    execute m (s :: p) = ((p.execute m').1.map (x :: ·), (p.execute m').2) := by
  simp only [execute, attempts, h, List.mapM_cons]
  rcases (attempts m' p).1.mapM Attempt.result with _ | _ <;> rfl

theorem execute_cons_of_error (h : s.exec m = .error e) (p : Program) :
    execute m (s :: p) = (.error e, m) := by
  simp only [execute, attempts, h, List.mapM_cons]
  rfl

theorem executeInto_cons_of_error (h : s.exec m = .error e) (p : Program) :
    executeInto m out (s :: p) = (.error (.evaluation e), m, out) := by
  simp only [executeInto, h]

theorem executeInto_cons_of_fits (h : s.exec m = .ok (x, m')) (hout : ∀ k ∈ out.room, 0 < k)
    (p : Program) :
    executeInto m out (s :: p) =
      ((p.executeInto m' (out.holding [x.valueText])).1.map (· + 1),
        (p.executeInto m' (out.holding [x.valueText])).2) := by
  simp only [executeInto, h, Sink.writeLine_of_fits hout]

theorem executeInto_cons_of_full (h : s.exec m = .ok (x, m')) (hout : out.room = some 0)
    (p : Program) : executeInto m out (s :: p) = (.error Sink.closed, m', out) := by
  simp only [executeInto, h, Sink.writeLine, hout]

theorem execute_of_ends (h : last.Ends rest stop) :
    rest.execute last = (stop.elim (.ok []) .error, last) := by
  cases h with
  | finished => rfl
  | failed hs => exact execute_cons_of_error hs _

theorem execute_of_runs (h : m.Runs done values last) (hends : last.Ends rest stop) :
    (done ++ rest).execute m = (stop.elim (.ok values) .error, last) := by
  induction h with
  | nil m => exact execute_of_ends hends
  | cons hs _ ih =>
    rw [List.cons_append, execute_cons_of_ok hs, ih hends]
    cases stop <;> rfl

theorem fits_holding {k : Nat} {line : String} (hout : ∀ j ∈ out.room, k + 1 ≤ j) :
    ∀ j ∈ (out.holding [line]).room, k ≤ j := by
  intro j hj
  obtain ⟨room, hroom, rfl⟩ := Option.map_eq_some_iff.mp hj
  exact Nat.le_sub_one_of_lt (hout room hroom)

theorem executeInto_of_fits (h : m.Runs done values last) (hends : last.Ends rest stop)
    (hout : ∀ k ∈ out.room, done.length ≤ k) :
    (done ++ rest).executeInto m out =
      (stop.elim (.ok (done ++ rest).length) (.error <| .evaluation ·), last,
        out.holding (values.map Number.valueText)) := by
  induction h generalizing out with
  | nil m =>
    rw [List.nil_append, List.map_nil, Sink.holding_nil]
    cases hends with
    | finished => rfl
    | failed hs => exact executeInto_cons_of_error hs _
  | cons hs _ ih =>
    have hfits : ∀ k ∈ out.room, 0 < k := fun k hk => Nat.zero_lt_of_lt (hout k hk)
    rw [List.cons_append, executeInto_cons_of_fits hs hfits, ih hends (fits_holding hout),
      Sink.holding_holding]
    cases stop <;> rfl

/-- A sink that is full before the run is over lets one more statement run. -/
theorem executeInto_of_full {k : Nat} (h : m.Runs done values last) (hout : out.room = some k)
    (hk : k < done.length) (rest : Program) :
    ∃ early : Session, m.Runs (done.take (k + 1)) (values.take (k + 1)) early ∧
      (done ++ rest).executeInto m out = (.error Sink.closed, early,
        out.holding ((values.take k).map Number.valueText)) := by
  induction h generalizing out k with
  | nil m => exact absurd hk (Nat.not_lt_zero k)
  | @cons m m' last s later x values hs _ ih =>
    cases k with
    | zero =>
      refine ⟨m', .cons hs (.nil m'), ?_⟩
      rw [List.cons_append, executeInto_cons_of_full hs hout, List.take_zero, List.map_nil,
        Sink.holding_nil]
    | succ k =>
      have hroom : (out.holding [x.valueText]).room = some k := by
        rw [Sink.holding, hout]
        rfl
      have hfits : ∀ j ∈ out.room, 0 < j := by
        intro j hj
        cases hout.symm.trans hj
        exact Nat.succ_pos k
      obtain ⟨early, hruns, hlater⟩ := ih hroom (Nat.lt_of_succ_lt_succ hk)
      refine ⟨early, .cons hs hruns, ?_⟩
      rw [List.cons_append, executeInto_cons_of_fits hs hfits, hlater, Sink.holding_holding]
      rfl

theorem execute_behind (p : Program) (m : Session) (trace : List (String × Number)) :
    p.execute (m.behind trace) = ((p.execute m).1, (p.execute m).2.behind trace) := by
  induction p generalizing m with
  | nil => rfl
  | cons s p ih =>
    have hexec := s.exec_behind m trace
    cases hs : s.exec m with
    | error e =>
      rw [hs] at hexec
      rw [execute_cons_of_error hexec, execute_cons_of_error hs]
    | ok result =>
      rw [hs] at hexec
      rw [execute_cons_of_ok hexec, execute_cons_of_ok hs, ih]

theorem executeInto_behind (p : Program) (m : Session) (trace : List (String × Number))
    (out : Sink) : p.executeInto (m.behind trace) out =
      ((p.executeInto m out).1, (p.executeInto m out).2.1.behind trace,
        (p.executeInto m out).2.2) := by
  induction p generalizing m out with
  | nil => rfl
  | cons s p ih =>
    have hexec := s.exec_behind m trace
    cases hs : s.exec m with
    | error e =>
      rw [hs] at hexec
      rw [executeInto_cons_of_error hexec, executeInto_cons_of_error hs]
    | ok result =>
      rw [hs] at hexec
      by_cases hout : out.room = some 0
      · rw [executeInto_cons_of_full hexec hout, executeInto_cons_of_full hs hout]
      · have hfits : ∀ k ∈ out.room, 0 < k := by
          rintro (_ | k) hk
          · exact absurd hk hout
          · exact Nat.succ_pos k
        rw [executeInto_cons_of_fits hexec hfits, executeInto_cons_of_fits hs hfits, ih]

theorem lines_eq_execute (p : Program) (m : Session) :
    p.lines m.store =
      ((p.execute m).1.map (·.map Number.valueText), (p.execute m).2.store) := by
  have hbehind := p.execute_behind { store := m.store } m.trace
  change p.execute m = _ at hbehind
  rw [hbehind]
  rfl

theorem runInto_of_ok {source : String} {p : Program} (h : ofSource source = .ok p) (m : Session)
    (out : Sink) : runInto m.store out source =
      ((p.executeInto m out).1, (p.executeInto m out).2.1.store, (p.executeInto m out).2.2) := by
  have hbehind := p.executeInto_behind { store := m.store } m.trace out
  change p.executeInto m out = _ at hbehind
  rw [runInto, h, hbehind]
  rfl

theorem run_of_ok {source : String} {p : Program} (h : ofSource source = .ok p) :
    run source = (p.lines .empty).1.mapError .evaluation := by
  rw [run, h]
  rfl

theorem run_eq_ok_iff {source : String} {lines : List String} : run source = .ok lines ↔
    ∃ p values last, ofSource source = .ok p ∧ Session.Runs {} p values last ∧
      lines = values.map Number.valueText := by
  constructor
  · intro h
    cases hsource : ofSource source with
    | error e =>
      rw [run, hsource] at h
      cases h
    | ok p =>
      obtain ⟨done, rest, values, last, stop, rfl, hruns, hends⟩ := Session.exists_runs {} p
      rw [run_of_ok hsource, Program.lines, execute_of_runs hruns hends] at h
      cases hends with
      | finished =>
        rw [List.append_nil]
        exact ⟨done, values, last, rfl, hruns, (Except.ok.inj h).symm⟩
      | failed _ => cases h
  · rintro ⟨p, values, last, hsource, hruns, rfl⟩
    have hexecute := execute_of_runs hruns .finished
    rw [List.append_nil] at hexecute
    rw [run_of_ok hsource, Program.lines, hexecute]
    rfl

/-- All ways of running a program agree. With `done` the leading statements that have values, the
run takes the session through exactly these, unless the sink is full earlier; then it takes the
session through one statement more than there are lines. -/
theorem runs_agree (p : Program) (m : Session) (out : Sink) :
    ∃ done rest values last stop, p = done ++ rest ∧ m.Runs done values last ∧
      last.Ends rest stop ∧
      p.execute m = (stop.elim (.ok values) .error, last) ∧
      ((∀ k ∈ out.room, done.length ≤ k) → p.executeInto m out =
        (stop.elim (.ok p.length) (.error <| .evaluation ·), last,
          out.holding (values.map Number.valueText))) ∧
      (∀ k ∈ out.room, k < done.length → ∃ early : Session,
        m.Runs (p.take (k + 1)) (values.take (k + 1)) early ∧
        p.executeInto m out = (.error Sink.closed, early,
          out.holding ((values.take k).map Number.valueText))) ∧
      p.lines m.store = (stop.elim (.ok (values.map Number.valueText)) .error, last.store) ∧
      (∀ source, ofSource source = .ok p →
        (m.store = .empty → run source =
          stop.elim (.ok (values.map Number.valueText)) (.error <| .evaluation ·)) ∧
        runInto m.store out source = ((p.executeInto m out).1, (p.executeInto m out).2.1.store,
          (p.executeInto m out).2.2)) ∧
      ∀ source e, ofSource source = .error e →
        run source = .error e ∧ runInto m.store out source = (.error e, m.store, out) := by
  obtain ⟨done, rest, values, last, stop, rfl, hruns, hends⟩ := m.exists_runs p
  have hexecute := execute_of_runs hruns hends
  have hlines := lines_eq_execute (done ++ rest) m
  rw [hexecute] at hlines
  have hlines : (done ++ rest).lines m.store =
      (stop.elim (.ok (values.map Number.valueText)) .error, last.store) := by
    rw [hlines]
    cases stop <;> rfl
  refine ⟨done, rest, values, last, stop, rfl, hruns, hends, hexecute,
    executeInto_of_fits hruns hends, fun k hroom hk => ?_, hlines, fun source hsource => ?_,
    fun source e hsource => ?_⟩
  · obtain ⟨early, htake, hfull⟩ := executeInto_of_full hruns hroom hk rest
    rw [← List.take_append_of_le_length hk] at htake
    exact ⟨early, htake, hfull⟩
  · refine ⟨fun hempty => ?_, runInto_of_ok hsource m out⟩
    rw [hempty] at hlines
    rw [run, hsource]
    change Except.mapError Error.evaluation ((done ++ rest).lines .empty).1 = _
    rw [hlines]
    cases stop <;> rfl
  · rw [run, runInto, hsource]
    exact ⟨rfl, rfl⟩

theorem runs_agree_division_by_zero :
    let p : Program := [.assign "x" (.num 2), .expr (.binary .div (.var "x") (.num 0))]
    let e : Error := .unexpected "number, identifier, `-` or `(`" "`=`" ⟨1, 5⟩
    (∃ done rest values last stop, p = done ++ rest ∧ Session.Runs {} done values last ∧
      last.Ends rest stop ∧ 0 < done.length ∧
      (∃ early : Session, Session.Runs {} (p.take 1) (values.take 1) early ∧
        p.executeInto {} ⟨"", some 0⟩ = (.error Sink.closed, early, ⟨"", some 0⟩)) ∧
      ofSource "x = 2\nx / 0" = .ok p ∧
      run "x = 2\nx / 0" =
        stop.elim (.ok (values.map Number.valueText)) (.error <| .evaluation ·) ∧
      ofSource "x = = 2" = .error e ∧ run "x = = 2" = .error e) ∧
    ∃ (values : List Number) (last : Session) (stop : Option EvalError),
      p.executeInto {} ⟨"", none⟩ = (stop.elim (.ok 2) (.error <| .evaluation ·), last,
        Sink.holding ⟨"", none⟩ (values.map Number.valueText)) := by
  intro p e
  have hsource : ofSource "x = 2\nx / 0" = .ok p := by decide +kernel
  have hbad : ofSource "x = = 2" = .error e := by decide +kernel
  refine ⟨?_, ?_⟩
  · obtain ⟨done, rest, values, last, stop, hp, hruns, hends, -, -, hfull, -, hok, herror⟩ :=
      runs_agree p {} ⟨"", some 0⟩
    have hpos : 0 < done.length := by
      cases done with
      | cons s done => exact Nat.succ_pos _
      | nil =>
        cases hruns
        rw [List.nil_append] at hp
        rw [← hp] at hends
        change Session.Ends {} (.assign "x" (.num 2) :: _) stop at hends
        cases hends with
        | failed hs => cases hs
    exact ⟨done, rest, values, last, stop, hp, hruns, hends, hpos, hfull 0 rfl hpos, hsource,
      (hok _ hsource).1 rfl, hbad, (herror _ _ hbad).1⟩
  · obtain ⟨done, rest, values, last, stop, -, -, -, -, hfits, -⟩ := runs_agree p {} ⟨"", none⟩
    exact ⟨values, last, stop, hfits fun k hk => by cases hk⟩

end Program

end LineCalc
