import LineCalc.Proofs.Replay

/-! The variables of a program. A run fails for want of a variable exactly where one is used before
it is assigned. It depends on the start for these variables only: where two stores agree on them,
the runs do. -/

namespace LineCalc

namespace Expr
variable {s s' : Store} {e : Expr} {x : Number} {name : String}

def names : Expr → List String
  | num _ => []
  | var name => [name]
  | unary _ e => e.names
  | binary _ l r => l.names ++ r.names

/-- Evaluation is strict: an expression with a value has values for all its variables. -/
theorem contains_of_eval (h : e.eval s = .ok x) : ∀ name ∈ e.names, s.contains name := by
  induction e generalizing x with
  | num y => simp [names]
  | var name =>
    intro other hother
    rw [List.mem_singleton.mp hother, Store.contains_eq_isSome_get?]
    simp only [eval, Store.read] at h
    split at h
    · rename_i y hy
      rw [hy]
      rfl
    · cases h
  | unary op e ih =>
    cases op
    obtain ⟨y, hy, -⟩ := except_bind_eq_ok h
    exact ih hy
  | binary op l r ihl ihr =>
    obtain ⟨y, hy, h⟩ := except_bind_eq_ok h
    obtain ⟨z, hz, -⟩ := except_bind_eq_ok h
    exact List.forall_mem_append.mpr ⟨ihl hy, ihr hz⟩

theorem apply_checked_ne_undefined (op : BinaryOp) (y z : Number) (name : String) :
    (op.apply y z >>= Number.checked) ≠ .error (.undefinedVariable name) := by
  intro h
  rcases except_bind_eq_error h with h | ⟨w, -, h⟩
  · cases op with
    | div =>
      simp only [BinaryOp.apply, Number.divide] at h
      split at h <;> cases h
    | _ => cases h
  · unfold Number.checked at h
    split at h <;> cases h

theorem undefined_of_eval (h : e.eval s = .error (.undefinedVariable name)) :
    name ∈ e.names ∧ ¬ s.contains name := by
  induction e with
  | num y =>
    simp only [eval, Number.checked] at h
    split at h <;> cases h
  | var other =>
    simp only [eval, Store.read] at h
    split at h
    · cases h
    · rename_i hnone
      cases h
      rw [Store.contains_eq_isSome_get?, hnone]
      exact ⟨List.mem_singleton.mpr rfl, by simp⟩
  | unary op e ih =>
    cases op
    rcases except_bind_eq_error h with h | ⟨y, -, h⟩
    · exact ih h
    · cases h -- negation itself does not fail
  | binary op l r ihl ihr =>
    rcases except_bind_eq_error h with h | ⟨y, -, h⟩
    · exact ⟨List.mem_append_left _ (ihl h).1, (ihl h).2⟩
    rcases except_bind_eq_error h with h | ⟨z, -, h⟩
    · exact ⟨List.mem_append_right _ (ihr h).1, (ihr h).2⟩
    · exact absurd h (apply_checked_ne_undefined op y z name)

theorem eval_congr (h : ∀ name ∈ e.names, s.get? name = s'.get? name) : e.eval s = e.eval s' := by
  induction e with
  | num y => rfl
  | var name =>
    have hname := h name (List.mem_singleton.mpr rfl)
    simp only [eval, Store.read, hname]
  | unary op e ih =>
    cases op
    simp only [eval, ih h]
  | binary op l r ihl ihr =>
    obtain ⟨hl, hr⟩ := List.forall_mem_append.mp h
    simp only [eval, ihl hl, ihr hr]

end Expr

namespace Program

def targets (p : Program) : List String := p.filterMap Statement.target?

/-- Every variable that a statement uses is in the store or assigned by an earlier statement. -/
def AssignsBeforeUse (store : Store) (p : Program) : Prop :=
  ∀ done s rest, p = done ++ s :: rest →
    ∀ name ∈ s.body.names, store.contains name ∨ name ∈ targets done

theorem mem_targets_cons {s : Statement} {p : Program} {name : String} :
    name ∈ targets (s :: p) ↔ s.target? = some name ∨ name ∈ targets p := by
  simp [targets, List.mem_filterMap]

theorem map_fst_assignments (made : List (Statement × Number)) :
    (assignments made).map Prod.fst = targets (made.map Prod.fst) := by
  have hname (r : Statement × Number) : (r.1.assignment? r.2).map Prod.fst = r.1.target? := by
    rw [Statement.assignment?, Option.map_map]
    exact Option.map_id' ..
  rw [assignments, List.map_filterMap, targets, List.filterMap_map]
  exact congrArg (List.filterMap · made) (funext hname)

end Program

namespace Session
open Program
variable {m last : Session} {done rest : Program} {values : List Number} {name : String}

theorem targets_of_runs (h : m.Runs done values last) :
    (assignments (done.zip values)).map Prod.fst = targets done := by
  rw [map_fst_assignments, List.map_fst_zip (Nat.le_of_eq (length_of_runs h).symm)]

theorem contains_of_runs (h : m.Runs done values last) :
    last.store.contains name ↔ m.store.contains name ∨ name ∈ targets done := by
  rw [Store.contains_eq_isSome_get?, Store.contains_eq_isSome_get?, (replays_of_runs h).store,
    Store.get?_replay, Option.isSome_or, Bool.or_eq_true, Store.isSome_lookup_reverse,
    targets_of_runs h]
  exact or_comm

theorem Runs.split (h : m.Runs (done ++ rest) values last) : ∃ first later mid,
    values = first ++ later ∧ m.Runs done first mid ∧ mid.Runs rest later last := by
  induction done generalizing m values with
  | nil => exact ⟨[], values, m, rfl, .nil m, h⟩
  | cons s done ih =>
    cases h with
    | cons hs hlater =>
      obtain ⟨first, later, mid, rfl, hfirst, hrest⟩ := ih hlater
      exact ⟨_ :: first, later, mid, rfl, .cons hs hfirst, hrest⟩

theorem assignsBeforeUse_of_runs (h : m.Runs done values last) :
    AssignsBeforeUse m.store done := by
  rintro before s after rfl name hname
  obtain ⟨first, later, mid, -, hbefore, hrest⟩ := h.split
  cases hrest with
  | cons hs _ =>
    have hvalue := (eval_of_exec_ok hs).1
    exact (contains_of_runs hbefore).mp (s.body.contains_of_eval hvalue name hname)

end Session

namespace Program
open Session

theorem undefined_of_execute {p : Program} {m : Session} {name : String}
    (h : (p.execute m).1 = .error (.undefinedVariable name)) :
    ∃ done s rest values last, p = done ++ s :: rest ∧ m.Runs done values last ∧
      s.exec last = .error (.undefinedVariable name) ∧ name ∈ s.body.names ∧
      ¬ m.store.contains name ∧ name ∉ targets done := by
  obtain ⟨done, rest, values, last, stop, rfl, hruns, hends⟩ := m.exists_runs p
  rw [execute_of_runs hruns hends] at h
  cases hends with
  | finished => cases h
  | @failed s rest e hs =>
    cases h
    -- unbound when the statement fails, hence at the start and not assigned since
    obtain ⟨hname, hunbound⟩ := Expr.undefined_of_eval (exec_eq_error_iff.mp hs)
    rw [contains_of_runs hruns, not_or] at hunbound
    exact ⟨done, s, rest, values, last, rfl, hruns, hs, hname, hunbound⟩

/-- Undefined variables are exactly those used before they are assigned. Where all statements have
values there are none. Where a run complains of one, it is used by the first statement that fails,
and neither the store nor an earlier statement has a value for it. -/
theorem undefined_before_assigned (p : Program) (m : Session) :
    (∀ values, (p.execute m).1 = .ok values → AssignsBeforeUse m.store p) ∧
    (∀ name, (p.execute m).1 = .error (.undefinedVariable name) →
      ∃ done s rest values last, p = done ++ s :: rest ∧ m.Runs done values last ∧
        s.exec last = .error (.undefinedVariable name) ∧ name ∈ s.body.names ∧
        ¬ m.store.contains name ∧ name ∉ targets done) ∧
    (AssignsBeforeUse m.store p →
      ∀ name, (p.execute m).1 ≠ .error (.undefinedVariable name)) := by
  refine ⟨fun values hok => ?_, fun name => undefined_of_execute, fun hassigns name herror => ?_⟩
  · obtain ⟨done, rest, values', last, stop, rfl, hruns, hends⟩ := m.exists_runs p
    rw [execute_of_runs hruns hends] at hok
    cases hends with
    | finished =>
      rw [List.append_nil]
      exact assignsBeforeUse_of_runs hruns
    | failed hs => cases hok
  · obtain ⟨done, s, rest, _, _, rfl, -, -, hname, hunbound, htargets⟩ :=
      undefined_of_execute herror
    rcases hassigns done s rest rfl name hname with hbound | hassigned
    · exact hunbound hbound
    · exact htargets hassigned

/-- In the second program the statement that uses `y` assigns it too. -/
theorem undefined_before_assigned_own_target :
    let m : Session := ⟨Store.empty.set "x" 2, []⟩
    let good : Program := [.assign "y" (.var "x"), .assign "x" (.var "y")]
    let bad : Program := [.assign "x" (.num 3), .assign "y" (.binary .add (.var "y") (.var "x"))]
    ((good.execute m).1 = .ok [2, 2] ∧ AssignsBeforeUse m.store good ∧
      ∀ name, (good.execute m).1 ≠ .error (.undefinedVariable name)) ∧
    (bad.execute m).1 = .error (.undefinedVariable "y") ∧
      ∃ done s rest values last, bad = done ++ s :: rest ∧ m.Runs done values last ∧
        s.exec last = .error (.undefinedVariable "y") ∧ "y" ∈ s.body.names ∧
        ¬ m.store.contains "y" ∧ "y" ∉ targets done := by
  intro m good bad
  have hgood : (good.execute m).1 = .ok [2, 2] := by decide +kernel
  have hbad : (bad.execute m).1 = .error (.undefinedVariable "y") := by decide +kernel
  obtain ⟨hok, -, hassigns⟩ := undefined_before_assigned good m
  have huse := hok _ hgood
  exact ⟨⟨hgood, huse, hassigns huse⟩, hbad, (undefined_before_assigned bad m).2.1 "y" hbad⟩

/-- The variable is used by a statement and assigned by none before it. -/
def Reads (p : Program) (name : String) : Prop :=
  ∃ done s rest, p = done ++ s :: rest ∧ name ∈ s.body.names ∧ name ∉ targets done

theorem not_reads_nil (name : String) : ¬ Reads [] name := by
  rintro ⟨done, s, rest, heq, -⟩
  simp at heq

theorem reads_cons {s : Statement} {p : Program} {name : String} : Reads (s :: p) name ↔
    name ∈ s.body.names ∨ s.target? ≠ some name ∧ Reads p name := by
  constructor
  · rintro ⟨done, t, rest, heq, hname, htargets⟩
    cases done with
    | nil =>
      obtain ⟨rfl, -⟩ := List.cons.inj heq
      exact .inl hname
    | cons u done =>
      obtain ⟨rfl, rfl⟩ := List.cons.inj heq
      rw [mem_targets_cons, not_or] at htargets
      exact .inr ⟨htargets.1, done, t, rest, rfl, hname, htargets.2⟩
  · rintro (hname | ⟨hs, done, t, rest, rfl, hname, htargets⟩)
    · exact ⟨[], s, p, rfl, hname, by simp [targets]⟩
    · refine ⟨s :: done, t, rest, rfl, hname, ?_⟩
      rw [mem_targets_cons, not_or]
      exact ⟨hs, htargets⟩

end Program

namespace Session
open Program
variable {m m' last last' : Session} {p done rest : Program} {values : List Number}
  {stop : Option EvalError} {s : Statement} {x : Number}

def AgreeOn (p : Program) (m m' : Session) : Prop :=
  ∀ name, p.Reads name → m.store.get? name = m'.store.get? name

theorem AgreeOn.eval_eq (h : AgreeOn (s :: p) m m') :
    s.body.eval m.store = s.body.eval m'.store :=
  Expr.eval_congr fun name hname => h name (reads_cons.mpr (.inl hname))

theorem AgreeOn.exec (h : AgreeOn (s :: p) m m') {n : Session} (hs : s.exec m = .ok (x, n)) :
    ∃ n', s.exec m' = .ok (x, n') ∧ AgreeOn p n n' := by
  obtain ⟨heval, rfl⟩ := eval_of_exec_ok hs
  rw [h.eval_eq] at heval
  refine ⟨_, by rw [s.exec_eq, heval]; rfl, fun name hname => Store.get?_replay_congr ?_⟩
  -- what the statement assigns gets the same value on both sides, the rest stays as it was
  by_cases htarget : s.target? = some name
  · left
    simp [Statement.assignment?, htarget]
  · exact .inr (h name (reads_cons.mpr (.inr ⟨htarget, hname⟩)))

theorem AgreeOn.runs (h : AgreeOn (done ++ rest) m m') (hruns : m.Runs done values last) :
    ∃ last', m'.Runs done values last' ∧ AgreeOn rest last last' := by
  induction hruns generalizing m' with
  | nil m => exact ⟨m', .nil m', h⟩
  | cons hs _ ih =>
    obtain ⟨n', hs', hlater⟩ := h.exec hs
    obtain ⟨last', hruns', hrest⟩ := ih hlater
    exact ⟨last', .cons hs' hruns', hrest⟩

theorem AgreeOn.ends (h : AgreeOn rest last last') (hends : last.Ends rest stop) :
    last'.Ends rest stop := by
  cases hends with
  | finished => exact .finished
  | failed hs =>
    rw [exec_eq_error_iff, h.eval_eq] at hs
    exact .failed (exec_eq_error_iff.mpr hs)

theorem Runs.answers_eq (hruns : m.Runs done values last) (hruns' : m'.Runs done values last')
    (hends : last.Ends rest stop) (hends' : last'.Ends rest stop) (out : Sink) :
    ∀ c ∈ [Call.execute (done ++ rest), Call.executeInto (done ++ rest) out],
      (m.serve c).1 = (m'.serve c).1 ∧ m.evaluated c = m'.evaluated c := by
  have hevaluated : (done ++ rest).evaluated m.store = (done ++ rest).evaluated m'.store := by
    rw [evaluated_of_runs hruns hends, evaluated_of_runs hruns' hends']
  have hvalues : (m.serve (.execute (done ++ rest))).1 = (m'.serve (.execute (done ++ rest))).1 := by
    simp only [serve, execute_of_runs hruns hends, execute_of_runs hruns' hends']
  have hwritten : (m.serve (.executeInto (done ++ rest) out)).1 =
      (m'.serve (.executeInto (done ++ rest) out)).1 := by
    rcases out.fits_or_full done.length with hfits | ⟨k, hroom, hk⟩
    · simp only [serve, executeInto_of_fits hruns hends hfits,
        executeInto_of_fits hruns' hends' hfits]
    · obtain ⟨_, -, hfull⟩ := executeInto_of_full hruns hroom hk rest
      obtain ⟨_, -, hfull'⟩ := executeInto_of_full hruns' hroom hk rest
      simp only [serve, hfull, hfull']
  intro c hc
  simp only [List.mem_cons, List.not_mem_nil, or_false] at hc
  rcases hc with rfl | rfl
  · exact ⟨hvalues, hevaluated⟩
  · exact ⟨hwritten, congrArg out.reach hevaluated⟩

/-- A run depends on the variables that it reads and on no others. From stores that agree on them
it returns and writes the same and makes the same entries. Afterwards the stores agree on these
variables and on those assigned; every other variable keeps its own value in each. -/
theorem run_depends_on_reads (p : Program) (m m' : Session) (out : Sink)
    (h : ∀ name, p.Reads name → m.store.get? name = m'.store.get? name) :
    ∀ c ∈ [Call.execute p, Call.executeInto p out],
      (m.serve c).1 = (m'.serve c).1 ∧
      (∃ added, (m.serve c).2.trace = added ++ m.trace ∧
        (m'.serve c).2.trace = added ++ m'.trace) ∧
      ∃ done, m.evaluated c = done ∧ m'.evaluated c = done ∧
        (∀ name, p.Reads name ∨ name ∈ targets (done.map Prod.fst) →
          (m.serve c).2.store.get? name = (m'.serve c).2.store.get? name) ∧
        ∀ name ∉ targets (done.map Prod.fst),
          (m.serve c).2.store.get? name = m.store.get? name ∧
          (m'.serve c).2.store.get? name = m'.store.get? name := by
  intro c hc
  have htraced : c.isTraced := by
    simp only [List.mem_cons, List.not_mem_nil, or_false] at hc
    rcases hc with rfl | rfl <;> rfl
  obtain ⟨hanswer, hevaluated⟩ : (m.serve c).1 = (m'.serve c).1 ∧
      m.evaluated c = m'.evaluated c := by
    obtain ⟨done, rest, values, last, stop, rfl, hruns, hends⟩ := m.exists_runs p
    have hagree : AgreeOn (done ++ rest) m m' := h
    obtain ⟨last', hruns', hrest⟩ := hagree.runs hruns
    exact hruns.answers_eq hruns' hends (hrest.ends hends) out c hc
  obtain ⟨hstore, htrace⟩ := m.serve_replays c
  obtain ⟨hstore', htrace'⟩ := m'.serve_replays c
  rw [← hevaluated] at hstore' htrace'
  refine ⟨hanswer, ⟨_, htrace htraced, htrace' htraced⟩, _, rfl, hevaluated.symm, ?_, ?_⟩
  · intro name hname
    rw [hstore, hstore']
    refine Store.get?_replay_congr ?_
    rw [map_fst_assignments]
    exact hname.symm.imp_right (h name)
  · intro name hname
    rw [← map_fst_assignments] at hname
    rw [hstore, hstore']
    exact ⟨Store.get?_replay_of_not_mem hname m.store, Store.get?_replay_of_not_mem hname m'.store⟩

/-- The stores differ on `y`, which is assigned before it is used, and on `z`, which is not used. -/
theorem run_depends_on_reads_unread_names :
    let p : Program := [.assign "y" (.var "x"), .assign "x" (.unary .neg (.var "y")),
      .expr (.binary .div (.var "x") (.num 0))]
    let m : Session := ⟨(Store.empty.set "x" 2).set "y" 5, []⟩
    let m' : Session := ⟨(Store.empty.set "x" 2).set "z" 7, [("z", 7)]⟩
    (∀ name, p.Reads name → m.store.get? name = m'.store.get? name) ∧
    ∀ c ∈ [Call.execute p, Call.executeInto p ⟨"", some 1⟩],
      (m.serve c).1 = (m'.serve c).1 ∧
      (∃ added, (m.serve c).2.trace = added ++ m.trace ∧
        (m'.serve c).2.trace = added ++ m'.trace) ∧
      ∃ done, m.evaluated c = done ∧ m'.evaluated c = done ∧
        (∀ name, p.Reads name ∨ name ∈ targets (done.map Prod.fst) →
          (m.serve c).2.store.get? name = (m'.serve c).2.store.get? name) ∧
        ∀ name ∉ targets (done.map Prod.fst),
          (m.serve c).2.store.get? name = m.store.get? name ∧
          (m'.serve c).2.store.get? name = m'.store.get? name := by
  intro p m m'
  have hagree : ∀ name, p.Reads name → m.store.get? name = m'.store.get? name := by
    intro name hname
    have hname : name = "x" ∨ ¬ "y" = name ∧ (name = "y" ∨ ¬ "x" = name ∧ name = "x") := by
      simpa [p, reads_cons, not_reads_nil, Statement.body, Statement.target?, Expr.names]
        using hname
    have hx : name = "x" := by
      rcases hname with hx | ⟨hy, hy' | ⟨-, hx⟩⟩
      · exact hx
      · exact absurd hy'.symm hy
      · exact hx
    rw [hx]
    decide +kernel
  exact ⟨hagree, run_depends_on_reads p m m' ⟨"", some 1⟩ hagree⟩

end Session
end LineCalc
