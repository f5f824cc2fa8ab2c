import LineCalc.Proofs.Calls
import LineCalc.Proofs.ReadBack

/-! Values are finite. A variable that is read and a negation are not checked, so this is an
invariant of the store rather than of single operations. Statements keep it, and with them every
call on a session. -/

namespace LineCalc

namespace Store

def AllFinite (s : Store) : Prop := ∀ name x, s.get? name = some x → x.isFinite

theorem allFinite_empty : empty.AllFinite := by
  intro name x h
  simp [get?, empty] at h

theorem AllFinite.set {s : Store} (hs : s.AllFinite) (name : String) {x : Number}
    (hx : x.isFinite) : (s.set name x).AllFinite := by
  intro other y h
  rw [get?_set] at h
  split at h
  · cases h
    exact hx
  · exact hs other y h

end Store

theorem Number.isFinite_of_checked {x y : Number} (h : x.checked = .ok y) : y.isFinite := by
  unfold checked at h
  split at h
  · cases h
    assumption
  · cases h

theorem Expr.isFinite_of_eval {s : Store} (hs : s.AllFinite) {e : Expr} {x : Number}
    (h : e.eval s = .ok x) : x.isFinite := by
  induction e generalizing x with
  | num y => exact Number.isFinite_of_checked h
  | var name =>
    simp only [eval, Store.read] at h
    split at h
    · cases h
      exact hs name _ ‹_›
    · cases h
  | unary op e ih =>
    cases op
    obtain ⟨y, hy, hx⟩ := except_bind_eq_ok h
    cases hx
    exact Number.isFinite_neg (ih hy)
  | binary op l r _ _ =>
    obtain ⟨_, -, h⟩ := except_bind_eq_ok h
    obtain ⟨_, -, h⟩ := except_bind_eq_ok h
    obtain ⟨_, -, h⟩ := except_bind_eq_ok h
    exact Number.isFinite_of_checked h

namespace Session
variable {m m' last : Session} {p : Program} {values : List Number} {s : Statement} {x : Number}

/-- Between the two sessions only finite numbers were assigned, and the later store holds no
others. -/
def StaysFinite (m last : Session) : Prop :=
  last.store.AllFinite ∧
    ∃ added, last.trace = added ++ m.trace ∧ ∀ entry ∈ added, entry.2.isFinite

theorem staysFinite_refl (h : m.store.AllFinite) : m.StaysFinite m := ⟨h, [], rfl, by simp⟩

theorem StaysFinite.trans (h : m.StaysFinite m') (h' : m'.StaysFinite last) :
    m.StaysFinite last := by
  obtain ⟨-, added, htrace, hadded⟩ := h
  obtain ⟨hstore, added', htrace', hadded'⟩ := h'
  refine ⟨hstore, added' ++ added, by rw [htrace', htrace, List.append_assoc], ?_⟩
  exact List.forall_mem_append.mpr ⟨hadded', hadded⟩

theorem staysFinite_of_exec (hm : m.store.AllFinite) (h : s.exec m = .ok (x, m')) :
    x.isFinite ∧ m.StaysFinite m' := by
  cases s with
  | expr e =>
    obtain ⟨y, hy, hresult⟩ := except_bind_eq_ok h
    cases hresult
    exact ⟨e.isFinite_of_eval hm hy, staysFinite_refl hm⟩
  | assign name e =>
    obtain ⟨y, hy, hresult⟩ := except_bind_eq_ok h
    cases hresult
    have hx := e.isFinite_of_eval hm hy
    exact ⟨hx, hm.set name hx, [(name, x)], rfl, by simpa using hx⟩

theorem staysFinite_of_runs (hm : m.store.AllFinite) (h : m.Runs p values last) :
    (∀ x ∈ values, x.isFinite) ∧ m.StaysFinite last := by
  induction h with
  | nil m => exact ⟨by simp, staysFinite_refl hm⟩
  | cons hs _ ih =>
    obtain ⟨hx, hstep⟩ := staysFinite_of_exec hm hs
    obtain ⟨hvalues, hlater⟩ := ih hstep.1
    exact ⟨List.forall_mem_cons.mpr ⟨hx, hvalues⟩, hstep.trans hlater⟩

end Session

/-- The answer shows finite numbers only: it returns no others, and every line that it returns or
writes is the text of a number. -/
def Answer.IsFinite : Answer → Prop
  | .values result => ∀ values, result = .ok values → ∀ x ∈ values, x.isFinite
  | .value result => ∀ x, result = .ok x → x.isFinite
  | .lines result => ∀ lines, result = .ok lines → ∀ line ∈ lines, line ∉ ["inf", "-inf", "NaN"]
  | .written _ out out' => ∃ lines : List String,
    out'.written = out.written ++ String.join (lines.map (· ++ "\n")) ∧
    ∀ line ∈ lines, '\n' ∉ line.toList ∧ line ∉ ["inf", "-inf", "NaN"]

theorem Answer.Shows.isFinite {a : Answer} {values : List Number} (h : a.Shows values)
    (hvalues : ∀ x ∈ values, x.isFinite) : a.IsFinite := by
  have hdecimal (line : String) (hline : line ∈ values.map Number.valueText) : IsDecimal line := by
    obtain ⟨x, hx, rfl⟩ := List.mem_map.mp hline
    exact Number.isDecimal_valueText (hvalues x hx)
  cases h with
  | values =>
    rintro _ ⟨⟩
    exact hvalues
  | noValues e => rintro _ ⟨⟩
  | value x =>
    rintro _ ⟨⟩
    exact hvalues x (List.mem_singleton.mpr rfl)
  | noValue e => rintro _ ⟨⟩
  | lines =>
    rintro _ ⟨⟩ line hline
    exact (hdecimal line hline).not_mem
  | noLines e => rintro _ ⟨⟩
  | written result out n =>
    refine ⟨_, rfl, fun line hline => ?_⟩
    rw [List.map_take] at hline
    have hline := hdecimal line (List.mem_of_mem_take hline)
    exact ⟨hline.lineFeed_not_mem, hline.not_mem⟩

namespace Session
variable {m : Session}

theorem serve_isFinite (hm : m.store.AllFinite) (c : Call) :
    (m.serve c).1.IsFinite ∧ m.StaysFinite (m.serve c).2 := by
  obtain ⟨done, values, last, hruns, hlast, hshows⟩ := m.serve_shows c
  obtain ⟨hvalues, hstays⟩ := staysFinite_of_runs hm hruns
  refine ⟨hshows.isFinite hvalues, ?_⟩
  rcases hlast with hlast | hlast
  · rwa [hlast]
  · rw [hlast]
    exact ⟨hstays.1, [], rfl, by simp⟩

theorem serveAll_isFinite (hm : m.store.AllFinite) (calls : List Call) :
    (∀ a ∈ (m.serveAll calls).1, a.IsFinite) ∧ m.StaysFinite (m.serveAll calls).2 := by
  induction calls generalizing m with
  | nil => exact ⟨by simp [serveAll], staysFinite_refl hm⟩
  | cons c calls ih =>
    obtain ⟨hanswer, hstep⟩ := serve_isFinite hm c
    obtain ⟨hanswers, hlater⟩ := ih hstep.1
    exact ⟨List.forall_mem_cons.mpr ⟨hanswer, hanswers⟩, hstep.trans hlater⟩

/-- Calls on a session with a finite store assign, return, print and leave behind finite numbers
only, in whatever order they come and whether they succeed or not. -/
theorem serveAll_stays_finite (m : Session) (hm : m.store.AllFinite) (calls : List Call) :
    (m.serveAll calls).2.store.AllFinite ∧
    (∃ added, (m.serveAll calls).2.trace = added ++ m.trace ∧ ∀ entry ∈ added, entry.2.isFinite) ∧
    (∀ answer ∈ (m.serveAll calls).1, answer.IsFinite) ∧
    ∀ source lines, run source = .ok lines → ∀ line ∈ lines, line ∉ ["inf", "-inf", "NaN"] := by
  obtain ⟨hanswers, hstore, htrace⟩ := serveAll_isFinite hm calls
  refine ⟨hstore, htrace, hanswers, fun source lines hrun => ?_⟩
  obtain ⟨p, values, last, -, hruns, rfl⟩ := Program.run_eq_ok_iff.mp hrun
  have hvalues := (staysFinite_of_runs Store.allFinite_empty hruns).1
  exact (Answer.Shows.lines values).isFinite hvalues _ rfl

theorem serveAll_stays_finite_infinite_literal :
    let m : Session := ⟨Store.empty.set "x" 2, []⟩
    let calls : List Call :=
      [.execute [.assign "y" (.unary .neg (.var "x")), .expr (.num (1 / 0))],
        .runInto "x * y\nx / 0" ⟨"", some 1⟩, .statement (.expr (.var "y"))]
    m.store.AllFinite ∧ (m.serveAll calls).2.store.AllFinite ∧
    (∃ added, (m.serveAll calls).2.trace = added ++ m.trace ∧ ∀ entry ∈ added, entry.2.isFinite) ∧
    (∀ answer ∈ (m.serveAll calls).1, answer.IsFinite) ∧
    run "2 - 5" = .ok ["-3"] ∧ ∀ line ∈ ["-3"], line ∉ ["inf", "-inf", "NaN"] := by
  intro m calls
  have hm : m.store.AllFinite := Store.allFinite_empty.set "x" (by decide)
  have hrun : run "2 - 5" = .ok ["-3"] := by decide +kernel
  obtain ⟨hstore, htrace, hanswers, hlines⟩ := serveAll_stays_finite m hm calls
  exact ⟨hm, hstore, htrace, hanswers, hrun, hlines _ _ hrun⟩

end Session
end LineCalc
