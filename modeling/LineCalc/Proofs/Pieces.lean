import LineCalc.Proofs.Execution
import LineCalc.Proofs.Lines

/-! Running a text in pieces. A text that can be read may be cut at any line feed: the pieces are
read as what they are in the whole, and running one after the other on the same store and sink is
running the whole. -/

namespace LineCalc

/-- Goes on with a run unless it has failed. The lines written so far are counted in. -/
def resume {α : Type} (next : α → Except Error Nat × α) :
    Except Error Nat × α → Except Error Nat × α
  | (.ok n, a) => ((next a).1.map (n + ·), (next a).2)
  | (.error e, a) => (.error e, a)

namespace Program
variable {m : Session} {out : Sink} {p q : Program}

theorem resume_succ {α : Type} (next : α → Except Error Nat × α) (r : Except Error Nat × α) :
    resume next (r.1.map (· + 1), r.2) = ((resume next r).1.map (· + 1), (resume next r).2) := by
  obtain ⟨_ | n, a⟩ := r
  · rfl
  · have hcount : (next a).1.map (n + 1 + ·) = ((next a).1.map (n + ·)).map (· + 1) := by
      cases (next a).1 with
      | error e => rfl
      | ok k => exact congrArg Except.ok (Nat.add_right_comm n 1 k)
    exact congrArg (·, (next a).2) hcount

theorem executeInto_append (p q : Program) (m : Session) (out : Sink) :
    (p ++ q).executeInto m out =
      resume (fun s => q.executeInto s.1 s.2) (p.executeInto m out) := by
  induction p generalizing m out with
  | nil =>
    have hcount : (q.executeInto m out).1.map (0 + ·) = (q.executeInto m out).1 := by
      cases (q.executeInto m out).1 with
      | error e => rfl
      | ok k => exact congrArg Except.ok (Nat.zero_add k)
    exact (congrArg (·, (q.executeInto m out).2) hcount).symm
  | cons s p ih =>
    rw [List.cons_append]
    cases hs : s.exec m with
    | error e =>
      rw [executeInto_cons_of_error hs, executeInto_cons_of_error hs]
      rfl
    | ok result =>
      by_cases hout : out.room = some 0
      · rw [executeInto_cons_of_full hs hout, executeInto_cons_of_full hs hout]
        rfl
      · have hfits : ∀ k ∈ out.room, 0 < k := by
          rintro (_ | k) hk
          · exact absurd hk hout
          · exact Nat.succ_pos k
        rw [executeInto_cons_of_fits hs hfits, executeInto_cons_of_fits hs hfits, ih, resume_succ]

theorem ofLines_eq_ok_iff {lines : List String} {n : Nat} : ofLines n lines = .ok p ↔
    ∃ programs : List Program, lines.map ofSource = programs.map .ok ∧ p = programs.flatten := by
  constructor
  · intro h
    induction lines generalizing n p with
    | nil => exact ⟨[], rfl, (Except.ok.inj h).symm⟩
    | cons line lines ih =>
      unfold ofLines at h
      cases hline : ofSource line with
      | error e =>
        rw [hline] at h
        cases h
      | ok first =>
        rw [hline] at h
        cases hlines : ofLines (n + 1) lines with
        | error e =>
          rw [hlines] at h
          cases h
        | ok later =>
          rw [hlines] at h
          obtain ⟨programs, hread, rfl⟩ := ih hlines
          refine ⟨first :: programs, ?_, (Except.ok.inj h).symm⟩
          rw [List.map_cons, hline, hread, List.map_cons]
  · rintro ⟨programs, hread, rfl⟩
    exact ofLines_of_ok hread n

theorem sourceLines_append (above below : String) :
    sourceLines (above ++ "\n" ++ below) = sourceLines above ++ sourceLines below := by
  have htext : (above ++ "\n" ++ below).toList = above.toList ++ '\n' :: below.toList := by simp
  rw [sourceLines, htext, List.splitOn_append_cons_self, List.map_append, sourceLines, sourceLines]

theorem ofSource_append {above below : String} (h : ofSource (above ++ "\n" ++ below) = .ok p) :
    ∃ first later, ofSource above = .ok first ∧ ofSource below = .ok later ∧
      p = first ++ later := by
  rw [ofSource_eq_ofLines, sourceLines_append, ofLines_eq_ok_iff] at h
  obtain ⟨programs, hread, rfl⟩ := h
  rw [List.map_append] at hread
  obtain ⟨first, later, rfl, hfirst, hlater⟩ := List.map_eq_append_iff.mp hread.symm
  refine ⟨first.flatten, later.flatten, ?_, ?_, List.flatten_append⟩
  · rw [ofSource_eq_ofLines]
    exact ofLines_of_ok hfirst.symm 1
  · rw [ofSource_eq_ofLines]
    exact ofLines_of_ok hlater.symm 1

/-- Running a text that can be read is running the text above any of its line feeds and then, unless
that failed, the text below, on the same store and sink. -/
theorem runInto_in_pieces {above below : String} (h : ofSource (above ++ "\n" ++ below) = .ok p)
    (store : Store) (out : Sink) :
    runInto store out (above ++ "\n" ++ below) =
      match runInto store out above with
      | (.error e, store', out') => (.error e, store', out')
      | (.ok n, store', out') =>
        let (result, last) := runInto store' out' below
        (result.map (n + ·), last) := by
  obtain ⟨first, later, hfirst, hlater, rfl⟩ := ofSource_append h
  have hwhole := runInto_of_ok h { store } out
  have habove := runInto_of_ok hfirst { store } out
  rw [executeInto_append] at hwhole
  rcases hrun : first.executeInto { store } out with ⟨_ | n, m, out'⟩
  · rw [hrun] at hwhole habove
    rw [hwhole, habove]
    rfl
  · have hbelow := runInto_of_ok hlater m out'
    rw [hrun] at hwhole habove
    rw [hwhole, habove]
    simp only [hbelow]
    rfl

/-- With room for one line the text below runs one statement, which stays although its line cannot be
written. -/
theorem runInto_in_pieces_full_sink :
    let above := "x = 2 # two"
    let below := "\nx = x * x\n3"
    let text := above ++ "\n" ++ below
    let program : Program :=
      [.assign "x" (.num 2), .assign "x" (.binary .mul (.var "x") (.var "x")), .expr (.num 3)]
    let (result, store, out) := runInto .empty {} text
    let (stopped, left, full) := runInto .empty ⟨"", some 1⟩ text
    ofSource text = .ok program ∧
    (result = .ok 3 ∧ store.get? "x" = some 4 ∧ out = ⟨"2\n4\n3\n", none⟩) ∧
    (stopped = .error (.io "sink closed") ∧ left.get? "x" = some 4 ∧ full = ⟨"2\n", some 0⟩) ∧
    ∀ start : Sink, runInto .empty start text =
      match runInto .empty start above with
      | (.error e, store', out') => (.error e, store', out')
      | (.ok n, store', out') =>
        let (result, last) := runInto store' out' below
        (result.map (n + ·), last) := by
  intro above below text program
  have hsource : ofSource text = .ok program := by decide +kernel
  refine ⟨hsource, ?_, ?_, runInto_in_pieces hsource .empty⟩
  · decide +kernel
  · decide +kernel

end Program
end LineCalc
