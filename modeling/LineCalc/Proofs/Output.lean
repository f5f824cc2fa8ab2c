import LineCalc.Proofs.Finite
import LineCalc.Proofs.Lines
import LineCalc.Proofs.Printing

/-! What a text prints is a text that prints itself. A line of output is a number, or a sign and a
number, and its value is written in the same way again. -/

namespace LineCalc

namespace Program
open Grammar LineCalc.Parser
variable {x : Number}

theorem ofSource_of_scans {source : String} {kinds : List Token.Kind} {e : Expr} {d : Nat}
    (hscans : Scanner.Scans source.toList kinds []) (hderives : Derives .factor kinds e d)
    (hd : d ≤ maxDepth) (hheight : e.height ≤ maxDepth) : ofSource source = .ok [.expr e] := by
  have hprogram : DerivesProgram kinds [.expr e] d := .last (.expr (.term (.factor hderives)))
  obtain ⟨tokens, hsource, htokens⟩ := exists_tokens_of_scans hscans hprogram
  rw [hsource]
  exact parse_within_limits htokens hd (List.forall_mem_singleton.mpr hheight)

theorem ofSource_text (hfinite : x.isFinite) (hsign : ¬ x.isNegative) :
    ofSource x.text = .ok [.expr (.num x)] := by
  have hscans : Scanner.Scans x.text.toList [.number x] [] :=
    Scanner.scans_number hfinite hsign (by simp [Scanner.Stops])
  exact ofSource_of_scans hscans (.number x) (Nat.zero_le _) (Nat.zero_le _)

theorem ofSource_text_of_isNegative (hfinite : x.isFinite) (hsign : x.isNegative) :
    ofSource x.text = .ok [.expr (.unary .neg (.num (-x)))] := by
  have hfinite' := Number.isFinite_neg hfinite
  have hsign' : ¬ (-x).isNegative := by
    rw [Number.isNegative_neg hfinite, hsign]
    simp
  have hscans : Scanner.Scans x.text.toList [.minus, .number (-x)] [] := by
    rw [Number.toList_text_of_isNegative hfinite hsign]
    exact (Scanner.scans_symbol (by decide) _).append
      (Scanner.scans_number hfinite' hsign' (by simp [Scanner.Stops]))
  exact ofSource_of_scans hscans (.negation (.number (-x))) (by decide)
    (by simp [Expr.height, maxDepth])

/-- Only zero could be written as a zero with a sign, and its line has none. -/
theorem valueText_ne (hfinite : x.isFinite) : x.valueText ≠ "-0" := by
  have hread : ofSource "-0" = .ok [.expr (.unary .neg (.num 0))] := by decide +kernel
  unfold Number.valueText
  split
  · decide
  · rename_i hzero
    intro htext
    cases hsign : x.isNegative with
    | false =>
      have hnumber := ofSource_text hfinite (Bool.eq_false_iff.mp hsign)
      rw [htext, hread] at hnumber
      cases hnumber
    | true =>
      have hnumber := ofSource_text_of_isNegative hfinite hsign
      rw [htext, hread] at hnumber
      have hneg : 0 = -x := by simpa using hnumber
      rw [Number.beq_zero_iff, ← Number.magnitude_neg hfinite, ← hneg] at hzero
      exact hzero rfl

theorem ofSource_valueText (hfinite : x.isFinite) : ∃ e y,
    ofSource x.valueText = .ok [.expr e] ∧ (∀ s, e.eval s = .ok y) ∧
      y.valueText = x.valueText := by
  have hchecked {y : Number} (hy : y.isFinite) : y.checked = .ok y := if_pos hy
  by_cases hzero : x == 0
  · have htext : x.valueText = "0" := if_pos hzero
    rw [htext]
    exact ⟨.num 0, 0, by decide +kernel, fun s => rfl, rfl⟩
  · have htext : x.valueText = x.text := if_neg hzero
    rw [htext]
    cases hsign : x.isNegative with
    | false =>
      have hread := ofSource_text hfinite (Bool.eq_false_iff.mp hsign)
      exact ⟨.num x, x, hread, fun s => hchecked hfinite, htext⟩
    | true =>
      have hread := ofSource_text_of_isNegative hfinite hsign
      refine ⟨.unary .neg (.num (-x)), x, hread, fun s => ?_, htext⟩
      rw [Expr.eval, Expr.eval, hchecked (Number.isFinite_neg hfinite)]
      exact congrArg Except.ok (Number.neg_neg_of_isFinite hfinite)

theorem exists_runs_of_lines {values : List Number} (h : ∀ x ∈ values, x.isFinite) (m : Session) :
    ∃ (programs : List Program) (values' : List Number),
      (values.map Number.valueText).map ofSource = programs.map .ok ∧
      m.Runs programs.flatten values' m ∧
      values'.map Number.valueText = values.map Number.valueText := by
  induction values with
  | nil => exact ⟨[], [], rfl, .nil m, rfl⟩
  | cons x values ih =>
    obtain ⟨hx, hvalues⟩ := List.forall_mem_cons.mp h
    obtain ⟨programs, values', hread, hruns, hlines⟩ := ih hvalues
    obtain ⟨e, y, hsource, heval, htext⟩ := ofSource_valueText hx
    have hexec : (Statement.expr e).exec m = .ok (y, m) := by
      rw [Statement.exec, heval]
      rfl
    refine ⟨[.expr e] :: programs, y :: values', ?_, .cons hexec hruns, ?_⟩
    · rw [List.map_cons, List.map_cons, hsource, hread, List.map_cons]
    · rw [List.map_cons, List.map_cons, htext, hlines]

theorem sourceLines_intercalate {lines : List String} (hne : lines ≠ [])
    (h : ∀ line ∈ lines, '\n' ∉ line.toList) :
    sourceLines (String.intercalate "\n" lines) = lines := by
  have hsplit : ("\n".toList.intercalate (lines.map String.toList)).splitOn '\n' =
      lines.map String.toList :=
    List.splitOn_intercalate '\n' (by simpa using h) (by simpa using hne)
  have hofList : String.ofList ∘ String.toList = id := funext fun line => String.ofList_toList
  rw [sourceLines, String.toList_intercalate, hsplit, List.map_map, hofList, List.map_id]

theorem ofSource_intercalate {lines : List String} {programs : List Program}
    (hlines : ∀ line ∈ lines, '\n' ∉ line.toList)
    (hread : lines.map ofSource = programs.map .ok) :
    ofSource (String.intercalate "\n" lines) = .ok programs.flatten := by
  cases lines with
  | nil =>
    cases List.map_eq_nil_iff.mp hread.symm
    decide +kernel
  | cons line lines =>
    rw [ofSource_eq_ofLines, sourceLines_intercalate (by simp) hlines]
    exact ofLines_of_ok hread 1

/-- The lines that a text prints are numbers, zero without a sign, and printed again when they are
run as a text themselves. -/
theorem run_of_output {source : String} {lines : List String} (h : run source = .ok lines) :
    (∀ line ∈ lines, IsDecimal line ∧ line ≠ "-0") ∧
      run (String.intercalate "\n" lines) = .ok lines := by
  obtain ⟨p, values, last, -, hruns, rfl⟩ := run_eq_ok_iff.mp h
  have hfinite := (Session.staysFinite_of_runs Store.allFinite_empty hruns).1
  have hdecimal : ∀ line ∈ values.map Number.valueText, IsDecimal line ∧ line ≠ "-0" := by
    intro line hline
    obtain ⟨x, hx, rfl⟩ := List.mem_map.mp hline
    exact ⟨Number.isDecimal_valueText (hfinite x hx), valueText_ne (hfinite x hx)⟩
  refine ⟨hdecimal, run_eq_ok_iff.mpr ?_⟩
  obtain ⟨programs, values', hread, hruns', hlines⟩ := exists_runs_of_lines hfinite {}
  have hsource := ofSource_intercalate (fun line hline => (hdecimal line hline).1.lineFeed_not_mem)
    hread
  exact ⟨programs.flatten, values', {}, hsource, hruns', hlines.symm⟩

theorem run_of_output_negative_zero :
    let lines := ["0", "-0.5", "-1"]
    run "z = 0 * -5\nz - 1 / 2\n2 * -0.5" = .ok lines ∧
    (∀ line ∈ lines, IsDecimal line ∧ line ≠ "-0") ∧ run "0\n-0.5\n-1" = .ok lines := by
  intro lines
  have hrun : run "z = 0 * -5\nz - 1 / 2\n2 * -0.5" = .ok lines := by decide +kernel
  have hjoin : String.intercalate "\n" lines = "0\n-0.5\n-1" := by decide +kernel
  obtain ⟨hlines, hagain⟩ := run_of_output hrun
  rw [hjoin] at hagain
  exact ⟨hrun, hlines, hagain⟩

end Program
end LineCalc
