import Mathlib
import LineCalc.Proofs.Aligned
import LineCalc.Proofs.Coupling
import LineCalc.Run

/-! Reading is local to lines. The statements of a text are those of its lines, and the first line
that cannot be read on its own gives the error, whatever stands below it. -/

namespace LineCalc
open Token

namespace Parser
variable {n bound : Nat} {below : Option (List Item)} {p q r : Parser} {t : Token}

theorem peek_aligned (h : Aligned n below p.pending q.pending) :
    (∃ t u p' q', p.run peek = (.ok t, p') ∧ q.run peek = (.ok u, q') ∧
      p'.pending = p.pending ∧ q'.pending = q.pending ∧ OnLine n below.isNone t u ∧
      (t.kind.isTerminator → t.kind = .eof ∧ p.pending = [.ok t] ∧
        q.pending = .ok u :: below.getD [])) ∨
    ∃ e p' q', p.run peek = (.error e, p') ∧
      q.run peek = (.error (e.onLine n below.isNone), q') := by
  rcases h.front_cases with ⟨t, u, xs, ys, hp, hq, htu, -, hend⟩ | ⟨e, hp, hq⟩
  · obtain ⟨p', hrun, hp'⟩ := run_peek_of_pending hp
    obtain ⟨q', hrun', hq'⟩ := run_peek_of_pending hq
    refine .inl ⟨t, u, p', q', hrun, hrun', hp', hq', htu, fun ht => ?_⟩
    obtain ⟨heof, rfl, rfl⟩ := hend ht
    exact ⟨heof, hp, hq⟩
  · obtain ⟨p', hrun, -⟩ := run_peek_of_error (front_of_pending hp)
    obtain ⟨q', hrun', -⟩ := run_peek_of_error (front_of_pending hq)
    exact .inr ⟨e, p', q', hrun, hrun'⟩

/-- Reading a line on its own and inside a text. The bound tells at the end that fewer items are
left than there were in front of the line. -/
def alongLine (n bound : Nat) (below : Option (List Item)) : Coupling where
  state p q := Aligned n below p.pending q.pending ∧ q.pending.length ≤ bound
  token := OnLine n below.isNone
  error e e' := e' = e.onLine n below.isNone
  kind := OnLine.kind_cases
  unexpected h := h.unexpected
  agree_peek := by
    rintro p q ⟨h, hbound⟩
    rcases peek_aligned h with ⟨t, u, p', q', hrun, hrun', hp', hq', htu, -⟩ |
      ⟨e, p', q', hrun, hrun'⟩
    · rw [hrun, hrun']
      exact .ok htu ⟨by rwa [hp', hq'], by rwa [hq']⟩
    · rw [hrun, hrun']
      exact .error rfl
  agree_peekSecond := by
    rintro p q t ⟨h, hbound⟩ hfront ht
    rcases h.front_cases with ⟨t', u, xs, ys, hp, hq, htu, htail, -⟩ | ⟨e, hp, hq⟩
    · rw [front_of_pending hp] at hfront
      cases hfront
      obtain ⟨_, p', hrun, hp'⟩ := run_peekSecond hp
      obtain ⟨_, q', hrun', hq'⟩ := run_peekSecond hq
      rcases (htail ht).front_cases with ⟨t₂, u₂, xs, ys, rfl, rfl, htu₂, -, -⟩ | ⟨e, rfl, rfl⟩
      · change q'.pending = .ok u :: .ok u₂ :: ys at hq'
        change p'.pending = .ok t :: .ok t₂ :: xs at hp'
        rw [hrun, hrun']
        refine .ok htu₂ ⟨?_, ?_⟩
        · rw [hp', hq', ← hp, ← hq]
          exact h
        · rwa [hq', ← hq]
      · rw [hrun, hrun']
        exact .error rfl
    · rw [front_of_pending hp] at hfront
      cases hfront
  agree_advance := by
    rintro p q t ⟨h, hbound⟩ hfront ht
    rcases h.front_cases with ⟨t', u, xs, ys, hp, hq, htu, htail, -⟩ | ⟨e, hp, hq⟩
    · rw [front_of_pending hp] at hfront
      cases hfront
      obtain ⟨p', hrun, hp'⟩ := run_advance_of_pending hp
      obtain ⟨q', hrun', hq'⟩ := run_advance_of_pending hq
      rw [hrun, hrun']
      refine .ok htu ⟨?_, ?_⟩
      · rw [hp', hq']
        exact htail ht
      · rw [hq] at hbound
        rw [hq']
        exact Nat.le_of_succ_le hbound
    · rw [front_of_pending hp] at hfront
      cases hfront

def Past (below : Option (List Item)) (bound : Nat) (q : Parser) : Prop :=
  match below with
  | none => q.Ahead []
  | some items => q.pending = items ∧ items.length < bound

theorem ahead_of_eof (h : p.pending = [.ok t]) (ht : t.kind = .eof) : p.Ahead [] :=
  ⟨[t], h, by rw [kindsBeforeEof_cons, if_pos ht]⟩

theorem endStatement_alongLine (h : (alongLine n bound below).state p q) :
    (∃ p' q', p.run endStatement = (.ok (), p') ∧ q.run endStatement = (.ok (), q') ∧
      p'.Ahead [] ∧ q'.Past below bound) ∨
    ∃ e p' q', p.run endStatement = (.error e, p') ∧
      q.run endStatement = (.error (e.onLine n below.isNone), q') := by
  obtain ⟨haligned, hbound⟩ := h
  unfold endStatement
  rcases peek_aligned haligned with ⟨t, u, p', q', hrun, hrun', hp', hq', htu, hend⟩ |
    ⟨e, p', q', hrun, hrun'⟩
  · rw [moves_peek, run_bind_of_ok hrun, run_bind_of_ok hrun', htu.kind]
    by_cases ht : t.kind.isTerminator
    · obtain ⟨heof, hp, hq⟩ := hend ht
      rw [heof]
      refine .inl ⟨p', ?_⟩
      cases below with
      | none =>
        exact ⟨q', rfl, rfl, ahead_of_eof (hp'.trans hp) heof,
          ahead_of_eof (hq'.trans hq) (by rw [htu.kind, heof]; rfl)⟩
      | some items =>
        obtain ⟨q'', hadvance, hq''⟩ := run_advance_of_pending (hq'.trans hq)
        refine ⟨q'', rfl, run_discard_of_ok hadvance, ahead_of_eof (hp'.trans hp) heof, hq'', ?_⟩
        rw [hq] at hbound
        exact hbound
    · rw [Kind.onLine_of_not_isTerminator ht, Bool.eq_false_iff.mpr ht]
      refine .inr ⟨t.unexpected "operator or end of line", p', q', rfl, ?_⟩
      rw [← htu.unexpected]
      rfl
  · exact .inr ⟨e, p', q', run_bind_of_error hrun, run_bind_of_error hrun'⟩

/-- What a line gives on its own and inside a text: at most one statement, which the text has in
front of what it gives below the line, or an error, which the text has too. -/
inductive Continues (n : Nat) (below : Option (List Item)) (bound rounds : Nat) :
    Except Error Program → Except Error Program → Prop
  | ok {program result} (q index) : program.length ≤ 1 → Past below bound q →
    result = (q.run (statements rounds index)).1.map (program ++ ·) →
    Continues n below bound rounds (.ok program) result
  | error {e} : Continues n below bound rounds (.error e) (.error (e.onLine n below.isNone))

theorem continues_blank {rounds index : Nat} {u : Token} (hrun : q.run peek = (.ok u, r))
    (hr : r.pending = .ok u :: below.getD []) (hu : u.kind = Kind.eof.onLine below.isNone) :
    Continues n below r.pending.length rounds (.ok [])
      (q.run (statements (rounds + 1) index)).1 := by
  rw [statements, moves_peek, run_bind_of_ok hrun, hu]
  cases below with
  | none =>
    have hr' := ahead_of_eof hr hu
    obtain ⟨r', hnil, -⟩ := run_statements_nil hr' rounds index
    refine .ok r index (Nat.zero_le 1) hr' ?_
    rw [hnil]
    rfl
  | some items =>
    obtain ⟨r', hadvance, hr'⟩ := run_advance_of_pending hr
    refine .ok r' index (Nat.zero_le 1) ⟨hr', ?_⟩ ?_
    · rw [hr]
      exact Nat.lt_succ_self _
    · refine (congrArg Prod.fst (run_bind_of_ok (run_discard_of_ok hadvance))).trans ?_
      rcases (r'.run (statements rounds index)).1 with _ | _ <;> rfl

theorem continues_statement {rounds index rounds' index' : Nat}
    (h : (alongLine n bound below).state p q) :
    Continues n below bound rounds'
      (p.run (statement >>= fun s => report (.statementParsed index s) >>= fun _ =>
        endStatement >>= fun _ => statements rounds (index + 1) >>= fun later =>
        pure (s :: later))).1
      (q.run (statement >>= fun s => report (.statementParsed index' s) >>= fun _ =>
        endStatement >>= fun _ => statements rounds' (index' + 1) >>= fun later =>
        pure (s :: later))).1 := by
  have hagree := Coupling.coupled_statement h (List.nil_prefix ..)
  generalize hp : p.run statement = result at hagree
  generalize hq : q.run statement = result' at hagree
  cases hagree with
  | error he =>
    rw [run_bind_of_error hp, run_bind_of_error hq, he]
    exact .error
  | @ok s s' p₁ q₁ heq hstate =>
    subst heq
    rw [run_bind_of_ok hp, run_bind_of_ok hq, run_report_bind, run_report_bind]
    have hreported : (alongLine n bound below).state
        { p₁ with events := .statementParsed index s :: p₁.events }
        { q₁ with events := .statementParsed index' s :: q₁.events } := hstate
    rcases endStatement_alongLine hreported with
      ⟨p₂, q₂, hp₂, hq₂, hend, hpast⟩ | ⟨e, p₂, q₂, hp₂, hq₂⟩
    · -- on its own the line is followed by the end of file only
      obtain ⟨p₃, hnil, -⟩ := run_statements_nil hend rounds (index + 1)
      rw [run_bind_of_ok hp₂, run_bind_of_ok hq₂, run_bind_of_ok hnil, run_pure]
      exact .ok q₂ (index' + 1) (Nat.le_refl 1) hpast (run_bind_cons_fst ..)
    · rw [run_bind_of_error hp₂, run_bind_of_error hq₂]
      exact .error

theorem continues_statements (h : Aligned n below p.pending q.pending)
    (rounds index rounds' index' : Nat) :
    Continues n below q.pending.length rounds' (p.run (statements (rounds + 1) index)).1
      (q.run (statements (rounds' + 1) index')).1 := by
  rcases peek_aligned h with ⟨t, u, p₁, q₁, hrun, hrun', hp₁, hq₁, htu, hend⟩ |
    ⟨e, p₁, q₁, hrun, hrun'⟩
  · by_cases ht : t.kind.isTerminator
    · obtain ⟨heof, -, hq⟩ := hend ht
      rw [statements, moves_peek, run_bind_of_ok hrun, heof, ← hq₁]
      exact continues_blank hrun' (hq₁.trans hq) (by rw [htu.kind, heof])
    · have hu : ¬ u.kind.isTerminator := by
        rwa [htu.kind, Kind.onLine_of_not_isTerminator ht]
      rw [run_statements_of_inner hrun ht, run_statements_of_inner hrun' hu]
      refine continues_statement ⟨?_, ?_⟩
      · rwa [hp₁, hq₁]
      · exact Nat.le_of_eq (congrArg List.length hq₁)
  · rw [statements, moves_peek, run_bind_of_error hrun, statements, moves_peek, run_bind_of_error hrun']
    exact .error

end Parser

theorem exists_line (text : List Char) : ∃ l below, '\n' ∉ l ∧ text = l ++ lineEnd below := by
  induction text with
  | nil => exact ⟨[], none, List.not_mem_nil, rfl⟩
  | cons c text ih =>
    obtain ⟨l, below, hl, rfl⟩ := ih
    by_cases hc : c = '\n'
    · exact ⟨[], some (l ++ lineEnd below), List.not_mem_nil, by rw [hc]; rfl⟩
    · refine ⟨c :: l, below, ?_, rfl⟩
      rw [List.mem_cons, not_or]
      exact ⟨Ne.symm hc, hl⟩

/-- Every text is a first line and, if that line ends, a text below it. -/
theorem line_induction {P : List Char → Prop}
    (step : ∀ l below, '\n' ∉ l → (∀ text ∈ below, P text) → P (l ++ lineEnd below))
    (text : List Char) : P text := by
  induction hn : text.length using Nat.strongRecOn generalizing text with
  | _ n ih =>
    obtain ⟨l, below, hl, rfl⟩ := exists_line text
    refine step l below hl fun text htext => ih text.length ?_ text rfl
    cases htext
    rw [← hn, lineEnd, List.length_append, List.length_cons]
    omega

theorem splitOn_append_lineEnd {l : List Char} (hl : '\n' ∉ l) (below : Option (List Char)) :
    (l ++ lineEnd below).splitOn '\n' = l :: below.elim [] (·.splitOn '\n') := by
  cases below with
  | none => rw [lineEnd, List.append_nil, List.splitOn_eq_singleton hl, Option.elim_none]
  | some text => rw [lineEnd, List.splitOn_append_cons_self_of_not_mem hl, Option.elim_some]

theorem not_mem_of_mem_splitOn {text l : List Char} (h : l ∈ text.splitOn '\n') : '\n' ∉ l := by
  induction text using line_induction with
  | step first below hfirst ih =>
    rw [splitOn_append_lineEnd hfirst] at h
    rcases List.mem_cons.mp h with rfl | h
    · exact hfirst
    · cases below with
      | none => cases h
      | some text => exact ih text rfl h

namespace Program

def sourceLines (source : String) : List String :=
  (source.toList.splitOn '\n').map String.ofList

def ofLines (n : Nat) : List String → Except Error Program
  | [] => .ok []
  | line :: below =>
    match ofSource line with
    | .ok program => (ofLines (n + 1) below).map (program ++ ·)
    | .error e => .error (e.onLine n below.isEmpty)

theorem ofSource_ofList (l : List Char) :
    ofSource (String.ofList l) =
      (({ unread := Scanner.items ⟨l, .start, false⟩ } : Parser).run
        (Parser.statements ((Scanner.items ⟨l, .start, false⟩).length + 1) 0)).1 := by
  rw [ofSource, Parser.parse_fst, Scanner.ofSource, String.toList_ofList]
  rfl

theorem run_statements_eq_ofLines (text : List Char) {q : Parser} {n rounds : Nat}
    (hq : q.pending = Scanner.items ⟨text, ⟨n, 1⟩, false⟩) (hrounds : q.pending.length < rounds)
    (index : Nat) : (q.run (Parser.statements rounds index)).1 =
      ofLines n ((text.splitOn '\n').map String.ofList) := by
  induction text using line_induction generalizing q n rounds index with
  | step l below hl ih =>
    cases rounds with
    | zero => cases hrounds
    | succ rounds =>
      -- the line on its own is read by a new parser, in step with the one inside the text
      have haligned := Scanner.items_aligned hl below 1 n 1
      rw [← hq] at haligned
      have hline := Parser.continues_statements (p := { unread := Scanner.items ⟨l, .start, false⟩ })
        haligned (Scanner.items ⟨l, .start, false⟩).length 0 rounds index
      rw [← ofSource_ofList] at hline
      rw [splitOn_append_lineEnd hl, List.map_cons, ofLines]
      generalize ofSource (String.ofList l) = result at hline
      generalize (q.run (Parser.statements (rounds + 1) index)).1 = result' at hline
      cases hline with
      | error =>
        cases below with
        | none => rfl
        | some text =>
          have hne : (text.splitOn '\n').isEmpty = false :=
            List.isEmpty_eq_false_iff.mpr (List.splitOn_ne_nil '\n' text)
          rw [Option.elim_some, List.isEmpty_map, hne]
          rfl
      | ok q' index' _ hpast heq =>
        rw [heq]
        cases below with
        | none =>
          obtain ⟨_, hnil, -⟩ := Parser.run_statements_nil hpast rounds index'
          rw [hnil]
          rfl
        | some text =>
          obtain ⟨hq', hlt⟩ := hpast
          have hrounds' : q'.pending.length < rounds := by
            rw [hq']
            omega
          rw [ih text rfl hq' hrounds' index']
          rfl

theorem ofSource_eq_ofLines (source : String) : ofSource source = ofLines 1 (sourceLines source) := by
  rw [ofSource, Parser.parse_fst]
  exact run_statements_eq_ofLines source.toList rfl (Nat.lt_succ_self _) 0

theorem length_le_one {l : List Char} (hl : '\n' ∉ l) {program : Program}
    (h : ofSource (String.ofList l) = .ok program) : program.length ≤ 1 := by
  have haligned := Scanner.items_aligned hl none 1 1 1
  rw [lineEnd, List.append_nil] at haligned
  have hline := Parser.continues_statements (p := { unread := Scanner.items ⟨l, .start, false⟩ })
    (q := { unread := Scanner.items ⟨l, .start, false⟩ }) haligned
    (Scanner.items ⟨l, .start, false⟩).length 0 0 0
  rw [← ofSource_ofList, h] at hline
  cases hline
  assumption

theorem ofLines_of_ok {lines : List String} {programs : List Program}
    (h : lines.map ofSource = programs.map .ok) (n : Nat) :
    ofLines n lines = .ok programs.flatten := by
  induction lines generalizing programs n with
  | nil =>
    cases List.map_eq_nil_iff.mp h.symm
    rfl
  | cons line lines ih =>
    cases programs with
    | nil => cases h
    | cons program programs =>
      obtain ⟨hline, hlines⟩ := List.cons.inj h
      rw [ofLines, hline, ih hlines]
      rfl

theorem ofLines_of_error {above below : List String} {line : String} {e : Error}
    (habove : ∀ l ∈ above, ∃ program, ofSource l = .ok program) (hline : ofSource line = .error e)
    (n : Nat) :
    ofLines n (above ++ line :: below) = .error (e.onLine (n + above.length) below.isEmpty) := by
  induction above generalizing n with
  | nil =>
    rw [List.nil_append, ofLines, hline]
    rfl
  | cons l above ih =>
    obtain ⟨⟨program, hl⟩, habove⟩ := List.forall_mem_cons.mp habove
    rw [List.cons_append, ofLines, hl, ih habove, List.length_cons, Nat.add_right_comm,
      Nat.add_assoc]
    rfl

/-- A text whose lines can all be read gives their statements in turn, at most one for each line.
Otherwise the first line that cannot be read gives the error of the text. -/
theorem ofSource_local_to_lines (source : String) :
    (∀ programs : List Program, (sourceLines source).map ofSource = programs.map .ok →
      ofSource source = .ok programs.flatten ∧ ∀ program ∈ programs, program.length ≤ 1) ∧
    ∀ above line below e, sourceLines source = above ++ line :: below →
      (∀ l ∈ above, ∃ program, ofSource l = .ok program) → ofSource line = .error e →
      ofSource source = .error (e.onLine (above.length + 1) below.isEmpty) := by
  rw [ofSource_eq_ofLines]
  refine ⟨fun programs h => ⟨ofLines_of_ok h 1, fun program hprogram => ?_⟩, ?_⟩
  · have hmem : Except.ok program ∈ (sourceLines source).map ofSource := by
      rw [h]
      exact List.mem_map_of_mem hprogram
    obtain ⟨line, hline, hread⟩ := List.mem_map.mp hmem
    obtain ⟨l, hl, rfl⟩ := List.mem_map.mp hline
    exact length_le_one (not_mem_of_mem_splitOn hl) hread
  · intro above line below e hlines habove hline
    rw [hlines, ofLines_of_error habove hline, Nat.add_comm]

theorem ofSource_local_to_lines_broken_line :
    (sourceLines "x = a\n# a\nb" = ["x = a", "# a", "b"] ∧
      ofSource "x = a\n# a\nb" = .ok [.assign "x" (.var "a"), .expr (.var "b")]) ∧
    sourceLines "a\nb +\n&" = ["a", "b +", "&"] ∧
      ofSource "a\nb +\n&" =
        .error (.unexpected "number, identifier, `-` or `(`" "end of line" ⟨2, 4⟩) := by
  have hread := (ofSource_local_to_lines "x = a\n# a\nb").1
    [[.assign "x" (.var "a")], [], [.expr (.var "b")]] (by cbv)
  refine ⟨⟨by cbv, hread.1⟩, by cbv, ?_⟩
  refine (ofSource_local_to_lines "a\nb +\n&").2 ["a"] "b +" ["&"]
    (.unexpected "number, identifier, `-` or `(`" "end of file" ⟨1, 4⟩) (by cbv) ?_ (by cbv)
  rintro l (_ | ⟨_, ⟨⟩⟩)
  exact ⟨[.expr (.var "a")], by cbv⟩

end Program
end LineCalc
