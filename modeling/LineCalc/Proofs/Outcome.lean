import LineCalc.Proofs.Verdict

/-! What a parse makes of the tokens it begins with. A program is accepted at its end of file, or
refused at a token that follows a beginning of a program, or refused for a limit, or the tokens
break off before either. Each of these is settled by the tokens that it speaks of. -/

namespace LineCalc

def Grammar.BeginsProgram (v : List Token.Kind) : Prop :=
  ∃ w program d, DerivesProgram (v ++ w) program d

namespace Parser
open Grammar
variable {e : Error} {t : Token} {us vs zs ts : List Token} {named : Token → Prop}

/-- What comes of every stream that begins with these items, given a round for each of them. -/
def Outcome (items : List Token.Item) (r : Except Error Program) : Prop :=
  ∀ ⦃p : Parser⦄ ⦃more : List Token.Item⦄ ⦃rounds : Nat⦄ (index : Nat), items.length ≤ rounds →
    p.pending = items ++ more → (p.run (statements rounds index)).1 = r

theorem Outcome.parse_eq {items : List Token.Item} {r : Except Error Program}
    (h : Outcome items r) (more : List Token.Item) :
    (Parser.parse { unread := items ++ more }).1 = r := by
  rw [parse_fst]
  refine h 0 ?_ rfl
  simp only [List.length_append]
  omega

def statementsFrom (rounds index : Nat) : Parse Program := do
  let s ← statement
  report (.statementParsed index s)
  endStatement
  return s :: (← statements rounds (index + 1))

theorem run_statements_of_pending {p : Parser} {rest : List Token.Item} (rounds index : Nat)
    (ht : ¬ t.kind.isTerminator) (hp : p.pending = .ok t :: rest) :
    ∃ q : Parser, p.run (statements (rounds + 1) index) = q.run (statementsFrom rounds index) ∧
      q.pending = p.pending := by
  obtain ⟨q, hrun, hq⟩ := run_peek_of_pending hp
  exact ⟨q, run_statements_of_inner hrun ht, hq⟩

theorem Refuses.outcome (ht : ¬ t.kind.isTerminator) (hzs : zs.head? = some t)
    (h : ∀ rounds index, Refuses (statementsFrom rounds index) zs e) :
    Outcome (zs.map .ok) (.error e) := by
  obtain ⟨zs, rfl⟩ := List.head?_eq_some_iff.mp hzs
  rintro p more (_ | rounds) index hrounds hp
  · cases hrounds
  · obtain ⟨q, hrun, hq⟩ := run_statements_of_pending rounds index ht hp
    obtain ⟨q', hrun'⟩ := h rounds index (hq.trans hp)
    rw [hrun, hrun']

theorem Lacks.outcome (ht : ¬ t.kind.isTerminator) (hzs : zs.head? = some t)
    (h : ∀ rounds index, Lacks (statementsFrom rounds index) zs) (e : Error) :
    Outcome (zs.map .ok ++ [.error e]) (.error e) := by
  obtain ⟨zs, rfl⟩ := List.head?_eq_some_iff.mp hzs
  rintro p more (_ | rounds) index hrounds hp
  · cases hrounds
  · rw [List.append_assoc] at hp
    obtain ⟨q, hrun, hq⟩ := run_statements_of_pending rounds index ht hp
    obtain ⟨q', hrun'⟩ := h rounds index (hq.trans hp)
    rw [hrun, hrun']

theorem ViableStatement.begins (h : ViableStatement us) : BeginsProgram (us.map Token.kind) := by
  obtain ⟨w, s, d, hw⟩ := h
  exact ⟨w, [s], d, .last hw⟩

inductive ProgramVerdict (named : Token → Prop) (ts : List Token) : Prop
  | accepts (us : List Token) (t : Token) (vs : List Token) (program : Program) (d : Nat) :
    ts = us ++ t :: vs → t.kind = .eof → DerivesProgram (us.map Token.kind) program d →
    Outcome ((us ++ [t]).map .ok) (.ok program) → ProgramVerdict named ts
  | refuses (us : List Token) (t : Token) (vs : List Token) (expected : String) :
    ts = us ++ t :: vs → BeginsProgram (us.map Token.kind) →
    Outcome ((us ++ [t]).map .ok) (.error (t.unexpected expected)) → ProgramVerdict named ts
  | tooDeep (t : Token) : named t → Outcome (ts.map .ok) (.error (tooDeep t)) →
    ProgramVerdict named ts
  | lacks : (∀ t ∈ ts, t.kind ≠ .eof) →
    (∀ e, Outcome (ts.map .ok ++ [.error e]) (.error e)) → ProgramVerdict named ts

/-- The tokens `us` make one round of the loop. It works up them alone, and puts what it has read
in front of what the later rounds read. -/
structure IsRound (us vs : List Token) (read : Program) : Prop where
  ne_nil : us ≠ []
  no_eof : ∀ t ∈ us, t.kind ≠ .eof
  step : ∀ ⦃p : Parser⦄ ⦃zs : List Token⦄ ⦃more : List Token.Item⦄ (rounds index : Nat),
    zs.head? = vs.head? → p.pending = (us ++ zs).map .ok ++ more →
    ∃ (q : Parser) (index' : Nat), q.pending = zs.map .ok ++ more ∧
      (p.run (statements (rounds + 1) index)).1 =
        (q.run (statements rounds index')).1.map (read ++ ·)
  derives : ∀ ⦃w : List Token.Kind⦄ ⦃program : Program⦄ ⦃d : Nat⦄, DerivesProgram w program d →
    ∃ d', DerivesProgram (us.map Token.kind ++ w) (read ++ program) d'

namespace IsRound
variable {read : Program}

theorem outcome (h : IsRound us vs read) (hzs : zs.head? = vs.head?) {tail : List Token.Item}
    {r : Except Error Program} (hr : Outcome (zs.map .ok ++ tail) r) :
    Outcome ((us ++ zs).map .ok ++ tail) (r.map (read ++ ·)) := by
  intro p more rounds index hrounds hp
  have hlength : 0 < us.length := List.length_pos_iff.mpr h.ne_nil
  simp only [List.length_append, List.length_map] at hrounds
  obtain ⟨rounds, rfl⟩ : ∃ n, rounds = n + 1 := ⟨rounds - 1, by omega⟩
  rw [List.append_assoc] at hp
  obtain ⟨q, index', hq, hrun⟩ := h.step rounds index hzs hp
  rw [hrun]
  refine congrArg (Except.map (read ++ ·)) (hr index' ?_ (by rw [hq, List.append_assoc]))
  simp only [List.length_append, List.length_map]
  omega

theorem verdict (h : IsRound us vs read) (hvs : ProgramVerdict named vs) :
    ProgramVerdict named (us ++ vs) := by
  have houtcome {zs : List Token} {r : Except Error Program} (hzs : zs.head? = vs.head?)
      (hr : Outcome (zs.map .ok) r) : Outcome ((us ++ zs).map .ok) (r.map (read ++ ·)) := by
    have hnil : Outcome (zs.map .ok ++ []) r := by rwa [List.append_nil]
    simpa only [List.append_nil] using h.outcome hzs hnil
  cases hvs with
  | accepts us' t vs' program d hvs ht hprogram hr =>
    subst hvs
    obtain ⟨d', hderives⟩ := h.derives hprogram
    refine .accepts (us ++ us') t vs' (read ++ program) d' (List.append_assoc ..).symm ht ?_ ?_
    · rwa [List.map_append]
    · rw [List.append_assoc]
      exact houtcome (by simp) hr
  | refuses us' t vs' expected hvs hviable hr =>
    subst hvs
    refine .refuses (us ++ us') t vs' expected (List.append_assoc ..).symm ?_ ?_
    · obtain ⟨w, program, d, hw⟩ := hviable
      obtain ⟨d', hderives⟩ := h.derives hw
      exact ⟨w, read ++ program, d', by rwa [List.map_append, List.append_assoc]⟩
    · rw [List.append_assoc]
      exact houtcome (by simp) hr
  | tooDeep t ht hr => exact .tooDeep t ht (houtcome rfl hr)
  | lacks hvs hr =>
    exact .lacks (List.forall_mem_append.mpr ⟨h.no_eof, hvs⟩) fun e => h.outcome rfl (hr e)

end IsRound

theorem isRound_blank (ht : t.kind = .newline) (vs : List Token) : IsRound [t] vs [] where
  ne_nil := List.cons_ne_nil _ _
  no_eof := by simp [ht]
  step := by
    intro p zs more rounds index hzs hp
    obtain ⟨q, hpeek, hq⟩ := run_peek_of_pending hp
    obtain ⟨q', hadvance, hq'⟩ := run_advance_of_pending (hq.trans hp)
    refine ⟨q', index, hq', ?_⟩
    rw [statements, moves_peek, run_bind_of_ok hpeek, ht]
    dsimp only
    rw [moves_advance, run_discard_bind, run_bind_of_ok hadvance]
    rcases q'.run (statements rounds index) with ⟨_ | _, _⟩ <;> rfl
  derives := by
    intro w program d hw
    exact ⟨d, by simpa [ht] using .blank hw⟩

theorem isRound_line {us' : List Token} {s : Statement} {d : Nat} (ht : ¬ t.kind.isTerminator)
    (hhead : us.head? = some t)
    (hus : ∀ t ∈ us, t.kind ≠ .eof) (hs : DerivesStatement (us.map Token.kind) s d)
    (hstatement : Consumes statement us (us' ++ vs) s) (hend : Consumes endStatement us' vs ())
    (hus' : us'.map Token.kind = [.newline]) : IsRound (us ++ us') vs [s] where
  ne_nil := by
    rw [ne_eq, List.append_eq_nil_iff]
    rintro ⟨rfl, -⟩
    cases hhead
  no_eof := by
    refine List.forall_mem_append.mpr ⟨hus, fun t ht => ?_⟩
    have hmem := List.mem_map_of_mem (f := Token.kind) ht
    rw [hus', List.mem_singleton] at hmem
    rw [hmem]
    nofun
  step := by
    intro p zs more rounds index hzs hp
    obtain ⟨us, rfl⟩ := List.head?_eq_some_iff.mp hhead
    obtain ⟨q, hrun, hq⟩ := run_statements_of_pending rounds index ht hp
    rw [hp, List.append_assoc] at hq
    have hnext : (us' ++ zs).head? = (us' ++ vs).head? := by
      rw [List.head?_append, List.head?_append, hzs]
    obtain ⟨q₁, hrun₁, hq₁⟩ := hstatement hnext hq
    obtain ⟨q₂, hrun₂, hq₂⟩ := hend
      (p := { q₁ with events := .statementParsed index s :: q₁.events }) hzs hq₁
    refine ⟨q₂, index + 1, hq₂, ?_⟩
    rw [hrun, statementsFrom, run_bind_of_ok hrun₁, run_report_bind, run_bind_of_ok hrun₂]
    exact run_bind_cons_fst _ s
  derives := by
    intro w program d' hw
    exact ⟨max d d', by simpa [hus'] using .line hs hw⟩

/-- At the end of file nothing more is read, with or without a round left to see it. -/
theorem run_statements_of_eof {p : Parser} {rest : List Token.Item} (rounds index : Nat)
    (ht : t.kind = .eof) (hp : p.pending = .ok t :: rest) :
    (p.run (statements rounds index)).1 = .ok [] := by
  cases rounds with
  | zero => rfl
  | succ rounds =>
    obtain ⟨q, hpeek, -⟩ := run_peek_of_pending hp
    rw [statements, moves_peek, run_bind_of_ok hpeek, ht]
    rfl

theorem outcome_last {s : Statement} (ht : ¬ t.kind.isTerminator) (hhead : us.head? = some t)
    {u : Token} (hu : u.kind = .eof) (hstatement : Consumes statement us (u :: vs) s)
    (hend : Consumes endStatement [] (u :: vs) ()) :
    Outcome ((us ++ [u]).map .ok) (.ok [s]) := by
  obtain ⟨us, rfl⟩ := List.head?_eq_some_iff.mp hhead
  rintro p more (_ | rounds) index hrounds hp
  · cases hrounds
  · obtain ⟨q, hrun, hq⟩ := run_statements_of_pending rounds index ht hp
    have hnext : [u].head? = (u :: vs).head? := rfl
    obtain ⟨q₁, hrun₁, hq₁⟩ := hstatement hnext (hq.trans hp)
    obtain ⟨q₂, hrun₂, hq₂⟩ := hend
      (p := { q₁ with events := .statementParsed index s :: q₁.events }) hnext hq₁
    rw [hrun, statementsFrom, run_bind_of_ok hrun₁, run_report_bind, run_bind_of_ok hrun₂]
    refine (run_bind_cons_fst _ s).trans ?_
    rw [run_statements_of_eof rounds (index + 1) hu hq₂]
    rfl

theorem verdict_after_statement {rest : List Token} {s : Statement} {d : Nat}
    (ht : ¬ t.kind.isTerminator) (hhead : us.head? = some t) (hus : ∀ t ∈ us, t.kind ≠ .eof)
    (hs : DerivesStatement (us.map Token.kind) s d) (hstatement : Consumes statement us rest s)
    (hlater : ∀ us' vs, rest = us' ++ vs → ProgramVerdict named vs) :
    ProgramVerdict named (us ++ rest) := by
  have hheads (zs : List Token) : (us ++ zs).head? = some t := by
    rw [List.head?_append, hhead, Option.some_or]
  have hverdict : Verdict named _ _ endStatement rest := verdict_endStatement
  cases hverdict with
  | refuses us' u vs expected hrest hx hviable =>
    subst hviable hrest
    refine .refuses us u vs expected rfl ⟨[], [s], d, ?_⟩ ?_
    · rw [List.append_nil]
      exact .last hs
    · exact Refuses.outcome ht (hheads _) fun rounds index =>
        hstatement.bind_refuses rfl ((consumes_report _ _).bind_refuses rfl hx.bind)
  | tooDeep u hx hu =>
    exact .tooDeep u hu (Refuses.outcome ht (hheads _) fun rounds index =>
      hstatement.bind_refuses rfl ((consumes_report _ _).bind_refuses rfl hx.bind))
  | lacks heof hx =>
    exact .lacks (List.forall_mem_append.mpr ⟨hus, heof⟩)
      (Lacks.outcome ht (hheads _) fun rounds index =>
        hstatement.bind_lacks ((consumes_report _ _).bind_lacks hx.bind))
  | consumes us' vs _ hrest hus' hend hspells =>
    rcases hspells with hnewline | ⟨rfl, u, vs, rfl, hu⟩
    · have hround : IsRound (us ++ us') vs [s] :=
        isRound_line ht hhead hus hs (hrest ▸ hstatement) hend hnewline
      rw [hrest, ← List.append_assoc]
      exact hround.verdict (hlater us' vs hrest)
    · subst hrest
      exact .accepts us u vs [s] d rfl hu (.last hs) (outcome_last ht hhead hu hstatement hend)

theorem verdict_program (hts : ∀ t ∈ ts, named t) : ProgramVerdict named ts := by
  -- every round of the loop uses up a token
  induction hn : ts.length using Nat.strongRecOn generalizing ts with
  | _ n ih =>
    cases ts with
    | nil =>
      refine .lacks (by simp) fun e => ?_
      rintro p more (_ | rounds) index hrounds hp
      · cases hrounds
      · obtain ⟨q, hrun⟩ := lacks_peek hp
        rw [statements, moves_peek, run_bind_of_error hrun]
    | cons t vs =>
      by_cases hterminator : t.kind.isTerminator
      · rcases isTerminator_iff.mp hterminator with hk | hk
        · refine (isRound_blank hk vs).verdict (ih vs.length ?_ (List.forall_mem_cons.mp hts).2 rfl)
          rw [← hn, List.length_cons]
          exact Nat.lt_succ_self _
        · refine .accepts [] t vs [] 0 rfl hk .empty ?_
          intro p more rounds index hrounds hp
          exact run_statements_of_eof rounds index hk hp
      · cases verdict_statement hts with
        | refuses us u vs' expected heq hx hviable =>
          refine .refuses us u vs' expected heq hviable.begins ?_
          refine Refuses.outcome hterminator ?_ fun rounds index => hx.bind
          have hhead := congrArg List.head? heq
          rw [List.head?_append, List.head?_cons] at hhead ⊢
          exact hhead.symm
        | tooDeep u hx hu =>
          exact .tooDeep u hu (Refuses.outcome hterminator rfl fun rounds index => hx.bind)
        | lacks heof hx =>
          exact .lacks heof (Lacks.outcome hterminator rfl fun rounds index => hx.bind)
        | consumes us rest s heq hus hstatement hs =>
          obtain ⟨u, us, rfl⟩ := List.exists_cons_of_ne_nil hs.ne_nil
          obtain ⟨d, hderives⟩ := hs
          obtain ⟨rfl, hvs⟩ := List.cons.inj heq
          rw [heq]
          refine verdict_after_statement hterminator rfl hus hderives hstatement ?_
          rintro us' vs' rfl
          refine ih vs'.length ?_ (fun v hv => hts v ?_) rfl
          · rw [← hn, heq]
            simp only [List.length_append, List.length_cons]
            omega
          · rw [heq]
            simp [hv]

end Parser
end LineCalc
