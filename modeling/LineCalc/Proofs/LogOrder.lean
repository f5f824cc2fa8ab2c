import LineCalc.Proofs.Invocation
import LineCalc.Proofs.ReadingLog
import LineCalc.Proofs.Spacing

/-! The order of the log. The command reports the tokens as the parser takes them, a statement when
the first token behind it has been taken, the program when all of it has been read, and only then
the values. Every level shows the part of this one log that it admits. -/

namespace LineCalc

def Event.evaluated? : Event → Option (Nat × Statement × Number)
  | statementEvaluated i s x => some (i, s, x)
  | _ => none

inductive Event.Worded : Event → Record → Prop
  | sourceRead (source : String) (bytes : Nat) : Worded (.sourceRead source bytes)
    ⟨.info, "read program", [("source", source), ("bytes", toString bytes)]⟩
  | tokenRead (t : Token) : Worded (.tokenRead t)
    ⟨.trace, "token", [("kind", t.kind.logText), ("line", toString t.pos.line),
      ("column", toString t.pos.column)]⟩
  | statementParsed (i : Nat) (s : Statement) : Worded (.statementParsed i s)
    ⟨.debug, "parsed statement", [("index", toString i), ("statement", s.text)]⟩
  | programParsed (n : Nat) : Worded (.programParsed n)
    ⟨.debug, "parsed program", [("statements", toString n)]⟩
  | statementEvaluated (i : Nat) (s : Statement) (x : Number) : Worded (.statementEvaluated i s x)
    ⟨.debug, "evaluated statement",
      [("index", toString i), ("statement", s.text), ("value", x.valueText)]⟩
  | statementFailed (i : Nat) (s : Statement) (e : EvalError) : Worded (.statementFailed i s e)
    ⟨.debug, "statement failed",
      [("index", toString i), ("statement", s.text), ("error", e.message)]⟩
  | runComplete (n stored : Nat) : Worded (.runComplete n stored)
    ⟨.info, "run complete", [("statements", toString n), ("variables", toString stored)]⟩
  | assigned (name : String) (x : Number) : Worded (.assigned name x)
    ⟨.info, "assignment", [("name", name), ("value", x.valueText)]⟩

theorem Event.worded_record (event : Event) : event.Worded event.record := by
  cases event <;> constructor

namespace Parser
open Grammar
variable {index : Nat} {items : List Token.Item} {r : Except Error Program} {log : List Event}

theorem filterMap_token?_map (us : List Token) :
    (us.map Event.tokenRead).filterMap Event.token? = us := by
  rw [List.filterMap_map]
  exact List.filterMap_some

theorem filterMap_token?_report (us : List Token) (i : Nat) (s : Statement) (log : List Event) :
    (us.map Event.tokenRead ++ Event.statementParsed i s :: log).filterMap Event.token? =
      us ++ log.filterMap Event.token? := by
  rw [List.filterMap_append, filterMap_token?_map]
  rfl

theorem filterMap_parsed?_map (us : List Token) :
    (us.map Event.tokenRead).filterMap Event.parsed? = [] := by
  simp [List.filterMap_map, Event.parsed?]

theorem filterMap_parsed?_report (us : List Token) (i : Nat) (s : Statement) (log : List Event) :
    (us.map Event.tokenRead ++ Event.statementParsed i s :: log).filterMap Event.parsed? =
      (i, s) :: log.filterMap Event.parsed? := by
  rw [List.filterMap_append, filterMap_parsed?_map]
  rfl

theorem IsStream.eq_nil {t : Token} (h : IsStream (.ok t :: items)) (ht : t.kind = .eof) :
    items = [] := by
  cases h with
  | eof => rfl
  | cons hk => exact absurd ht hk

theorem IsStream.eq_nil_of_mem {us : List Token} {t : Token} (h : IsStream (us.map .ok ++ items))
    (ht : t ∈ us) (hk : t.kind = .eof) : items = [] := by
  induction us with
  | nil => cases ht
  | cons u us ih =>
    by_cases hu : u.kind = .eof
    · exact (List.append_eq_nil_iff.mp (h.eq_nil hu)).2
    · refine ih (h.tail hu) ((List.mem_cons.mp ht).resolve_left ?_)
      rintro rfl
      exact hu hk

namespace Reading

theorem exists_eof (h : Reading index items r log) {program : Program} (hr : r = .ok program) :
    ∃ t ∈ log.filterMap Event.token?, t.kind = .eof := by
  induction h generalizing program with
  | @finished _ t _ ht => exact ⟨t, by simp [Event.token?], ht⟩
  | @blank _ t _ _ _ _ _ ih =>
    obtain ⟨u, hu, hk⟩ := ih hr
    exact ⟨u, List.mem_cons_of_mem t hu, hk⟩
  | @line _ _ _ r _ _ _ _ _ _ ih =>
    cases r with
    | error e => cases hr
    | ok later =>
      obtain ⟨u, hu, hk⟩ := ih rfl
      rw [filterMap_token?_report]
      exact ⟨u, List.mem_append_right _ hu, hk⟩
  | @last _ _ _ _ t _ ht =>
    rw [filterMap_token?_report]
    exact ⟨t, by simp, ht⟩
  | refused => cases hr
  | broken => cases hr

theorem items_eq (h : Reading index items r log) :
    ∃ rest, items = (log.filterMap Event.token?).map .ok ++ rest := by
  induction h with
  | @finished _ t items _ => exact ⟨items, rfl⟩
  | @blank _ t _ _ _ _ _ ih =>
    obtain ⟨rest, rfl⟩ := ih
    exact ⟨rest, rfl⟩
  | line _ _ _ ih =>
    obtain ⟨rest, rfl⟩ := ih
    refine ⟨rest, ?_⟩
    rw [filterMap_token?_report]
    simp
  | @last _ items | @refused _ items =>
    exact ⟨items, by rw [filterMap_token?_report, List.filterMap_nil, List.append_nil]⟩
  | @broken _ items => exact ⟨items, by rw [filterMap_token?_map]⟩

theorem parsed_eq (h : Reading index items r log) : ∃ read : Program,
    log.filterMap Event.parsed? = read.mapIdx (fun i s => (index + i, s)) ∧
      ∀ program, r = .ok program → read = program := by
  induction h with
  | finished => exact ⟨[], rfl, fun program hr => Except.ok.inj hr⟩
  | blank _ _ ih => exact ih
  | @line index _ s r _ _ _ _ _ _ ih =>
    obtain ⟨read, hlog, hread⟩ := ih
    refine ⟨s :: read, ?_, fun program hr => ?_⟩
    · rw [filterMap_parsed?_report, hlog, List.mapIdx_cons]
      congr 2
      funext i s
      rw [Nat.add_right_comm, Nat.add_assoc]
    · cases r with
      | error e => cases hr
      | ok later =>
        rw [hread later rfl]
        exact Except.ok.inj hr
  | @last _ _ s =>
    exact ⟨[s], filterMap_parsed?_report .., fun program hr => Except.ok.inj hr⟩
  | @refused _ _ s =>
    exact ⟨[s], filterMap_parsed?_report .., fun program hr => by cases hr⟩
  | broken => exact ⟨[], filterMap_parsed?_map _, fun program hr => by cases hr⟩

theorem programParsed_not_mem (h : Reading index items r log) (n : Nat) :
    .programParsed n ∉ log := by
  induction h with
  | finished => simp
  | blank _ _ ih => simpa using ih
  | line _ _ _ ih => simpa using ih
  | last => simp
  | refused => simp
  | broken => simp

end Reading

theorem split_tokens (us : List Token) {before after : List Event} {i : Nat} {s : Statement}
    (h : us.map .tokenRead ++ log = before ++ .statementParsed i s :: after) :
    ∃ later, before = us.map .tokenRead ++ later ∧
      log = later ++ .statementParsed i s :: after := by
  induction us generalizing before with
  | nil => exact ⟨before, rfl, h⟩
  | cons u us ih =>
    cases before with
    | nil => cases h
    | cons e before =>
      obtain ⟨rfl, htail⟩ := List.cons.inj h
      obtain ⟨later, rfl, hlog⟩ := ih htail
      exact ⟨later, rfl, hlog⟩

/-- The tokens `us` reach just past statement `i`, which is `s`: they are the lines of the statements
before it from number `index` on, its own tokens, and one token behind them. -/
inductive JustPast : Nat → Nat → Statement → List Token → Prop
  | own {index s} {body : List Token} {t : Token} : Completes body t s →
    JustPast index index s (body ++ [t])
  | blank {index i s us} {t : Token} : t.kind = .newline → JustPast index i s us →
    JustPast index i s (t :: us)
  | line {index i s s' us} {body : List Token} {t : Token} : Completes body t s' →
    t.kind = .newline → JustPast (index + 1) i s us → JustPast index i s (body ++ [t] ++ us)

/-- When statement `i` is reported, the tokens taken reach just past it, and the last of them was the
last event. It ends the statement, or it is refused and nothing is reported after it. -/
structure OneAhead (index i : Nat) (s : Statement) (r : Except Error Program)
    (before after : List Event) : Prop where
  just_past : JustPast index i s (before.filterMap Event.token?)
  last : ∃ t, before.getLast? = some (.tokenRead t) ∧
    (t.kind.isTerminator ∨ r = .error (t.unexpected "operator or end of line") ∧ after = [])

section
variable {i : Nat} {s s' : Statement} {body us : List Token} {t : Token} {before after : List Event}
  {rest : List Token.Item}

theorem Completes.not_isTerminator (h : Completes body t s) {u : Token}
    (heq : (body ++ [t]).map .ok ++ rest = .ok u :: items) : ¬ u.kind.isTerminator := by
  obtain ⟨v, later, rfl, hv⟩ := h.exists_cons
  obtain ⟨hu, -⟩ := List.cons.inj heq
  obtain rfl := Except.ok.inj hu
  exact hv

theorem JustPast.of_terminator (h : JustPast index i s us) (ht : t.kind.isTerminator)
    (heq : us.map .ok ++ rest = .ok t :: items) :
    t.kind = .newline ∧ ∃ us', JustPast index i s us' ∧ us'.map .ok ++ rest = items := by
  cases h with
  | own hs => exact absurd ht (hs.not_isTerminator heq)
  | blank hk hus =>
    obtain ⟨hu, hitems⟩ := List.cons.inj heq
    obtain rfl := Except.ok.inj hu
    exact ⟨hk, _, hus, hitems⟩
  | line hs _ _ =>
    rw [List.map_append, List.append_assoc] at heq
    exact absurd ht (hs.not_isTerminator heq)

theorem JustPast.of_completes (h : JustPast index i s us) (hs' : Completes body t s')
    (heq : us.map .ok ++ rest = (body ++ [t]).map .ok ++ items) :
    (i = index ∧ s = s') ∨ t.kind = .newline ∧
      ∃ us', JustPast (index + 1) i s us' ∧ us'.map .ok ++ rest = items := by
  cases h with
  | own hs =>
    obtain ⟨-, -, rfl, -⟩ := hs.unique hs' heq
    exact .inl ⟨rfl, rfl⟩
  | blank hk _ =>
    exact absurd (isTerminator_iff.mpr (.inl hk)) (hs'.not_isTerminator heq.symm)
  | line hs hk hus =>
    rw [List.map_append, List.append_assoc] at heq
    obtain ⟨-, rfl, -, hitems⟩ := hs.unique hs' heq
    exact .inr ⟨hk, _, hus, hitems⟩

theorem JustPast.not_incomplete (h : JustPast index i s us) :
    ¬ Incomplete (us.map .ok ++ rest) := by
  intro hnone
  cases h with
  | own hs => exact hnone.no_statement _ _ _ _ rfl hs
  | blank hk _ => exact hnone.inner _ _ rfl (isTerminator_iff.mpr (.inl hk))
  | line hs _ _ =>
    rw [List.map_append, List.append_assoc] at hnone
    exact hnone.no_statement _ _ _ _ rfl hs

theorem Reading.reported (h : Reading index items r log) (hus : JustPast index i s us)
    (heq : us.map .ok ++ rest = items) : .statementParsed i s ∈ log := by
  induction h generalizing us with
  | finished ht =>
    obtain ⟨hk, -⟩ := hus.of_terminator (isTerminator_iff.mpr (.inr ht)) heq
    cases ht.symm.trans hk
  | blank ht _ ih =>
    obtain ⟨-, us', hus', heq'⟩ := hus.of_terminator (isTerminator_iff.mpr (.inl ht)) heq
    exact List.mem_cons_of_mem _ (ih hus' heq')
  | line hs' _ _ ih =>
    obtain ⟨rfl, rfl⟩ | ⟨-, us', hus', heq'⟩ := hus.of_completes hs' heq
    · simp
    · exact List.mem_append_right _ (List.mem_cons_of_mem _ (ih hus' heq'))
  | last hs' ht =>
    obtain ⟨rfl, rfl⟩ | ⟨hk, -⟩ := hus.of_completes hs' heq
    · simp
    · cases ht.symm.trans hk
  | refused hs' ht =>
    obtain ⟨rfl, rfl⟩ | ⟨hk, -⟩ := hus.of_completes hs' heq
    · simp
    · exact absurd (isTerminator_iff.mpr (.inl hk)) ht
  | broken hnone => exact absurd (heq ▸ hnone) hus.not_incomplete

theorem oneAhead_own (hs : Completes body t s)
    (ht : t.kind.isTerminator ∨
      r = .error (t.unexpected "operator or end of line") ∧ after = []) :
    OneAhead index index s r ((body ++ [t]).map .tokenRead) after := by
  refine ⟨?_, t, by simp, ht⟩
  rw [filterMap_token?_map]
  exact .own hs

theorem oneAhead_only (hs' : Completes body t s')
    (ht : t.kind.isTerminator ∨ r = .error (t.unexpected "operator or end of line"))
    (hlog : (body ++ [t]).map .tokenRead ++ [.statementParsed index s'] =
      before ++ .statementParsed i s :: after) : OneAhead index i s r before after := by
  obtain ⟨later, rfl, hlater⟩ := split_tokens _ hlog
  cases later with
  | nil =>
    cases hlater
    rw [List.append_nil]
    exact oneAhead_own hs' (ht.imp_right fun hr => ⟨hr, rfl⟩)
  | cons e later => simp at hlater

theorem getLast?_append_of_some {u v : List Event} {e : Event} (h : v.getLast? = some e) :
    (u ++ v).getLast? = some e := by
  rw [List.getLast?_append, h, Option.some_or]

theorem OneAhead.blank (h : OneAhead index i s r before after) (ht : t.kind = .newline) :
    OneAhead index i s r (.tokenRead t :: before) after := by
  obtain ⟨hus, u, hlast, hu⟩ := h
  exact ⟨.blank ht hus, u, getLast?_append_of_some (u := [.tokenRead t]) hlast, hu⟩

theorem OneAhead.line (h : OneAhead (index + 1) i s r before after) (ht : t.kind = .newline)
    (hs' : Completes body t s') :
    OneAhead index i s (r.map (s' :: ·))
      ((body ++ [t]).map .tokenRead ++ .statementParsed index s' :: before) after := by
  obtain ⟨hus, u, hlast, hu⟩ := h
  refine ⟨?_, u, getLast?_append_of_some (getLast?_append_of_some (u := [_]) hlast), ?_⟩
  · rw [filterMap_token?_report]
    exact .line hs' ht hus
  · refine hu.imp_right ?_
    rintro ⟨rfl, hafter⟩
    exact ⟨rfl, hafter⟩

theorem Reading.oneAhead (h : Reading index items r log)
    (hlog : log = before ++ .statementParsed i s :: after) :
    OneAhead index i s r before after := by
  induction h generalizing before with
  | @finished _ t _ _ =>
    obtain ⟨later, -, hnil⟩ := split_tokens [t] hlog
    simp at hnil
  | @blank _ t _ _ log ht _ ih =>
    obtain ⟨later, rfl, hlater⟩ := split_tokens [t] hlog
    exact (ih hlater).blank ht
  | line hs' ht _ ih =>
    obtain ⟨later, rfl, hlater⟩ := split_tokens _ hlog
    cases later with
    | nil =>
      cases hlater
      rw [List.append_nil]
      exact oneAhead_own hs' (.inl (isTerminator_iff.mpr (.inl ht)))
    | cons e later =>
      obtain ⟨rfl, htail⟩ := List.cons.inj hlater
      exact (ih htail).line ht hs'
  | last hs' ht => exact oneAhead_only hs' (.inl (isTerminator_iff.mpr (.inr ht))) hlog
  | refused hs' _ => exact oneAhead_only hs' (.inr rfl) hlog
  | @broken _ _ _ us _ =>
    rw [← List.append_nil (us.map _)] at hlog
    obtain ⟨later, -, hnil⟩ := split_tokens _ hlog
    simp at hnil

theorem oneAhead_of_closing (h : Reading index items r log)
    (hlog : log ++ closing r = before ++ .statementParsed i s :: after) :
    OneAhead index i s r before after := by
  cases r with
  | error e =>
    rw [closing, List.append_nil] at hlog
    exact h.oneAhead hlog
  | ok program =>
    obtain ⟨later, -, hlater⟩ | ⟨later, hlog, hlater⟩ := List.append_eq_append_iff.mp hlog
    · have hmem : .statementParsed i s ∈ closing (.ok program) := by simp [hlater]
      simp [closing] at hmem
    · cases later with
      | nil => cases hlater
      | cons e later =>
        obtain ⟨rfl, -⟩ := List.cons.inj hlater
        obtain ⟨hus, t, hlast, ht⟩ := h.oneAhead hlog
        exact ⟨hus, t, hlast, .inl (ht.resolve_right fun hr => by cases hr.1)⟩

theorem statementParsed_mem_iff (h : Reading index items r log) :
    .statementParsed i s ∈ log ↔
      ∃ us rest, items = us.map .ok ++ rest ∧ JustPast index i s us := by
  constructor
  · intro hmem
    obtain ⟨before, after, hlog⟩ := List.append_of_mem hmem
    obtain ⟨rest, hitems⟩ := h.items_eq
    rw [hlog, List.filterMap_append, List.map_append, List.append_assoc] at hitems
    exact ⟨_, _, hitems, (h.oneAhead hlog).just_past⟩
  · rintro ⟨us, rest, hitems, hus⟩
    exact h.reported hus hitems.symm

theorem eq_nil_of_closing (h : Reading index items r log) {n : Nat}
    (hlog : log ++ closing r = before ++ .programParsed n :: after) : after = [] := by
  have hlength : (closing r).length ≤ 1 := by cases r <;> simp [closing]
  obtain ⟨later, -, hlater⟩ | ⟨later, rfl, hlater⟩ := List.append_eq_append_iff.mp hlog
  · rw [hlater, List.length_append, List.length_cons] at hlength
    exact List.eq_nil_of_length_eq_zero (by omega)
  · cases later with
    | nil =>
      rw [List.nil_append] at hlater
      rw [← hlater] at hlength
      simpa using hlength
    | cons e later =>
      obtain ⟨rfl, -⟩ := List.cons.inj hlater
      exact absurd (by simp) (h.programParsed_not_mem n)

end

end Parser

structure IsReadingLog (text : String) (log : List Event) : Prop where
  isParsing : ∀ event ∈ log, event.IsParsing
  /-- The tokens are those that the parser takes from the text. -/
  taken : ∃ taken, (Scanner.ofSource text).items =
      taken ++ (Parser.parse { unread := (Scanner.ofSource text).items }).2.unread ∧
    log.filterMap Event.token? = taken.filterMap Except.toOption
  tokens : ∃ rest, (Scanner.ofSource text).items = (log.filterMap Event.token?).map .ok ++ rest
  all_tokens : ∀ p, Program.ofSource text = .ok p →
    Token.scan text = .ok (log.filterMap Event.token?)
  statements : ∃ read : Program, log.filterMap Event.parsed? = read.mapIdx Prod.mk ∧
    ∀ p, Program.ofSource text = .ok p → read = p
  /-- The statements that are complete are reported, and no others. -/
  reported : ∀ i s, .statementParsed i s ∈ log ↔ ∃ us rest,
    (Scanner.ofSource text).items = us.map .ok ++ rest ∧ Parser.JustPast 0 i s us
  one_ahead : ∀ before i s after, log = before ++ .statementParsed i s :: after →
    Parser.OneAhead 0 i s (Program.ofSource text) before after
  program : ∀ n, .programParsed n ∈ log ↔ ∃ p, Program.ofSource text = .ok p ∧ p.length = n
  program_last : ∀ before n after, log = before ++ .programParsed n :: after → after = []

structure IsEvaluatingLog (text : String) (log : List Event) : Prop where
  not_isParsing : ∀ event ∈ log, ¬ event.IsParsing
  values : ∀ p, Program.ofSource text = .ok p → ∃ done rest values last stop,
    p = done ++ rest ∧ Session.Runs {} done values last ∧ last.Ends rest stop ∧
      log.filterMap Event.evaluated? = (done.zip values).mapIdx Prod.mk
  eq_nil : ∀ e, Program.ofSource text = .error e → log = []

namespace Command
variable {text : String}

theorem isReadingLog_of_parse (text : String) : IsReadingLog text
    (Parser.parse { unread := (Scanner.ofSource text).items }).2.events.reverse := by
  have hstream := Parser.isStream_items text
  have honly := (Program.ofSource_onlyReads text).2
  obtain ⟨log, hreading, hevents⟩ := Parser.reading_of_parse hstream
  change Parser.Reading 0 _ (Program.ofSource text) log at hreading
  change _ = log ++ Parser.closing (Program.ofSource text) at hevents
  -- behind the log of the statements there is at most the report of the program
  have htoken : (Parser.closing (Program.ofSource text)).filterMap Event.token? = [] := by
    cases Program.ofSource text <;> rfl
  have hparsed : (Parser.closing (Program.ofSource text)).filterMap Event.parsed? = [] := by
    cases Program.ofSource text <;> rfl
  have hprogram : ∀ n, .programParsed n ∈ Parser.closing (Program.ofSource text) ↔
      ∃ p, Program.ofSource text = .ok p ∧ p.length = n := by
    intro n
    cases Program.ofSource text <;> simp [Parser.closing, eq_comm]
  have hstatement : ∀ i s, .statementParsed i s ∉ Parser.closing (Program.ofSource text) := by
    intro i s
    cases Program.ofSource text <;> simp [Parser.closing]
  obtain ⟨rest, hitems⟩ := hreading.items_eq
  obtain ⟨read, hread, hall⟩ := hreading.parsed_eq
  refine ⟨fun event h => honly event (List.mem_reverse.mp h), Parser.names_parse _,
    ?_, ?_, ?_, ?_, ?_, ?_, ?_⟩ <;> rw [hevents]
  · rw [List.filterMap_append, htoken, List.append_nil]
    exact ⟨rest, hitems⟩
  · intro p hp
    obtain ⟨t, ht, heof⟩ := hreading.exists_eof hp
    rw [hitems] at hstream
    obtain rfl := hstream.eq_nil_of_mem ht heof
    rw [List.append_nil] at hitems
    rw [List.filterMap_append, htoken, List.append_nil]
    change (Scanner.ofSource text).items.mapM id = _
    rw [hitems, Token.mapM_ok]
  · rw [List.filterMap_append, hparsed, List.append_nil, hread]
    exact ⟨read, by simp only [Nat.zero_add], hall⟩
  · intro i s
    rw [List.mem_append, or_iff_left (hstatement i s)]
    exact Parser.statementParsed_mem_iff hreading
  · exact fun before i s after => Parser.oneAhead_of_closing hreading
  · intro n
    rw [List.mem_append, ← hprogram]
    exact or_iff_right (hreading.programParsed_not_mem n)
  · intro before n after hlog
    exact Parser.eq_nil_of_closing hreading hlog

end Command

namespace Program
variable {m last : Session} {done rest : Program} {values : List Number} {stop : Option EvalError}

theorem filterMap_evaluated?_attempts (h : m.Runs done values last) (hends : last.Ends rest stop)
    (k : Nat) :
    (((done ++ rest).attempts m).1.mapIdx fun i a => Command.attemptEvent (k + i) a).filterMap
      Event.evaluated? = (done.zip values).mapIdx fun i r => (k + i, r) := by
  induction h generalizing k with
  | nil m =>
    cases hends with
    | finished => rfl
    | failed hs => simp [attempts, hs, Command.attemptEvent, Event.evaluated?]
  | @cons _ _ _ s _ x _ hs _ ih =>
    have hhead : Command.attemptEvent (k + 0) ⟨s, .ok x⟩ = .statementEvaluated k s x := rfl
    rw [List.cons_append, attempts_cons_of_ok hs, List.mapIdx_cons, hhead, List.zip_cons_cons,
      List.mapIdx_cons]
    have hlater := ih hends (k + 1)
    simp only [Nat.add_assoc, Nat.add_comm 1] at hlater
    exact congrArg ((k, s, x) :: ·) hlater

end Program

namespace Command
variable {text : String}

theorem not_isParsing_attemptEvent (i : Nat) (a : Attempt) : ¬ (attemptEvent i a).IsParsing := by
  unfold attemptEvent
  split <;> exact id

/-- A run that is complete has more to report, but no more values. -/
theorem emitValues_events {p : Program} (h : Program.ofSource text = .ok p) (trace : Bool) :
    ∃ later : List Event, (emitValues trace text).events =
      (Parser.parse { unread := (Scanner.ofSource text).items }).2.events.reverse ++
        ((p.attempts {}).1.mapIdx attemptEvent ++ later) ∧
      ∀ event ∈ later, event.evaluated? = none ∧ ¬ event.IsParsing := by
  unfold Program.ofSource at h
  simp only [emitValues, h]
  split
  · exact ⟨[], by simp⟩
  · refine ⟨_, List.append_assoc .., List.forall_mem_cons.mpr ⟨⟨rfl, id⟩, fun event hevent => ?_⟩⟩
    cases trace with
    | false => cases hevent
    | true =>
      obtain ⟨assignment, -, rfl⟩ := List.mem_map.mp hevent
      exact ⟨rfl, id⟩

theorem exists_isEvaluatingLog (trace : Bool) (text : String) : ∃ evaluating,
    IsEvaluatingLog text evaluating ∧ (emitValues trace text).events =
      (Parser.parse { unread := (Scanner.ofSource text).items }).2.events.reverse ++
        evaluating := by
  cases hsource : Program.ofSource text with
  | error e =>
    refine ⟨[], ⟨by simp, fun p hp => ?_, fun _ _ => rfl⟩, ?_⟩
    · cases hsource.symm.trans hp
    · unfold Program.ofSource at hsource
      simp only [emitValues, hsource, List.append_nil]
  | ok p =>
    obtain ⟨later, hevents, hlater⟩ := emitValues_events hsource trace
    have hvalues : later.filterMap Event.evaluated? = [] :=
      List.filterMap_eq_nil_iff.mpr fun event h => (hlater event h).1
    refine ⟨_, ⟨?_, fun p' hp' => ?_, fun e he => ?_⟩, hevents⟩
    · intro event hevent
      rcases List.mem_append.mp hevent with h | h
      · obtain ⟨i, hi, rfl⟩ := List.mem_mapIdx.mp h
        exact not_isParsing_attemptEvent i _
      · exact (hlater event h).2
    · obtain rfl : p = p' := Except.ok.inj (hsource.symm.trans hp')
      obtain ⟨done, rest, values, last, stop, rfl, hruns, hends⟩ := Session.exists_runs {} p
      refine ⟨done, rest, values, last, stop, rfl, hruns, hends, ?_⟩
      rw [List.filterMap_append, hvalues, List.append_nil]
      have hreports := Program.filterMap_evaluated?_attempts hruns hends 0
      simp only [Nat.zero_add] at hreports
      exact hreports
    · cases hsource.symm.trans he

theorem forall₂_worded (events : List Event) :
    List.Forall₂ Event.Worded events (events.map Event.record) := by
  rw [List.forall₂_map_right_iff, List.forall₂_same]
  exact fun event _ => event.worded_record

theorem admits_trace (level : Level) : Verbosity.admits (some .trace) level := by
  cases level <;> rfl

/-- The log of a run for values reports every token that is taken, every complete statement just
behind the one token that follows it, the program if there is one, and then the values. A host that
shows the records of some levels shows these of the one log, in its order. -/
theorem log_reads_one_token_ahead (host : Host) (o : Options) (text : String) :
    ∃ events reading evaluating records exit stdout failure ending,
      events = .sourceRead o.source.text text.utf8ByteSize :: (reading ++ evaluating) ∧
      IsReadingLog text reading ∧ IsEvaluatingLog text evaluating ∧
      List.Forall₂ Event.Worded events records ∧
      Prints host .values text exit stdout failure ∧
      ending = (failure.map ("error: " ++ ·.message)).toList ∧
      ∀ (level : Level) (setting : Option String) (bytes : Except String ByteArray)
        (v : Verbosity), text? bytes = some text →
        (∀ record, host.shows setting level record = v.admits record.level) →
        let stderr := (run host { o with emit := .values, level } setting bytes).stderr
        stderr = (records.filter fun record => v.admits record.level).map host.line ++ ending ∧
          (v = some .trace → stderr = records.map host.line ++ ending) := by
  obtain ⟨evaluating, hevaluating, hevents⟩ := exists_isEvaluatingLog o.trace text
  obtain ⟨exit, stdout, failure, hprints⟩ := exists_prints_values host text
  refine ⟨_, _, evaluating, _, exit, stdout, failure, _, rfl, isReadingLog_of_parse text,
    hevaluating, forall₂_worded _, hprints, rfl, ?_⟩
  intro level setting bytes v htext hshows stderr
  -- neither the level nor the setting has a part in the work that is reported
  have hshown : host.shows setting level = fun record => v.admits record.level := funext hshows
  have hstderr : stderr = (run host { o with emit := .values, level } setting bytes).stderr := rfl
  have hends : (emitValues o.trace text).EndsWith exit stdout failure :=
    Prints.endsWith (o := { o with emit := .values, level }) hprints
  obtain ⟨-, -, hfailure⟩ := hends
  rw [run_of_text htext] at hstderr
  change stderr = shown host setting level (_ :: (emitValues o.trace text).events) ++
    ((emitValues o.trace text).failure.map _).toList at hstderr
  rw [hfailure, Option.map_map, hevents, shown, hshown] at hstderr
  refine ⟨hstderr, ?_⟩
  rintro rfl
  rw [hstderr, List.filter_eq_self.mpr fun record _ => admits_trace record.level]
  rfl

/-- The second number is refused, with the statement in front of it reported. -/
theorem log_reads_one_token_ahead_refused :
    let text := "1 2"
    let host := Host.standard
    let bytes := Except.ok text.toUTF8
    let parsed := ["INFO read program source=<stdin> bytes=3",
      "TRACE token kind=Number(1.0) line=1 column=1",
      "TRACE token kind=Number(2.0) line=1 column=3",
      "DEBUG parsed statement index=0 statement=1"]
    let ending := ["error: Syntax error at line 1, column 3: " ++
      "expected operator or end of line, found number `2`"]
    text? bytes = some text ∧
    (run host { level := .trace } none bytes).stderr = parsed ++ ending ∧
    (run host {} (some "info") bytes).stderr = parsed.take 1 ++ ending ∧
    ∃ reading evaluating records,
      IsReadingLog text reading ∧ IsEvaluatingLog text evaluating ∧
      List.Forall₂ Event.Worded (.sourceRead "<stdin>" 3 :: (reading ++ evaluating)) records ∧
      ∃ shown, records.map host.line ++ shown = parsed ++ ending ∧
        (records.filter fun record => Verbosity.admits (some .info) record.level).map host.line ++
          shown = parsed.take 1 ++ ending := by
  intro text host bytes parsed ending
  have htext : text? bytes = some text := by decide +kernel
  have htrace : (run host { level := .trace } none bytes).stderr = parsed ++ ending := by
    decide +kernel
  have hinfo : (run host {} (some "info") bytes).stderr = parsed.take 1 ++ ending := by
    decide +kernel
  obtain ⟨_, reading, evaluating, records, _, _, _, shown, rfl, hreading, hevaluating, hworded, -,
    -, hlog⟩ := log_reads_one_token_ahead host {} text
  obtain ⟨-, hall⟩ := hlog .trace none bytes (some .trace) htext fun _ => rfl
  have hset : Verbosity.ofSetting (some "info") .warn = some .info := by decide +kernel
  obtain ⟨hsome, -⟩ := hlog .warn (some "info") bytes (some .info) htext fun record =>
    congrArg (Verbosity.admits · record.level) hset
  exact ⟨htext, htrace, hinfo, reading, evaluating, records, hreading, hevaluating, hworded, shown,
    (hall rfl).symm.trans htrace, hsome.symm.trans hinfo⟩

end Command
end LineCalc
