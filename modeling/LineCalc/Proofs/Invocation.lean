import LineCalc.Command.Standard
import LineCalc.Proofs.Execution
import LineCalc.Proofs.FirstError
import LineCalc.Proofs.Invariant

/-! What the command prints and how it exits, whatever its host. Both are settled by the text of the
source and the kind of output asked for. The log is all that the other options and the setting in
the environment change. -/

namespace LineCalc

namespace Scanner
variable {source : String} {e : Error}

theorem inText_of_mem_items (h : .error e ∈ (ofSource source).items) : e.InText := by
  obtain ⟨tokens, last, hitems, -, hlast⟩ := items_eq_append source
  rw [hitems, List.mem_append, List.mem_singleton] at h
  rcases h with h | rfl
  · simp at h
  · obtain ⟨t, ht, -⟩ | ⟨c, pos, he⟩ := hlast
    · cases ht
    · cases he
      exact .inl rfl

theorem inText_of_scan (h : Token.scan source = .error e) : e.InText := by
  obtain ⟨tokens, hitems, -⟩ := items_of_scan_error h
  have hmem : .error e ∈ (ofSource source).items := by simp [hitems]
  exact inText_of_mem_items hmem

end Scanner

namespace Program
variable {m m' last : Session} {done rest : Program} {values : List Number}
  {stop : Option EvalError} {s : Statement} {x : Number}

theorem ofSource_onlyReads (source : String) :
    (∀ e, ofSource source = .error e → e.InText) ∧ ∀ event ∈
      (Parser.parse { unread := (Scanner.ofSource source).items }).2.events, event.IsParsing :=
  Parser.parse_onlyReads fun _ => Scanner.inText_of_mem_items

theorem inText_of_ofSource {source : String} {e : Error} (h : ofSource source = .error e) :
    e.InText := (ofSource_onlyReads source).1 e h

theorem attempts_cons_of_ok (h : s.exec m = .ok (x, m')) (p : Program) :
    attempts m (s :: p) = (⟨s, .ok x⟩ :: (p.attempts m').1, (p.attempts m').2) := by
  simp only [attempts, h]

theorem join_attemptLine (h : m.Runs done values last) (hends : last.Ends rest stop) :
    String.join (((done ++ rest).attempts m).1.map Command.attemptLine) =
      String.join (values.map (·.valueText ++ "\n")) := by
  induction h with
  | nil m =>
    cases hends with
    | finished => rfl
    | failed hs => simp [attempts, hs, Command.attemptLine]
  | cons hs _ ih =>
    rw [List.cons_append, attempts_cons_of_ok hs, List.map_cons, String.join_cons, ih hends,
      List.map_cons, String.join_cons]
    rfl

theorem mapM_result (h : m.Runs done values last) (hends : last.Ends rest stop) :
    ((done ++ rest).attempts m).1.mapM Attempt.result = stop.elim (.ok values) .error :=
  congrArg Prod.fst (execute_of_runs h hends)

end Program

namespace Command

def text? (bytes : Except String ByteArray) : Option String :=
  bytes.toOption.bind String.fromUTF8?

def cause : Except String ByteArray → String
  | .error reason => reason
  | .ok _ => "stream did not contain valid UTF-8"

section
variable {s : Source} {bytes : Except String ByteArray}

theorem contents_of_text {text : String} (h : text? bytes = some text) :
    s.contents bytes = .ok text := by
  cases bytes with
  | error e => cases h
  | ok bytes =>
    have hdecode : Source.decode bytes = .ok text := by
      unfold Source.decode
      rw [show String.fromUTF8? bytes = some text from h]
    cases s <;> simp only [Source.contents, hdecode]

end

/-- What a text leads to, for each kind of output: the exit status, the standard output and the
error that is reported. -/
inductive Prints (host : Host) : Emit → String → Nat → String → Option Error → Prop
  | values {text lines} : LineCalc.run text = .ok lines →
    Prints host .values text 0 (String.join (lines.map (· ++ "\n"))) none
  | failed {text done s rest values last e} : Program.ofSource text = .ok (done ++ s :: rest) →
    Session.Runs {} done values last → Statement.exec last s = .error e →
    Prints host .values text 70 (String.join (values.map (·.valueText ++ "\n")))
      (some (.evaluation e))
  | noValues {text e} : Program.ofSource text = .error e → Prints host .values text 65 "" (some e)
  | ast {text p json} : Program.ofSource text = .ok p → host.programJson p = .ok json →
    Prints host .ast text 0 (json ++ "\n") none
  | noAst {text e} : Program.ofSource text = .error e → Prints host .ast text 65 "" (some e)
  | tokens {text ts json} : Token.scan text = .ok ts → host.tokensJson ts = .ok json →
    Prints host .tokens text 0 (json ++ "\n") none
  | noTokens {text e} : Token.scan text = .error e → Prints host .tokens text 65 "" (some e)

theorem exitStatus_of_inText {e : Error} (h : e.InText) : (Failure.language e).exitStatus = 65 := by
  rcases h with h | h <;> simp only [Failure.exitStatus, h]

def Work.exit (w : Work) : Nat := w.failure.elim 0 Failure.exitStatus

def Work.EndsWith (w : Work) (exit : Nat) (stdout : String) (failure : Option Error) : Prop :=
  w.exit = exit ∧ w.stdout = stdout ∧ w.failure = failure.map .language

section
variable {α : Type} {json : α → Except String String} {result : Except Error α} {a : α}
  {spelled : String} {e : Error} {events : List Event}

theorem endsWith_spelled (h : result = .ok a) (hjson : json a = .ok spelled) :
    (Work.ofText events (spell json result)).EndsWith 0 (spelled ++ "\n") none := by
  have hspell : spell json result = .ok spelled := by
    rw [h]
    change (json a).mapError Failure.encoding = _
    rw [hjson]
    rfl
  rw [hspell]
  exact ⟨rfl, rfl, rfl⟩

theorem endsWith_inText (h : result = .error e) (he : e.InText) :
    (Work.ofText events (spell json result)).EndsWith 65 "" (some e) := by
  rw [h]
  exact ⟨exitStatus_of_inText he, rfl, rfl⟩

end

section
variable {host : Host} {text : String}

theorem emitValues_of_error {e : Error} (h : Program.ofSource text = .error e) (trace : Bool) :
    (emitValues trace text).EndsWith 65 "" (some e) := by
  have hexit := exitStatus_of_inText (Program.inText_of_ofSource h)
  unfold Program.ofSource at h
  simp only [emitValues, h]
  exact ⟨hexit, rfl, rfl⟩

theorem emitValues_of_runs {done rest : Program} {values : List Number} {last : Session}
    {stop : Option EvalError} (h : Program.ofSource text = .ok (done ++ rest))
    (hruns : Session.Runs {} done values last) (hends : last.Ends rest stop) (trace : Bool) :
    (emitValues trace text).EndsWith (if stop.isSome then 70 else 0)
      (String.join (values.map (·.valueText ++ "\n"))) (stop.map .evaluation) := by
  unfold Program.ofSource at h
  simp only [emitValues, h, Program.mapM_result hruns hends, Program.join_attemptLine hruns hends]
  cases stop <;> exact ⟨rfl, rfl, rfl⟩

theorem exists_prints_values (host : Host) (text : String) :
    ∃ exit stdout failure, Prints host .values text exit stdout failure := by
  cases h : Program.ofSource text with
  | error e => exact ⟨_, _, _, .noValues h⟩
  | ok p =>
    obtain ⟨done, rest, values, last, stop, rfl, hruns, hends⟩ := Session.exists_runs {} p
    cases hends with
    | finished =>
      rw [List.append_nil] at h
      exact ⟨_, _, _, .values (Program.run_eq_ok_iff.mpr ⟨done, values, last, h, hruns, rfl⟩)⟩
    | failed hs => exact ⟨_, _, _, .failed h hruns hs⟩

variable {o o' : Options} {exit : Nat} {stdout : String} {failure : Option Error}

theorem Prints.endsWith (h : Prints host o.emit text exit stdout failure) :
    (emit host o text).EndsWith exit stdout failure := by
  unfold emit
  generalize o.emit = kind at h
  cases h with
  | values hrun =>
    obtain ⟨p, values, last, hsource, hruns, rfl⟩ := Program.run_eq_ok_iff.mp hrun
    rw [← List.append_nil p] at hsource
    have hends := emitValues_of_runs hsource hruns .finished o.trace
    rwa [List.map_map]
  | failed hsource hruns hs => exact emitValues_of_runs hsource hruns (.failed hs) o.trace
  | noValues hsource => exact emitValues_of_error hsource o.trace
  | ast hsource hjson => exact endsWith_spelled hsource hjson
  | noAst hsource => exact endsWith_inText hsource (Program.inText_of_ofSource hsource)
  | tokens hscan hjson => exact endsWith_spelled hscan hjson
  | noTokens hscan => exact endsWith_inText hscan (Scanner.inText_of_scan hscan)

variable {setting setting' : Option String} {bytes bytes' : Except String ByteArray}

def shown (host : Host) (setting : Option String) (level : Level) (events : List Event) :
    List String :=
  ((events.map Event.record).filter (host.shows setting level)).map host.line

theorem run_of_text (h : text? bytes = some text) :
    run host o setting bytes = ⟨(emit host o text).exit, (emit host o text).stdout,
      shown host setting o.level
        (.sourceRead o.source.text text.utf8ByteSize :: (emit host o text).events) ++
          ((emit host o text).failure.map (complaint ·.message)).toList⟩ := by
  simp only [run, contents_of_text h, Work.exit, shown]
  cases (emit host o text).failure with
  | none => simp
  | some e => rfl

end

end Command
end LineCalc
