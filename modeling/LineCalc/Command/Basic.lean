import LineCalc.Command.Options
import LineCalc.Run

/-! The command: from options and the content of a source to exit status and output. How tokens and
programs are spelled in JSON and how the log is filtered and written is left to a host. -/

namespace LineCalc.Command

/-- What the command leaves to others. -/
structure Host where
  tokensJson : List Token → Except String String
  programJson : Program → Except String String
  /-- Whether a record is shown, given the setting in the environment and the level of the
  options. -/
  shows : Option String → Level → Record → Bool
  line : Record → String

inductive Failure where
  | language (e : Error)
  | encoding (reason : String)
  deriving DecidableEq, Repr

def Failure.message : Failure → String
  | language e => e.message
  | encoding reason => reason

/-- The exit status that tells at which stage an error arose. -/
def Failure.exitStatus : Failure → Nat
  | language e =>
    match e.stage with
    | .lexing | .parsing => 65
    | .evaluation => 70
    | .io => 74
  | encoding _ => 1

structure Work where
  stdout : String
  events : List Event
  failure : Option Failure := none

def Work.ofText (events : List Event) : Except Failure String → Work
  | .ok text => ⟨text ++ "\n", events, none⟩
  | .error e => ⟨"", events, some e⟩

section
variable (host : Host)

def spell {α : Type} (json : α → Except String String) (result : Except Error α) :
    Except Failure String := do
  (json (← result.mapError .language)).mapError .encoding

def emitTokens (text : String) : Work :=
  let items := (Scanner.ofSource text).items
  let events := items.filterMap fun item => item.toOption.map Event.tokenRead
  .ofText events (spell host.tokensJson (items.mapM id))

def emitAst (text : String) : Work :=
  let (result, p) := Parser.parse { unread := (Scanner.ofSource text).items }
  .ofText p.events.reverse (spell host.programJson result)

def attemptEvent (index : Nat) (a : Attempt) : Event :=
  match a.result with
  | .ok x => .statementEvaluated index a.statement x
  | .error e => .statementFailed index a.statement e

def attemptLine (a : Attempt) : String :=
  match a.result with
  | .ok x => x.valueText ++ "\n"
  | .error _ => ""

/-- The values of the statements, one to a line. The statements before one that fails have
printed theirs. -/
def emitValues (trace : Bool) (text : String) : Work :=
  let (result, p) := Parser.parse { unread := (Scanner.ofSource text).items }
  match result with
  | .error e => ⟨"", p.events.reverse, some (.language e)⟩
  | .ok program =>
    let (made, m) := program.attempts {}
    let events := p.events.reverse ++ made.mapIdx attemptEvent
    let stdout := String.join (made.map attemptLine)
    match made.mapM Attempt.result with
    | .error e => ⟨stdout, events, some (.language (.evaluation e))⟩
    | .ok values =>
      let assigned := if trace then m.trace.reverse.map fun (name, x) => .assigned name x else []
      ⟨stdout, events ++ .runComplete values.length m.store.size :: assigned, none⟩

def emit (o : Options) (text : String) : Work :=
  match o.emit with
  | .values => emitValues o.trace text
  | .tokens => emitTokens host text
  | .ast => emitAst host text

structure Outcome where
  exit : Nat
  stdout : String
  /-- The messages on the error stream, each ended by a line feed. -/
  stderr : List String
  deriving DecidableEq, Repr

def complaint (message : String) : String := "error: " ++ message

/-- Runs the command on the bytes of its source, or on the reason why they could not be read. -/
def run (o : Options) (setting : Option String) (bytes : Except String ByteArray) : Outcome :=
  match o.source.contents bytes with
  | .error e =>
    ⟨(Failure.language e).exitStatus, "",
      [complaint ("failed to read program from " ++ o.source.text ++ ": " ++ e.message)]⟩
  | .ok text =>
    let work := emit host o text
    let records := (.sourceRead o.source.text text.utf8ByteSize :: work.events).map Event.record
    let log := (records.filter (host.shows setting o.level)).map host.line
    match work.failure with
    | none => ⟨0, work.stdout, log⟩
    | some e => ⟨e.exitStatus, work.stdout, log ++ [complaint e.message]⟩

end

end LineCalc.Command
