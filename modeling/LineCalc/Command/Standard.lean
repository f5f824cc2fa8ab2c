import LineCalc.Command.Basic
import LineCalc.Json.Encoding

/-! A host for the command. It spells values in pretty JSON. Of the settings in the environment it
knows the names of the levels alone: any other leaves the level of the options in force. -/

namespace LineCalc

def Level.name : Level → String
  | error => "ERROR"
  | warn => "WARN"
  | info => "INFO"
  | debug => "DEBUG"
  | trace => "TRACE"

def Record.text (r : Record) : String :=
  r.level.name ++ " " ++ r.message ++
    String.join (r.fields.map fun (name, value) => " " ++ name ++ "=" ++ value)

def Verbosity.ofSetting (setting : Option String) (level : Level) : Verbosity :=
  match setting.map String.toLower with
  | some "off" => none
  | some "error" => some .error
  | some "warn" => some .warn
  | some "info" => some .info
  | some "debug" => some .debug
  | some "trace" => some .trace
  | _ => some level

def Command.Host.standard : Host where
  tokensJson ts := .ok (Token.listToJson ts).pretty
  programJson p := .ok (Program.toJson p).pretty
  shows setting level r := (Verbosity.ofSetting setting level).admits r.level
  line := Record.text

end LineCalc
