import LineCalc.Command.Standard
import LineCalc.Command.Words

/-! The command line: reads the source, runs the command, prints what it leaves behind. -/

namespace LineCalc.Command

def levelVariable : String := "RUST_LOG"

def usage : String :=
  "Evaluate a program and print the value of every statement\n\n" ++
  "Usage: calclang [OPTIONS] [FILE]\n\n" ++
  "  FILE             program file; standard input when omitted or `-`\n" ++
  "  --emit EMIT      what to print: values, tokens or ast\n" ++
  "  --trace          log every assignment after a successful run\n" ++
  "  -v, --verbose    log more: -v info, -vv debug, -vvv trace\n" ++
  "  -h, --help       print this text\n" ++
  "  -V, --version    print the version\n"

def refusalText : Arguments.Refusal → String
  | .invalidValue => "a value is missing or not accepted"
  | .unknownArgument => "unexpected argument"
  | .conflict => "an option that may be given once is given twice"
  | .tooManyValues => "a value for an option that takes none"
  | .help | .version => ""

def reasonText : IO.Error → String
  | .noFileOrDirectory .. => "No such file or directory (os error 2)"
  | .inappropriateType _ code _ =>
    if code = 21 then "Is a directory (os error 21)" else "Not a directory (os error 20)"
  | e => toString e

def readBytes (s : Source) : IO (Except String ByteArray) := do
  try
    match s with
    | .stdin => return .ok (← (← IO.getStdin).readBinToEnd)
    | .file path => return .ok (← IO.FS.readBinFile path)
  catch e => return .error (reasonText e)

end LineCalc.Command

open LineCalc in
def main (args : List String) : IO UInt32 := do
  match Arguments.ofWords args with
  | .error refusal =>
    match refusal with
    | .help => IO.print Command.usage
    | .version => IO.print ("calclang " ++ version ++ "\n")
    | _ => IO.eprint ("error: " ++ Command.refusalText refusal ++ "\n\n" ++ Command.usage)
    return UInt32.ofNat refusal.exitStatus
  | .ok a =>
    let o := Options.ofArguments a
    let setting ← IO.getEnv Command.levelVariable
    let outcome := Command.run .standard o setting (← Command.readBytes o.source)
    IO.print outcome.stdout
    for message in outcome.stderr do IO.eprintln message
    return UInt32.ofNat outcome.exit
