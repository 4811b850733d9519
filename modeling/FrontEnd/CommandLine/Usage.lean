import FrontEnd.CommandLine.Arguments
import FrontEnd.Text.ControlSequence

/-! The texts about the use of the command line. They cite arguments without control sequences. -/

namespace FrontEnd.CommandLine

def versionText : String := "ltc 0.1.0\n"

/-- The usage line, with the flag that was probably meant. -/
def usageLine (meant : Option Flag) : String :=
  match meant with
  | none => "Usage: ltc <FILE>\n"
  | some f => "Usage: ltc --" ++ f.long ++ " <FILE>\n"

def helpText : String :=
  "The Lettuce compiler front end\n\n" ++ usageLine none ++
    "\nArguments:\n  <FILE>  Source file to compile\n" ++
    "\nOptions:\n  -h, --help     Print help\n  -V, --version  Print version\n"

def Flag.text : Flag → String
  | help => helpText
  | version => versionText

/-- An argument between single quotes. -/
def cite (a : String) : String := "'" ++ Text.withoutControls a ++ "'"

namespace UsageFault

def message : UsageFault → String
  | missingFile => "the following required arguments were not provided:\n  <FILE>"
  | emptyFile => "a value is required for '<FILE>' but none was supplied"
  | unexpectedFile a => "unexpected argument " ++ cite a ++ " found"
  | unknownFlag a _ => "unexpected argument " ++ cite a ++ " found"
  | unexpectedValue f value =>
    "unexpected value " ++ cite value ++ " for '--" ++ f.long ++ "' found; no more were expected"

/-- An unknown flag is met with the flag it resembles, else with the way to pass it as a file. -/
def tip? : UsageFault → Option String
  | unknownFlag _ (some f) => some ("a similar argument exists: '--" ++ f.long ++ "'")
  | unknownFlag a none => some ("to pass " ++ cite a ++ " as a value, use " ++ cite ("-- " ++ a))
  | _ => none

def usage? : UsageFault → Option String
  | emptyFile => none
  | unknownFlag _ similar => some (usageLine similar)
  | unexpectedValue f _ => some (usageLine (some f))
  | missingFile | unexpectedFile _ => some (usageLine none)

def report (u : UsageFault) : String :=
  "error: " ++ u.message ++ "\n\n" ++
    ((u.tip?.map fun tip => "  tip: " ++ tip ++ "\n\n").getD "") ++
    ((u.usage?.map (· ++ "\n")).getD "") ++
    "For more information, try '--help'.\n"

end UsageFault

end FrontEnd.CommandLine
