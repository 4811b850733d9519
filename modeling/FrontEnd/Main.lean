import FrontEnd.CommandLine.Run

/-! The command line: reads the file named by the arguments and prints what comes of it. -/

namespace FrontEnd.CommandLine

/-- Error numbers come with either sign. -/
def errorNumber (code : UInt32) : Nat := code.toInt32.toInt.natAbs

/-- What the operating system says about a file that it does not read. -/
def readFaultOf : IO.Error → ReadFault
  | .noFileOrDirectory _ _ _ => .noSuchFile
  | .permissionDenied _ _ _ => .forbidden
  | .inappropriateType _ code _ => if errorNumber code = 21 then .isFolder else .notFolder
  | .invalidArgument _ code details =>
      if errorNumber code = 36 then .nameTooLong else .other details
  | e => .other (toString e)

def readFile (file : String) : IO (Except ReadFault ByteArray) := do
  try
    return .ok (← IO.FS.readBinFile file)
  catch e =>
    return .error (readFaultOf e)

end FrontEnd.CommandLine

open FrontEnd.CommandLine

def main (args : List String) : IO UInt32 := do
  let outcome ← match fileOrOutcome args with
    | .inl file => do pure (Outcome.ofContents file (← readFile file))
    | .inr outcome => pure outcome
  IO.print outcome.stdout
  IO.eprint outcome.stderr
  return outcome.code.toUInt32
