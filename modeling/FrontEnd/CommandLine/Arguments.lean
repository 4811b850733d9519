import FrontEnd.Text.Similarity

/-! The arguments of the command line: one file to compile, a flag for help and a flag for the
version. Behind a double dash every argument is a file. -/

namespace FrontEnd.CommandLine

inductive Flag where
  | help | version
deriving DecidableEq, Repr, Inhabited

def Flag.long : Flag → String
  | help => "help"
  | version => "version"

def Flag.short : Flag → Char
  | help => 'h'
  | version => 'V'

def Flag.all : List Flag := [.help, .version]

inductive UsageFault where
  | missingFile
  | emptyFile
  | unexpectedFile (argument : String)
  | unknownFlag (argument : String) (similar : Option Flag)
  | unexpectedValue (flag : Flag) (value : String)
deriving DecidableEq, Repr, Inhabited

inductive Request where
  | flag (f : Flag)
  | compile (file : String)
deriving DecidableEq, Repr, Inhabited

/-- The name of a long flag and the value behind its first equals sign. -/
def splitFlag (cs : List Char) : List Char × Option (List Char) :=
  match cs.dropWhile (· != '=') with
  | [] => (cs, none)
  | _ :: value => (cs.takeWhile (· != '='), some value)

/-- The flag whose name is spelled most like `name`, if one is alike. -/
def similarFlag? (name : String) : Option Flag :=
  (Text.mostAlike? name (Flag.all.map Flag.long)).bind fun word =>
    Flag.all.find? (·.long = word)

/-- A file is taken only once something follows it, and an empty one is refused then. -/
def settle (file : Option String) (r : Request) : Except UsageFault Request :=
  if file = some "" then .error .emptyFile else .ok r

/-- What a long flag asks for; `cs` follows its two dashes. -/
def longFlag (file : Option String) (cs : List Char) : Except UsageFault Request :=
  let (name, value) := splitFlag cs
  match Flag.all.find? (·.long.toList = name), value with
  | some f, none => settle file (.flag f)
  | some f, some value => .error (.unexpectedValue f (String.ofList value))
  | none, _ =>
    let name := String.ofList name
    .error (.unknownFlag ("--" ++ name) (similarFlag? name))

/-- What a group of short flags asks for: the first of them decides. -/
def shortFlag (file : Option String) (c : Char) : Except UsageFault Request :=
  match Flag.all.find? (·.short = c) with
  | some f => settle file (.flag f)
  | none => .error (.unknownFlag ("-" ++ String.singleton c) none)

/-- `file` is the file named so far; `onlyFiles` holds behind a double dash. -/
def requestFrom (file : Option String) (onlyFiles : Bool) : List String → Except UsageFault Request
  | [] =>
    match file with
    | none => .error .missingFile
    | some f => settle file (.compile f)
  | a :: rest =>
    match onlyFiles, a.toList with
    | false, ['-', '-'] => requestFrom file true rest
    | false, '-' :: '-' :: cs => longFlag file cs
    | false, '-' :: c :: _ => shortFlag file c
    | _, _ =>
      match file with
      | none => requestFrom (some a) onlyFiles rest
      | some _ => .error (.unexpectedFile a)

/-- What the arguments ask for. -/
def request (args : List String) : Except UsageFault Request := requestFrom none false args

end FrontEnd.CommandLine
