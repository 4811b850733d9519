import FrontEnd.CommandLine.Folder
import FrontEnd.CommandLine.Usage
import FrontEnd.Compilation
import FrontEnd.Diagnostic.Excerpt

/-! What the program prints and the code it ends with. A compiled program is shown as its outline;
all that is wrong with a source is shown with the lines at fault. -/

namespace FrontEnd.CommandLine

structure Outcome where
  code : Nat
  stdout : String := ""
  stderr : String := ""
deriving DecidableEq, Repr, Inhabited

namespace Outcome

def unreadable (file : String) (why : ReadFault) : Outcome :=
  { code := 1, stderr := "Error: could not read " ++ file ++ ": " ++ why.message ++ "\n" }

def ofSource (file source : String) : Outcome :=
  match compile source with
  | .ok c => { code := 0, stdout := c.program.dump c.types }
  | .error ds =>
    { code := 1
      stderr := String.join ((Diagnostic.reportable ds).map fun d => d.excerpt source file) }

/-- The outcome for a file, given what reading it gave. -/
def ofContents (file : String) : Except ReadFault ByteArray → Outcome
  | .error why => unreadable file why
  | .ok bytes =>
    match String.fromUTF8? bytes with
    | none => unreadable file .notText
    | some source => ofSource file source

end Outcome

/-- The file to compile, or the outcome if the arguments name none. -/
def fileOrOutcome (args : List String) : String ⊕ Outcome :=
  match request args with
  | .error u => .inr { code := 2, stderr := u.report }
  | .ok (.flag f) => .inr { code := 0, stdout := f.text }
  | .ok (.compile file) => .inl file

/-- The whole run inside a folder. -/
def run (F : Folder) (args : List String) : Outcome :=
  match fileOrOutcome args with
  | .inl file => .ofContents file (F.read file)
  | .inr outcome => outcome

end FrontEnd.CommandLine
