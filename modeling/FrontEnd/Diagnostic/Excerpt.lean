import FrontEnd.Diagnostic
import FrontEnd.Text.Blank
import FrontEnd.Text.Line

/-! A diagnostic with the source line it points at. The line is shown without its indentation and
without blanks at its end; a caret under it marks the column. -/

namespace FrontEnd.Diagnostic

/-- The source line of a place; a line that the source does not have is empty. -/
def sourceLine (source : String) (p : Position) : List Char :=
  (Text.line? p.line source.toList).getD []

/-- The name of the fault, with the hint in parentheses. -/
def headline (d : Diagnostic) : String :=
  match d.fault.hint? with
  | none => "Error: " ++ d.fault.name
  | some hint => "Error: " ++ d.fault.name ++ " (" ++ hint ++ ")"

/-- The rule to the left of the source line, as wide as the line number and two blanks. -/
def margin (number : String) : String :=
  String.ofList (List.replicate (number.length + 1) ' ') ++ "|"

/-- A caret behind `n` dashes. -/
def caret (n : Nat) : String := String.ofList (List.replicate n '-') ++ "^"

/-- Five lines: the name of the fault, what it is and where, a rule, the source line under its
number, and the caret. -/
def excerpt (d : Diagnostic) (source file : String) : String :=
  let line := sourceLine source d.place
  let number := toString (d.place.line + 1)
  let indent := (line.takeWhile Text.isIndent).length
  let shownLine := String.ofList (Text.trimEnd (line.drop indent))
  String.join <| List.map (· ++ "\n")
    [d.headline,
      "-> " ++ file ++ ": " ++ d.shown,
      margin number,
      number ++ " | " ++ shownLine,
      margin number ++ " " ++ caret (d.place.column - indent)]

end FrontEnd.Diagnostic
