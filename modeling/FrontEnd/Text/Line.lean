/-! Lines of a text. A newline ends a line and takes one carriage return before it along; a text
that ends in a newline has no further empty line. -/

namespace FrontEnd.Text

/-- The text up to the first newline, and what follows that newline if there is one. -/
def cutLine : List Char → List Char × Option (List Char)
  | [] => ([], none)
  | c :: cs =>
    if c = '\n' then ([], some cs)
    else (c :: (cutLine cs).1, (cutLine cs).2)

/-- Drops one carriage return at the end. -/
def dropReturn (cs : List Char) : List Char :=
  if cs.getLast? = some '\r' then cs.dropLast else cs

/-- The `n`-th line, counted from zero, without its line end. -/
def line? : Nat → List Char → Option (List Char)
  | _, [] => none
  | 0, cs =>
    match cutLine cs with
    | (text, some _) => some (dropReturn text)
    | (text, none) => some text
  | n + 1, cs =>
    match cutLine cs with
    | (_, some rest) => line? n rest
    | (_, none) => none

end FrontEnd.Text
