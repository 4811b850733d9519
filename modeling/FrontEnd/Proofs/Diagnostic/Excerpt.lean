import FrontEnd.Proofs.Diagnostic.Wording
import FrontEnd.Proofs.Token.Layout
import Mathlib

/-! The caret of an excerpt stands under the character that the diagnostic is about. Indentation
goes from in front of it and blanks from behind it, and the number of the line takes as much room
above as the margin does below. -/

namespace FrontEnd

namespace Text

variable {l cs rest before after : List Char} {c : Char}

end Text

open Text

namespace Diagnostic

variable {d : Diagnostic} {source file : String} {before after : List Char} {c : Char}

def indent (d : Diagnostic) (source : String) : Nat :=
  ((sourceLine source d.place).takeWhile isIndent).length

end Diagnostic

end FrontEnd
