/-! Text without the controls and control sequences of terminals. A sequence opens with an escape
character; what follows tells its kind, and the kind tells where it ends. -/

namespace FrontEnd.Text

/-- Where a reader stands with regard to control sequences. -/
inductive SequencePlace where
  | outside
  /-- Right behind the escape character. -/
  | opened
  /-- Behind a mark that a letter or digit still has to follow. -/
  | marked
  /-- Among the parameters of a function, which a letter names and ends. -/
  | parameters
  /-- In a command to the system, which a bell ends. -/
  | systemCommand
  /-- Before the parameters of a command to the device. -/
  | deviceCommand
  | deviceParameters
  | deviceMarks
  /-- In a text that a string terminator ends. -/
  | hiddenText
deriving DecidableEq, Repr, Inhabited

/-- The control characters that stay in the text. -/
def isSpacing (c : Char) : Bool := c = '\t' || c = '\n' || c = '\x0c' || c = '\r'

def isAscii (c : Char) : Bool := c ≤ '\x7f'

/-- What shows outside of sequences: printed characters and spacing. -/
def isVisible (c : Char) : Bool := !isAscii c || isSpacing c || (' ' ≤ c && c ≤ '~')

/-- The string terminator is a single byte, looked for inside longer characters too. -/
def holdsTerminator (c : Char) : Bool := (String.utf8EncodeChar c).contains 0x9c

namespace SequencePlace

/-- The place behind a character that belongs to a sequence. The escape character opens a new
sequence anywhere; cancel and substitute break one off. -/
def next (p : SequencePlace) (c : Char) : SequencePlace :=
  if c = '\x1b' then opened
  else if c = '\x18' || c = '\x1a' then outside
  else
    match p with
    | outside => outside
    | opened =>
      if ' ' ≤ c && c ≤ '/' then marked
      else if c = '[' then parameters
      else if c = ']' then systemCommand
      else if c = 'P' then deviceCommand
      else if c = 'X' || c = '^' || c = '_' then hiddenText
      else if '0' ≤ c && c ≤ '~' then outside
      else opened
    | marked => if '0' ≤ c && c ≤ '~' then outside else marked
    | parameters => if '@' ≤ c && c ≤ '~' then outside else parameters
    | systemCommand => if c = '\x07' then outside else systemCommand
    | deviceCommand =>
      if ' ' ≤ c && c ≤ '/' then deviceMarks
      else if '0' ≤ c && c ≤ '?' then deviceParameters
      else if '@' ≤ c && c ≤ '~' then hiddenText
      else deviceCommand
    | deviceParameters =>
      if ' ' ≤ c && c ≤ '/' then deviceMarks
      else if '<' ≤ c && c ≤ '~' then hiddenText
      else deviceParameters
    | deviceMarks => if '0' ≤ c && c ≤ '~' then hiddenText else deviceMarks
    | hiddenText => if holdsTerminator c then outside else hiddenText

/-- Spacing acts on the terminal even inside a sequence, unless it belongs to a command or text. -/
def letsThrough (p : SequencePlace) (c : Char) : Bool :=
  match p with
  | outside => isVisible c
  | opened | marked | parameters => isSpacing c
  | _ => false

end SequencePlace

/-- The characters that remain, read from a place. While `paused` holds, spacing has interrupted the
sequence: all that is visible shows, and the next character that is not takes the sequence up
again. A character beyond ASCII ends a paused sequence. -/
def visibleFrom (p : SequencePlace) (paused : Bool) : List Char → List Char
  | [] => []
  | c :: cs =>
    if (paused && isVisible c) || p.letsThrough c then
      c :: (if isAscii c then visibleFrom p true cs else visibleFrom .outside false cs)
    else visibleFrom (p.next c) false cs

theorem isVisible_of_letsThrough {p : SequencePlace} {c : Char} (h : p.letsThrough c) :
    isVisible c := by
  cases p <;> simp_all [SequencePlace.letsThrough, isVisible]

theorem isVisible_of_mem_visibleFrom {p : SequencePlace} {paused : Bool} {cs : List Char}
    {c : Char} (h : c ∈ visibleFrom p paused cs) : isVisible c := by
  induction cs generalizing p paused with
  | nil => simp [visibleFrom] at h
  | cons d ds ih =>
    rw [visibleFrom] at h
    split at h
    case isTrue hd =>
      rcases List.mem_cons.mp h with rfl | h
      · simp only [Bool.or_eq_true, Bool.and_eq_true] at hd
        rcases hd with hd | hd
        · exact hd.2
        · exact isVisible_of_letsThrough hd
      · split at h <;> exact ih h
    case isFalse => exact ih h

/-- A text that is visible throughout stays as it is. -/
theorem visibleFrom_eq_self {paused : Bool} {cs : List Char} (h : ∀ c ∈ cs, isVisible c) :
    visibleFrom .outside paused cs = cs := by
  induction cs generalizing paused with
  | nil => rfl
  | cons c cs ih =>
    have hc := h c (by simp)
    have hcs := fun paused => @ih paused fun d hd => h d (by simp [hd])
    simp [visibleFrom, SequencePlace.letsThrough, hc, hcs]

/-- The text without its controls and control sequences. -/
def withoutControls (s : String) : String := String.ofList (visibleFrom .outside false s.toList)

end FrontEnd.Text
