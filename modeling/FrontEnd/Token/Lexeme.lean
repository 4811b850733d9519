import FrontEnd.Token

/-! Lexemes: the pieces of a source text that become tokens, and the blanks and comments between
them. What stands at the head of a text decides its first lexeme, and a lexeme is never empty. -/

namespace FrontEnd

def isBlankBetween (c : Char) : Bool := c = ' ' || c = '\t' || c = '\r' || c = '\n'

/-- Splits off the blanks and comments in front of a text. The flag tells whether the text starts
inside a comment, which lasts until the next newline. -/
def splitTrivia : Bool → List Char → List Char × List Char
  | _, [] => ([], [])
  | true, c :: cs =>
    let (skipped, rest) := splitTrivia (c != '\n') cs
    (c :: skipped, rest)
  | false, c :: cs =>
    if isBlankBetween c || c = '#' then
      let (skipped, rest) := splitTrivia (c = '#') cs
      (c :: skipped, rest)
    else ([], c :: cs)

theorem splitTrivia_append (inComment : Bool) (cs : List Char) :
    (splitTrivia inComment cs).1 ++ (splitTrivia inComment cs).2 = cs := by
  fun_induction splitTrivia inComment cs <;> simp_all

structure Lexeme where
  kind : TokenKind
  payload : Payload
  text : List Char
deriving DecidableEq, Repr, Inhabited

namespace Lexeme

/-- The first symbol that begins the text; longer symbols come first. -/
def symbol? (cs : List Char) : Option TokenKind :=
  TokenKind.symbols.find? fun k => k.spelling.toList.isPrefixOf cs

/-- The value of a digit string in base ten. -/
def decimal (digits : List Char) : Nat :=
  digits.foldl (fun n c => 10 * n + (c.toNat - '0'.toNat)) 0

/-- Numbers are signed words of 64 bits. -/
def numberBound : Nat := 1 <<< 63

def ofDigits (digits : List Char) : Lexeme :=
  if decimal digits < numberBound then ⟨.number, .int (decimal digits), digits⟩
  else ⟨.invalid, .fault (.numberTooLarge (String.ofList digits)), digits⟩

/-- A string runs to the next quote, across lines if need be; without one it takes the whole
rest of the text. `cs` follows the opening quote. -/
def ofQuote (cs : List Char) : Lexeme :=
  let content := cs.takeWhile (· != '"')
  match cs.dropWhile (· != '"') with
  | [] => ⟨.invalid, .fault .unterminatedString, '"' :: cs⟩
  | _ :: _ => ⟨.string, .text (String.ofList content), '"' :: content ++ ['"']⟩

def isWordStart (c : Char) : Bool := c.isAlpha || c = '_'

def isWordPart (c : Char) : Bool := c.isAlphanum || c = '_'

def ofWord (cs : List Char) : Lexeme :=
  match TokenKind.reserved? (String.ofList cs) with
  | some k => ⟨k, .none, cs⟩
  | none => ⟨.identifier, .text (String.ofList cs), cs⟩

/-- The lexeme at the head of the text `c :: cs`. A character that begins no other lexeme is one of
its own. -/
def atHead (c : Char) (cs : List Char) : Lexeme :=
  match symbol? (c :: cs) with
  | some k => ⟨k, .none, k.spelling.toList⟩
  | none =>
    if c.isDigit then ofDigits ((c :: cs).takeWhile Char.isDigit)
    else if c = '"' then ofQuote cs
    else if isWordStart c then ofWord ((c :: cs).takeWhile isWordPart)
    else ⟨.invalid, .fault (.unrecognised (String.singleton c)), [c]⟩

def first? : List Char → Option Lexeme
  | [] => none
  | c :: cs => some (atHead c cs)

theorem spelling_ne_nil (k : TokenKind) : k.spelling.toList ≠ [] := by cases k <;> decide

theorem text_ofDigits (digits : List Char) : (ofDigits digits).text = digits := by
  unfold ofDigits
  split <;> rfl

theorem text_ofWord (cs : List Char) : (ofWord cs).text = cs := by
  unfold ofWord
  split <;> rfl

theorem text_ofQuote_ne_nil (cs : List Char) : (ofQuote cs).text ≠ [] := by
  unfold ofQuote
  split <;> simp

theorem isWordPart_of_isWordStart {c : Char} (h : isWordStart c = true) : isWordPart c = true := by
  simp only [isWordStart, isWordPart, Char.isAlphanum, Bool.or_eq_true] at h ⊢
  exact h.imp_left .inl

theorem text_atHead_ne_nil (c : Char) (cs : List Char) : (atHead c cs).text ≠ [] := by
  unfold atHead
  split
  · exact spelling_ne_nil _
  · split
    · next h => simp [text_ofDigits, h]
    · split
      · exact text_ofQuote_ne_nil cs
      · split
        · next h => simp [text_ofWord, isWordPart_of_isWordStart h]
        · simp

theorem text_ne_nil {cs : List Char} {l : Lexeme} (h : first? cs = some l) : l.text ≠ [] := by
  cases cs with
  | nil => simp [first?] at h
  | cons c cs =>
    obtain rfl : atHead c cs = l := by simpa [first?] using h
    exact text_atHead_ne_nil c cs

end Lexeme

end FrontEnd
