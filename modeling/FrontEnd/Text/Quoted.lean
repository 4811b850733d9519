import FrontEnd.Text.GraphemeExtend
import FrontEnd.Text.Unprintable

/-! Text between double quotes, as messages cite it. The quote and the backslash take a backslash;
a character that would not show by itself is written as its code point. -/

namespace FrontEnd.Text

/-- The code point in lower-case hexadecimal without leading zeros. -/
def escapeCode (c : Char) : List Char :=
  ['\\', 'u', '\x7b'] ++ Nat.toDigits 16 c.toNat ++ ['\x7d']

/-- The Hangul letters that hold the place of a missing part of a syllable and show nothing. -/
def hangulFillers : List Char := ['\u115f', '\u1160', '\u3164', '\uffa0']

/-- The two letters among the characters that extend the one before them. -/
def soundMarkLetters : List Char := ['\uff9e', '\uff9f']

/-- A character shows if it has a printed form of its own. -/
def showsAlone (c : Char) : Bool :=
  !isUnprintable c && !hangulFillers.contains c &&
    (!isGraphemeExtend c || soundMarkLetters.contains c)

def escapeChar (c : Char) : List Char :=
  if c = '"' then ['\\', '"']
  else if c = '\\' then ['\\', '\\']
  else if c = '\x00' then ['\\', '0']
  else if c = '\t' then ['\\', 't']
  else if c = '\r' then ['\\', 'r']
  else if c = '\n' then ['\\', 'n']
  else if showsAlone c then [c]
  else escapeCode c

def quote (s : String) : String :=
  String.ofList (['"'] ++ s.toList.flatMap escapeChar ++ ['"'])

end FrontEnd.Text
