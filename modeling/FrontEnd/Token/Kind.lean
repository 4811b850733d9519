/-! The kinds of tokens and their spellings. A kind is spelled by a symbol, by a reserved word, or
it stands for a class of texts and has a descriptive name only. -/

namespace FrontEnd

inductive TokenKind where
  | eof | invalid
  | number | string | identifier
  | kwTrue | kwFalse
  | plus | minus | star | slash
  | assign | equals | bang | notEquals | less | greater
  | openParen | closeParen | openCurly | closeCurly | openBracket | closeBracket
  | comma | semicolon | colon | arrow
  | kwFun | kwVar | kwIf | kwThen | kwElse | kwFor | kwReturn | kwYield | kwOf
  | tyInt | tyBool | tyString | tyUnit
deriving DecidableEq, Repr, Inhabited

namespace TokenKind

/-- How a message names the kind. -/
def spelling : TokenKind → String
  | eof => "EOF"
  | invalid => "<invalid>"
  | number => "number"
  | string => "string"
  | identifier => "identifier"
  | kwTrue => "true"
  | kwFalse => "false"
  | plus => "+"
  | minus => "-"
  | star => "*"
  | slash => "/"
  | assign => "="
  | equals => "=="
  | bang => "!"
  | notEquals => "!="
  | less => "<"
  | greater => ">"
  | openParen => "("
  | closeParen => ")"
  | openCurly => "\x7b"
  | closeCurly => "\x7d"
  | openBracket => "["
  | closeBracket => "]"
  | comma => ","
  | semicolon => ";"
  | colon => ":"
  | arrow => "->"
  | kwFun => "fun"
  | kwVar => "var"
  | kwIf => "if"
  | kwThen => "then"
  | kwElse => "else"
  | kwFor => "for"
  | kwReturn => "return"
  | kwYield => "yield"
  | kwOf => "of"
  | tyInt => "Int"
  | tyBool => "Bool"
  | tyString => "String"
  | tyUnit => "Unit"

/-- The kinds spelled by a symbol. A symbol stands before every other one that begins it. -/
def symbols : List TokenKind :=
  [equals, notEquals, arrow, assign, bang, plus, minus, star, slash, less, greater,
    openParen, closeParen, openCurly, closeCurly, openBracket, closeBracket,
    comma, semicolon, colon]

/-- The kinds spelled by a word that no identifier can be. -/
def words : List TokenKind :=
  [kwTrue, kwFalse, kwFun, kwVar, kwIf, kwThen, kwElse, kwFor, kwReturn, kwYield, kwOf,
    tyInt, tyBool, tyString, tyUnit]

/-- The kind that a word is reserved for. -/
def reserved? (word : String) : Option TokenKind := words.find? (·.spelling = word)

theorem mem_words_of_reserved? {word : String} {k : TokenKind} (h : reserved? word = some k) :
    k ∈ words ∧ k.spelling = word :=
  ⟨List.mem_of_find?_eq_some h, by simpa using List.find?_some h⟩

theorem reserved?_spelling {k : TokenKind} (h : k ∈ words) : reserved? k.spelling = some k := by
  revert k
  decide

end TokenKind

end FrontEnd
