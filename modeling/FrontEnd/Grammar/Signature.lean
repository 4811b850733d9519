import FrontEnd.Grammar.Rule
import FrontEnd.Grammar.Vocabulary

/-! The rules for types in signatures. A type is entered into the table once its parts are read. -/

namespace FrontEnd.Rule

def primitiveType : Rule TypeId := fun s =>
  match s.kind.primitive? with
  | some p => .done (TypeTable.primitive p) s.advance
  | none => refuse .noType s

/-- A star and the type pointed to. -/
def pointerType (part : Rule TypeId) : Rule TypeId := do
  let _ ← expect .star
  let target ← part
  enterType (.pointer target)

/-- The argument types in brackets, an arrow, and the result type. -/
def functionType (part : Rule TypeId) : Rule TypeId := do
  let _ ← expect .openBracket
  let arguments ← itemsBefore .closeBracket part
  let _ ← expect .closeBracket
  let _ ← expect .arrow
  let result ← part
  enterType (.function arguments result)

def typeOfForm (part : Rule TypeId) : TypeForm → Rule TypeId
  | .primitive => primitiveType
  | .pointer => pointerType part
  | .function => functionType part

/-- A type nested at most `n` deep. -/
def typeWithin (v : Vocabulary) : Nat → Rule TypeId
  | 0 => refuse .noType
  | n + 1 => fun s =>
    match v.typeForm? s.kind with
    | some form => typeOfForm (typeWithin v n) form s
    | none => refuse .noType s

/-- A type. Each level of nesting takes a token, so the tokens left bound its depth; without a
token there is no type. -/
def type (v : Vocabulary) : Rule TypeId := fun s => typeWithin v s.tokens.length s

end FrontEnd.Rule
