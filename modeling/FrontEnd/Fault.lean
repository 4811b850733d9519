import FrontEnd.Text.Quoted
import FrontEnd.Token.Kind

/-! What can be wrong with a source, by cause. A cause has a name, a message, and sometimes a
hint at the remedy; where it was found is not part of it. -/

namespace FrontEnd

/-- Types are given as they are shown to the user. -/
inductive Fault where
  | unrecognised (text : String)
  | unterminatedString
  | numberTooLarge (digits : String)
  | noExpression (found : String)
  | unexpectedToken (expected : TokenKind) (found : String)
  | noType (found : String)
  | brokenBlock
  | noDeclaration (found : String)
  | notAssignable
  | brokenProgram (faults : Nat)
  | parameterCount (function : String) (expected received : Nat)
  | signatureNotFunction (function signature : String)
  | redefinition (symbol : String)
  | undefinedSymbol (symbol : String)
  | operandNotInt
  | conditionNotBool (found : String)
  | branchesDiffer (thenType elseType : String)
  | notCallable (found : String)
  | argumentCount (expected received : Nat)
  | argumentType (index : Nat) (expected received : String)
  | returnOutsideFunction
  | returnType (expected received : String)
  | badTarget
  | targetNotVariable (symbol : String)
  | assignedType (expected received : String)
  | initialType (expected received : String)
  | untypedSymbol (symbol : String)
  | missingSignature (function : String)
  | internal (message : String)
deriving DecidableEq, Repr, Inhabited

namespace Fault

def name : Fault → String
  | unrecognised _ => "UnrecognisedToken"
  | unterminatedString => "UnterminatedString"
  | numberTooLarge _ => "NumberParseError"
  | noExpression _ => "ParsePrimaryError"
  | unexpectedToken _ _ => "ParseTokenError"
  | noType _ => "ParseTypeError"
  | brokenBlock => "ParseCompoundError"
  | noDeclaration _ => "ParseDeclarationError"
  | notAssignable => "ParseNonLvalueError"
  | brokenProgram _ => "ParseProgramError"
  | parameterCount _ _ _ => "FnDeclArgsCountMismatchError"
  | signatureNotFunction _ _ => "FnDeclSignatureError"
  | redefinition _ => "RedefinitionError"
  | undefinedSymbol _ => "UndefinedSymbolError"
  | operandNotInt => "ArithmTypeError"
  | conditionNotBool _ => "IfConditionTypeError"
  | branchesDiffer _ _ => "IfBranchesTypeError"
  | notCallable _ => "FnCallNonFuncTypeError"
  | argumentCount _ _ => "FnCallArgCountMismatchError"
  | argumentType _ _ _ => "FnCallArgTypeMismatchError"
  | returnOutsideFunction => "ReturnOutsideFnError"
  | returnType _ _ => "WrongReturnTypeError"
  | badTarget => "BadAssignmentError"
  | targetNotVariable _ => "NonVarAssignError"
  | assignedType _ _ => "AssignmentTypeMismatchError"
  | initialType _ _ => "VarDeclInitTypeMismatchError"
  | untypedSymbol _ => "UntypedSymbolError"
  | missingSignature _ => "MissingSignatureError"
  | internal _ => "InternalError"

def against (expected received : String) : String :=
  ": expected " ++ expected ++ ", received " ++ received

open Text (quote)

def message : Fault → String
  | unrecognised text => "no token could be matched at " ++ quote text
  | unterminatedString => "unexpected end of the string literal"
  | numberTooLarge digits => "error parsing number: " ++ quote digits
  | noExpression found => "could not match primary expression at " ++ quote found
  | unexpectedToken expected found =>
    "expected token " ++ expected.spelling ++ ", found " ++ quote found
  | noType found => "could not parse the type at " ++ quote found
  | brokenBlock => "some errors in compound block have occurred"
  | noDeclaration found => "expected declaration, found " ++ quote found
  | notAssignable => "expected lvalue on the left side of the assignment"
  | brokenProgram faults => "program has " ++ toString faults ++ " syntax error(s)"
  | parameterCount function expected received =>
    "function " ++ quote function ++ " declares " ++ toString received ++
      " parameter(s) but its signature has " ++ toString expected
  | signatureNotFunction function signature =>
    "signature of function " ++ quote function ++ " is not a function type: " ++ signature
  | redefinition symbol =>
    "redefinition of symbol " ++ quote symbol ++ " (already defined in current scope)"
  | undefinedSymbol symbol => "use of undefined symbol " ++ quote symbol
  | operandNotInt => "arithmetic operation has non-int operand"
  | conditionNotBool found => "if condition has non-bool type " ++ found
  | branchesDiffer thenType elseType =>
    "if branches have different types: " ++ thenType ++ " and " ++ elseType
  | notCallable found => "function call with non-functional callable of type " ++ found
  | argumentCount expected received =>
    "wrong amount of arguments for function call" ++
      against (toString expected) (toString received)
  | argumentType index expected received =>
    "wrong type of argument " ++ toString index ++ " for function call" ++
      against expected received
  | returnOutsideFunction => "return expression outside function"
  | returnType expected received =>
    "wrong type of return expression" ++ against expected received
  | badTarget => "bad assignment left-hand side"
  | targetNotVariable symbol =>
    "bad assignment to " ++ quote symbol ++ ": can assign only variables"
  | assignedType expected received =>
    "different types on the sides of assignment" ++ against expected received
  | initialType expected received =>
    "wrong type of initial value during variable declaration" ++ against expected received
  | untypedSymbol symbol => "type of symbol " ++ quote symbol ++ " is not known here"
  | missingSignature function => "function " ++ quote function ++ " has no type signature"
  | internal message => "internal error: " ++ message

/-- What the user could do about it. -/
def hint? : Fault → Option String
  | unterminatedString => some "Add the closing `\"` of the string literal"
  | numberTooLarge digits =>
    some ("Invalid number: `" ++ digits ++ "`, is it above the integer limit?")
  | unexpectedToken .semicolon _ => some "Did you miss a semicolon?"
  | noDeclaration _ => some "Only `var` and `fun` declarations are allowed at the top level"
  | notAssignable => some "Only variables can be assigned to"
  | undefinedSymbol symbol =>
    some ("Local `" ++ symbol ++ "` must be declared before it is used")
  | untypedSymbol symbol =>
    some ("Add an `of <type>` signature to the declaration of `" ++ symbol ++ "`")
  | missingSignature function =>
    some ("Functions need a signature, e.g. `of [Int] -> Int fun " ++ function ++ "(x) = x;`")
  | _ => none

end Fault

end FrontEnd
