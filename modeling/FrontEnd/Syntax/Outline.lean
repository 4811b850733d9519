import FrontEnd.Syntax.Tree

/-! The outline of a program: a line for every node and for every labelled part, the parts indented
by a tab under what they belong to. An expression whose type is known shows it. -/

namespace FrontEnd

/-- A line of text under a number of tabs. -/
structure OutlineLine where
  depth : Nat
  text : String
deriving DecidableEq, Repr, Inhabited

def OutlineLine.shown (l : OutlineLine) : String :=
  String.ofList (List.replicate l.depth '\t') ++ l.text ++ "\n"

/-- The line of an expression, with its type if it has one. -/
def ExprSite.line (T : TypeTable) (depth : Nat) (s : ExprSite) (text : String) : OutlineLine :=
  match s.type with
  | none => ⟨depth, text⟩
  | some t => ⟨depth, text ++ " :: " ++ T.shown t⟩

def BinaryForm.title : BinaryForm → String
  | comparison => "Comparison: "
  | arithmetic => "Binary expression: "

def ResultForm.title : ResultForm → String
  | fromFunction => "Return"
  | fromBlock => "Yield"

def LeafForm.title (t : Token) : LeafForm → String
  | literal => "Literal expression: " ++ t.shown
  | access => "Var access: " ++ t.text

def signatureLines (T : TypeTable) (depth : Nat) : Option TypeId → List OutlineLine
  | none => []
  | some t => [⟨depth, "Signature: " ++ T.shown t⟩]

mutual

def Expr.outline (T : TypeTable) (depth : Nat) : Expr → List OutlineLine
  | .leaf s form t => [s.line T depth (form.title t)]
  | .binary s form op l r =>
    s.line T depth (form.title ++ op.shown) ::
      (⟨depth + 1, "LHS:"⟩ :: l.outline T (depth + 2)) ++
      (⟨depth + 1, "RHS:"⟩ :: r.outline T (depth + 2))
  | .unary s op e => s.line T depth ("Unary expression: " ++ op.shown) :: e.outline T (depth + 1)
  | .call s callee args =>
    s.line T depth "Function call" ::
      (⟨depth + 1, "Callable:"⟩ :: callee.outline T (depth + 2)) ++
      Expr.outlineArguments T (depth + 1) 0 args
  | .block s body => s.line T depth "Block expression" :: Stmt.outlineBody T (depth + 1) 0 body
  | .ifThen s c t =>
    s.line T depth "If" ::
      (⟨depth + 1, "Condition:"⟩ :: c.outline T (depth + 2)) ++
      (⟨depth + 1, "Then branch:"⟩ :: t.outline T (depth + 2))
  | .ifElse s c t e =>
    s.line T depth "If" ::
      (⟨depth + 1, "Condition:"⟩ :: c.outline T (depth + 2)) ++
      (⟨depth + 1, "Then branch:"⟩ :: t.outline T (depth + 2)) ++
      (⟨depth + 1, "Else branch:"⟩ :: e.outline T (depth + 2))
  | .result s form v =>
    s.line T depth form.title :: ⟨depth + 1, "Value:"⟩ :: v.outline T (depth + 2)

/-- The arguments of a call, numbered from `n`. -/
def Expr.outlineArguments (T : TypeTable) (depth n : Nat) : List Expr → List OutlineLine
  | [] => []
  | e :: es =>
    (⟨depth, "Arg " ++ toString n ++ ":"⟩ :: e.outline T (depth + 1)) ++
      Expr.outlineArguments T depth (n + 1) es

def Stmt.outline (T : TypeTable) (depth : Nat) : Stmt → List OutlineLine
  | .expr _ e => ⟨depth, "Expression statement"⟩ :: e.outline T (depth + 1)
  | .assign _ target value =>
    ⟨depth, "Assignment"⟩ ::
      (⟨depth + 1, "Lvalue:"⟩ :: target.outline T (depth + 2)) ++
      (⟨depth + 1, "Assigned expression:"⟩ :: value.outline T (depth + 2))
  | .decl _ d => d.outline T depth

/-- The statements of a block, numbered from `n`. -/
def Stmt.outlineBody (T : TypeTable) (depth n : Nat) : List Stmt → List OutlineLine
  | [] => []
  | s :: ss =>
    (⟨depth, "Statement " ++ toString n ++ ":"⟩ :: s.outline T (depth + 1)) ++
      Stmt.outlineBody T depth (n + 1) ss

def Decl.outline (T : TypeTable) (depth : Nat) : Decl → List OutlineLine
  | .var _ name signature initial _ =>
    ⟨depth, "Variable declaration: " ++ name.text⟩ :: signatureLines T (depth + 1) signature ++
      (⟨depth + 1, "Initializer:"⟩ :: initial.outline T (depth + 2))
  | .fn _ name signature params body =>
    ⟨depth, "Function declaration: " ++ name.text⟩ ::
      ⟨depth + 1, "Params:" ++ String.join (params.map fun p => " " ++ p.text)⟩ ::
      signatureLines T (depth + 1) signature ++
      (⟨depth + 1, "Body:"⟩ :: body.outline T (depth + 2))

end

namespace Program

def outline (T : TypeTable) (p : Program) : List OutlineLine :=
  ⟨0, "Program"⟩ :: p.decls.flatMap (Decl.outline T 1)

def dump (T : TypeTable) (p : Program) : String := String.join ((p.outline T).map OutlineLine.shown)

end Program

end FrontEnd
