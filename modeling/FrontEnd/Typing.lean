import FrontEnd.Diagnostic
import FrontEnd.Scope.Definitions

/-! The types of expressions, found from the inside out and written on the nodes. The first broken
rule stops the work; what was written before stays. -/

namespace FrontEnd

open Text (quote)

/-- What types are read from: the scopes, the types, and the variables without a signature whose
initial values were typed so far. -/
structure TypeContext where
  scopes : ScopeTree
  types : TypeTable
  inferred : List (SymbolId × TypeId) := []

namespace TypeContext

/-- The symbol that a name means at its place in the scope `c`. -/
def resolve (X : TypeContext) (c : Option ScopeId) (t : Token) : Except Diagnostic SymbolId :=
  match c.bind fun c => X.scopes.lookup c t.text t.place with
  | some s => .ok s
  | none => .error ⟨.internal ("identifier " ++ quote t.text ++ " was not resolved"), t.place⟩

/-- The declared type of a symbol, else the one inferred for it. -/
def symbolType (X : TypeContext) (s : SymbolId) (t : Token) : Except Diagnostic TypeId :=
  let declared := (X.scopes.symbol? s).bind Symbol.signature
  match declared <|> X.inferred.lookup s with
  | some type => .ok type
  | none =>
    let name := ((X.scopes.symbol? s).map Symbol.name).getD t.text
    .error ⟨.untypedSymbol name, t.place⟩

def same (X : TypeContext) (a b : TypeId) : Bool := X.types.same a b

def shown (X : TypeContext) (a : TypeId) : String := X.types.shown a

end TypeContext

/-- The type written on an expression. -/
def Expr.written (e : Expr) : Except Diagnostic TypeId :=
  match e.type with
  | some t => .ok t
  | none => .error ⟨.internal "expression was not evaluated", e.place⟩

namespace TypeContext

def requireInt (X : TypeContext) (e : Expr) (p : Position) : Except Diagnostic Unit := do
  if X.same (← e.written) TypeTable.int then pure () else .error ⟨.operandNotInt, p⟩

/-- A condition is of type `Bool`. -/
def requireBool (X : TypeContext) (e : Expr) : Except Diagnostic Unit := do
  let t ← e.written
  if X.same t TypeTable.bool then pure () else .error ⟨.conditionNotBool (X.shown t), e.place⟩

/-- Compares arguments with the expected types one by one, counting from `n`. -/
def requireArguments (X : TypeContext) : Nat → List TypeId → List Expr → Except Diagnostic Unit
  | n, t :: ts, e :: es => do
    let received ← e.written
    if X.same t received then X.requireArguments (n + 1) ts es
    else .error ⟨.argumentType n (X.shown t) (X.shown received), e.place⟩
  | _, _, _ => pure ()

/-- A block has the type of its last statement if that is an expression. -/
def blockType (body : List Stmt) : Except Diagnostic TypeId :=
  match body.getLast? with
  | some (.expr _ e) => e.written
  | _ => .ok TypeTable.unit

def leafType (X : TypeContext) (site : ExprSite) (t : Token) : Except Diagnostic TypeId := do
  match t.kind with
  | .number => pure TypeTable.int
  | .string => pure TypeTable.string
  | .kwTrue | .kwFalse => pure TypeTable.bool
  | .identifier => X.symbolType (← X.resolve site.scope t) t
  | _ => .error ⟨.internal (t.shown ++ " is not a literal"), site.place⟩

def callType (X : TypeContext) (site : ExprSite) (callee : Expr) (args : List Expr) :
    Except Diagnostic TypeId := do
  let t ← callee.written
  match X.types.function? t with
  | none => .error ⟨.notCallable (X.shown t), callee.place⟩
  | some (params, result) =>
    if params.length = args.length then
      X.requireArguments 0 params args
      pure result
    else .error ⟨.argumentCount params.length args.length, site.place⟩

/-- `fn` is the signature of the function around the expression. -/
def resultType (X : TypeContext) (fn : Option TypeId) (site : ExprSite) (form : ResultForm)
    (value : Expr) : Except Diagnostic TypeId :=
  match form with
  | .fromBlock => value.written
  | .fromFunction =>
    match fn with
    | none => .error ⟨.returnOutsideFunction, site.place⟩
    | some signature =>
      match X.types.function? signature with
      | none => .error ⟨.internal "function signature is not a function type", site.place⟩
      | some (_, expected) => do
        let received ← value.written
        if X.same expected received then pure received
        else .error ⟨.returnType (X.shown expected) (X.shown received), site.place⟩

/-- The type of an expression whose parts have theirs written on them. -/
def typeOf (X : TypeContext) (fn : Option TypeId) : Expr → Except Diagnostic TypeId
  | .leaf site _ t => X.leafType site t
  | .binary site form _ l r => do
    X.requireInt l site.place
    X.requireInt r site.place
    match form with
    | .comparison => pure TypeTable.bool
    | .arithmetic => pure TypeTable.int
  | .unary site _ e => do
    X.requireInt e site.place
    pure TypeTable.int
  | .call site callee args => X.callType site callee args
  | .block _ body => blockType body
  | .ifThen _ c t => do
    X.requireBool c
    let _ ← t.written
    pure TypeTable.unit
  | .ifElse site c t e => do
    X.requireBool c
    let thenType ← t.written
    let elseType ← e.written
    if X.same thenType elseType then pure thenType
    else .error ⟨.branchesDiffer (X.shown thenType) (X.shown elseType), site.place⟩
  | .result site form v => X.resultType fn site form v

/-- Only a variable can be assigned to, and only a value of its type. -/
def checkAssignment (X : TypeContext) (target value : Expr) : Except Diagnostic Unit := do
  match target.name? with
  | none => .error ⟨.badTarget, target.place⟩
  | some t =>
    let s ← X.resolve target.scope t
    if (X.scopes.symbol? s).map Symbol.kind = some .var then
      let expected ← X.symbolType s t
      let received ← value.written
      if X.same expected received then pure ()
      else .error ⟨.assignedType (X.shown expected) (X.shown received), value.place⟩
    else .error ⟨.targetNotVariable t.text, target.place⟩

/-- What a variable declaration adds to the context once its initial value has its type: a variable
without a signature takes the type of the value. -/
def declareVar (X : TypeContext) (site : Site) (name : Token) (signature : Option TypeId)
    (initial : Expr) : Except Diagnostic TypeContext := do
  let received ← initial.written
  match signature with
  | some expected =>
    if X.same expected received then pure X
    else .error ⟨.initialType (X.shown expected) (X.shown received), initial.place⟩
  | none =>
    match site.ownSymbol? X.scopes name with
    | some s => pure { X with inferred := (s, received) :: X.inferred }
    | none => .error ⟨.internal ("variable " ++ quote name.text ++ " was not declared"), name.place⟩

end TypeContext

/-- The context reached so far, and the fault that stopped the work. -/
structure Annotating where
  context : TypeContext
  failure : Option Diagnostic := none

namespace Annotating

/-- Writes the type of an expression on it, unless the work has stopped. -/
def write (r : Annotating) (fn : Option TypeId) (e : Expr) : Expr × Annotating :=
  if r.failure.isSome then (e, r)
  else
    match r.context.typeOf fn e with
    | .ok t => (e.mapSite fun s => { s with type := some t }, r)
    | .error d => (e, { r with failure := some d })

/-- Lets a check decide whether the work goes on. -/
def require (r : Annotating) (check : TypeContext → Except Diagnostic TypeContext) : Annotating :=
  if r.failure.isSome then r
  else
    match check r.context with
    | .ok context => { r with context }
    | .error d => { r with failure := some d }

end Annotating

mutual

/-- `fn` is the signature of the function around the expression. -/
def Expr.annotate (fn : Option TypeId) (e : Expr) (r : Annotating) : Expr × Annotating :=
  if r.failure.isSome then (e, r)
  else
    match e with
    | .leaf s form t => r.write fn (.leaf s form t)
    | .binary s form op lhs rhs =>
      let (lhs, r) := lhs.annotate fn r
      let (rhs, r) := rhs.annotate fn r
      r.write fn (.binary s form op lhs rhs)
    | .unary s op operand =>
      let (operand, r) := operand.annotate fn r
      r.write fn (.unary s op operand)
    | .call s callee args =>
      let (callee, r) := callee.annotate fn r
      let (args, r) := Expr.annotateAll fn args r
      r.write fn (.call s callee args)
    | .block s body =>
      let (body, r) := Stmt.annotateAll fn body r
      r.write fn (.block s body)
    | .ifThen s condition thenBranch =>
      let (condition, r) := condition.annotate fn r
      let (thenBranch, r) := thenBranch.annotate fn r
      r.write fn (.ifThen s condition thenBranch)
    | .ifElse s condition thenBranch elseBranch =>
      let (condition, r) := condition.annotate fn r
      let (thenBranch, r) := thenBranch.annotate fn r
      let (elseBranch, r) := elseBranch.annotate fn r
      r.write fn (.ifElse s condition thenBranch elseBranch)
    | .result s form value =>
      let (value, r) := value.annotate fn r
      r.write fn (.result s form value)

def Expr.annotateAll (fn : Option TypeId) (es : List Expr) (r : Annotating) :
    List Expr × Annotating :=
  match es with
  | [] => ([], r)
  | e :: es =>
    let (e, r) := e.annotate fn r
    let (es, r) := Expr.annotateAll fn es r
    (e :: es, r)

def Stmt.annotate (fn : Option TypeId) (s : Stmt) (r : Annotating) : Stmt × Annotating :=
  if r.failure.isSome then (s, r)
  else
    match s with
    | .expr site e =>
      let (e, r) := e.annotate fn r
      (.expr site e, r)
    | .assign site target value =>
      let (target, r) := target.annotate fn r
      let (value, r) := value.annotate fn r
      (.assign site target value,
        r.require fun X => (X.checkAssignment target value).map fun _ => X)
    | .decl site d =>
      let (d, r) := d.annotate fn r
      (.decl site d, r)

def Stmt.annotateAll (fn : Option TypeId) (ss : List Stmt) (r : Annotating) :
    List Stmt × Annotating :=
  match ss with
  | [] => ([], r)
  | s :: ss =>
    let (s, r) := s.annotate fn r
    let (ss, r) := Stmt.annotateAll fn ss r
    (s :: ss, r)

/-- A function without a signature is not looked into. -/
def Decl.annotate (fn : Option TypeId) (d : Decl) (r : Annotating) : Decl × Annotating :=
  if r.failure.isSome then (d, r)
  else
    match d with
    | .var site name signature initial finish =>
      let (initial, r) := initial.annotate fn r
      (.var site name signature initial finish,
        r.require fun X => X.declareVar site name signature initial)
    | .fn site name none params body =>
      (.fn site name none params body,
        { r with failure := some ⟨.missingSignature name.text, name.place⟩ })
    | .fn site name (some signature) params body =>
      let (body, r) := body.annotate (some signature) r
      (.fn site name (some signature) params body, r)

end

def Decl.annotateAll (fn : Option TypeId) (ds : List Decl) (r : Annotating) :
    List Decl × Annotating :=
  match ds with
  | [] => ([], r)
  | d :: ds =>
    let (d, r) := d.annotate fn r
    let (ds, r) := Decl.annotateAll fn ds r
    (d :: ds, r)

/-- Writes the type of every expression of the program on it. -/
def Program.annotate (S : ScopeTree) (T : TypeTable) (p : Program) :
    Program × Option Diagnostic :=
  let (decls, r) := Decl.annotateAll none p.decls { context := { scopes := S, types := T } }
  ({ p with decls }, r.failure)

end FrontEnd
