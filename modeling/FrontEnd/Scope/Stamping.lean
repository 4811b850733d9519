import FrontEnd.Diagnostic
import FrontEnd.Syntax.Tree

/-! Building the scopes of a program and stamping every node with the scope it lives in. A function
and a block open a scope each. The first name bound twice in one scope stops the work; what was
done before stays. -/

namespace FrontEnd

/-- The scopes built so far, and the fault that stopped the work. -/
structure Stamping where
  tree : ScopeTree
  failure : Option Diagnostic := none

namespace Stamping

/-- Binds a symbol in the scope `c`, unless the work has stopped. -/
def declare (r : Stamping) (c : ScopeId) (s : Symbol) : Stamping :=
  match r.failure with
  | some _ => r
  | none =>
    match r.tree.bind c s with
    | .ok (_, tree) => { r with tree }
    | .error _ => { r with failure := some ⟨.redefinition s.name, s.place⟩ }

/-- Binds the parameters of a function, each typed by the argument of the signature that stands
at its index. -/
def declareParams (c : ScopeId) : List Token → List TypeId → Stamping → Stamping
  | [], _, r => r
  | p :: ps, types, r =>
    declareParams c ps types.tail
      (r.declare c ⟨.var, p.text, p.place, p.place, false, types.head?⟩)

/-- Opens a scope inside `parent`. -/
def openScope (r : Stamping) (place : Position) (parent : ScopeId) : ScopeId × Stamping :=
  let (c, tree) := r.tree.push place (some parent)
  (c, { r with tree })

end Stamping

/-- The argument types that a signature gives to the parameters. -/
def TypeTable.argumentsOf (T : TypeTable) (signature : Option TypeId) : List TypeId :=
  ((signature.bind T.function?).map Prod.fst).getD []

mutual

/-- `c` is the scope around the expression; a declaration met while `isGlobal` holds is visible in
the whole program. -/
def Expr.stamp (T : TypeTable) (c : ScopeId) (isGlobal : Bool) (e : Expr) (r : Stamping) :
    Expr × Stamping :=
  if r.failure.isSome then (e, r)
  else
    match e with
    | .leaf s form t => (.leaf { s with scope := some c } form t, r)
    | .binary s form op lhs rhs =>
      let (lhs, r) := lhs.stamp T c isGlobal r
      let (rhs, r) := rhs.stamp T c isGlobal r
      (.binary { s with scope := some c } form op lhs rhs, r)
    | .unary s op operand =>
      let (operand, r) := operand.stamp T c isGlobal r
      (.unary { s with scope := some c } op operand, r)
    | .call s callee args =>
      let (callee, r) := callee.stamp T c isGlobal r
      let (args, r) := Expr.stampAll T c isGlobal args r
      (.call { s with scope := some c } callee args, r)
    | .block s body =>
      let (inner, r) := r.openScope s.place c
      let (body, r) := Stmt.stampAll T inner isGlobal body r
      (.block { s with scope := some c } body, r)
    | .ifThen s condition thenBranch =>
      let (condition, r) := condition.stamp T c isGlobal r
      let (thenBranch, r) := thenBranch.stamp T c isGlobal r
      (.ifThen { s with scope := some c } condition thenBranch, r)
    | .ifElse s condition thenBranch elseBranch =>
      let (condition, r) := condition.stamp T c isGlobal r
      let (thenBranch, r) := thenBranch.stamp T c isGlobal r
      let (elseBranch, r) := elseBranch.stamp T c isGlobal r
      (.ifElse { s with scope := some c } condition thenBranch elseBranch, r)
    | .result s form value =>
      let (value, r) := value.stamp T c isGlobal r
      (.result { s with scope := some c } form value, r)

def Expr.stampAll (T : TypeTable) (c : ScopeId) (isGlobal : Bool) (es : List Expr)
    (r : Stamping) : List Expr × Stamping :=
  match es with
  | [] => ([], r)
  | e :: es =>
    let (e, r) := e.stamp T c isGlobal r
    let (es, r) := Expr.stampAll T c isGlobal es r
    (e :: es, r)

def Stmt.stamp (T : TypeTable) (c : ScopeId) (isGlobal : Bool) (s : Stmt) (r : Stamping) :
    Stmt × Stamping :=
  if r.failure.isSome then (s, r)
  else
    match s with
    | .expr site e =>
      let (e, r) := e.stamp T c isGlobal r
      (.expr { site with scope := some c } e, r)
    | .assign site target value =>
      let (target, r) := target.stamp T c isGlobal r
      let (value, r) := value.stamp T c isGlobal r
      (.assign { site with scope := some c } target value, r)
    | .decl site d =>
      let (d, r) := d.stamp T c isGlobal r
      (.decl { site with scope := some c } d, r)

def Stmt.stampAll (T : TypeTable) (c : ScopeId) (isGlobal : Bool) (ss : List Stmt)
    (r : Stamping) : List Stmt × Stamping :=
  match ss with
  | [] => ([], r)
  | s :: ss =>
    let (s, r) := s.stamp T c isGlobal r
    let (ss, r) := Stmt.stampAll T c isGlobal ss r
    (s :: ss, r)

/-- A variable is bound after its initial value was stamped, a function before its parameters and
its body, in which nothing is global. -/
def Decl.stamp (T : TypeTable) (c : ScopeId) (isGlobal : Bool) (d : Decl) (r : Stamping) :
    Decl × Stamping :=
  if r.failure.isSome then (d, r)
  else
    match d with
    | .var site name signature initial finish =>
      let (initial, r) := initial.stamp T c isGlobal r
      let r := r.declare c ⟨.var, name.text, name.place, finish, isGlobal, signature⟩
      (.var { site with scope := some c } name signature initial finish, r)
    | .fn site name signature params body =>
      let r := r.declare c ⟨.fn, name.text, name.place, name.place, isGlobal, signature⟩
      if r.failure.isSome then
        (.fn { site with scope := some c } name signature params body, r)
      else
        let (inner, r) := r.openScope name.place c
        let r := Stamping.declareParams inner params (T.argumentsOf signature) r
        let (body, r) := body.stamp T inner false r
        (.fn { site with scope := some c } name signature params body, r)

end

def Decl.stampAll (T : TypeTable) (c : ScopeId) (isGlobal : Bool) (ds : List Decl)
    (r : Stamping) : List Decl × Stamping :=
  match ds with
  | [] => ([], r)
  | d :: ds =>
    let (d, r) := d.stamp T c isGlobal r
    let (ds, r) := Decl.stampAll T c isGlobal ds r
    (d :: ds, r)

namespace Program

/-- Opens a root scope for the program in `tree` and stamps the program from there. -/
def buildScopes (T : TypeTable) (p : Program) (tree : ScopeTree) : Program × Stamping :=
  let (root, tree) := tree.push .origin none
  let (decls, r) := Decl.stampAll T root true p.decls { tree }
  (⟨decls, some root⟩, r)

/-- Without an open scope a declaration has nowhere to go. -/
def stampUnrooted (p : Program) : Except Diagnostic Unit :=
  if p.decls.isEmpty then .ok () else .error ⟨.internal "no scope is open", .origin⟩

end Program

end FrontEnd
