import FrontEnd.Syntax.Tree

/-! The parts of a program in the order of its text, and edits of single parts that leave the rest
alone. A part comes before the parts inside it. -/

namespace FrontEnd

mutual

/-- An expression and all expressions inside it. -/
def Expr.exprs : Expr → List Expr
  | .leaf s form t => [.leaf s form t]
  | .binary s form op l r => .binary s form op l r :: (l.exprs ++ r.exprs)
  | .unary s op e => .unary s op e :: e.exprs
  | .call s callee args => .call s callee args :: (callee.exprs ++ Expr.exprsIn args)
  | .block s body => .block s body :: Stmt.exprsIn body
  | .ifThen s c t => .ifThen s c t :: (c.exprs ++ t.exprs)
  | .ifElse s c t e => .ifElse s c t e :: (c.exprs ++ (t.exprs ++ e.exprs))
  | .result s form v => .result s form v :: v.exprs

def Expr.exprsIn : List Expr → List Expr
  | [] => []
  | e :: es => e.exprs ++ Expr.exprsIn es

def Stmt.exprs : Stmt → List Expr
  | .expr _ e => e.exprs
  | .assign _ target value => target.exprs ++ value.exprs
  | .decl _ d => d.exprs

def Stmt.exprsIn : List Stmt → List Expr
  | [] => []
  | s :: ss => s.exprs ++ Stmt.exprsIn ss

def Decl.exprs : Decl → List Expr
  | .var _ _ _ initial _ => initial.exprs
  | .fn _ _ _ _ body => body.exprs

end

def Program.exprs (p : Program) : List Expr := p.decls.flatMap Decl.exprs

/-- An edit looks at each expression and each declared signature in turn, with a state `σ` that
runs along. A replaced expression is not looked into. -/
structure Edit (σ : Type) where
  onExpr : Expr → σ → Option Expr × σ
  onSignature : Option TypeId → σ → Option TypeId × σ

mutual

def Expr.edit {σ : Type} (E : Edit σ) (e : Expr) (x : σ) : Expr × σ :=
  match E.onExpr e x with
  | (some e', x) => (e', x)
  | (none, x) =>
    match e with
    | .leaf s form t => (.leaf s form t, x)
    | .binary s form op l r =>
      let (l, x) := l.edit E x
      let (r, x) := r.edit E x
      (.binary s form op l r, x)
    | .unary s op e =>
      let (e, x) := e.edit E x
      (.unary s op e, x)
    | .call s callee args =>
      let (callee, x) := callee.edit E x
      let (args, x) := Expr.editAll E args x
      (.call s callee args, x)
    | .block s body =>
      let (body, x) := Stmt.editAll E body x
      (.block s body, x)
    | .ifThen s c t =>
      let (c, x) := c.edit E x
      let (t, x) := t.edit E x
      (.ifThen s c t, x)
    | .ifElse s c t e =>
      let (c, x) := c.edit E x
      let (t, x) := t.edit E x
      let (e, x) := e.edit E x
      (.ifElse s c t e, x)
    | .result s form v =>
      let (v, x) := v.edit E x
      (.result s form v, x)

def Expr.editAll {σ : Type} (E : Edit σ) (es : List Expr) (x : σ) : List Expr × σ :=
  match es with
  | [] => ([], x)
  | e :: es =>
    let (e, x) := e.edit E x
    let (es, x) := Expr.editAll E es x
    (e :: es, x)

def Stmt.edit {σ : Type} (E : Edit σ) (s : Stmt) (x : σ) : Stmt × σ :=
  match s with
  | .expr site e =>
    let (e, x) := e.edit E x
    (.expr site e, x)
  | .assign site target value =>
    let (target, x) := target.edit E x
    let (value, x) := value.edit E x
    (.assign site target value, x)
  | .decl site d =>
    let (d, x) := d.edit E x
    (.decl site d, x)

def Stmt.editAll {σ : Type} (E : Edit σ) (ss : List Stmt) (x : σ) : List Stmt × σ :=
  match ss with
  | [] => ([], x)
  | s :: ss =>
    let (s, x) := s.edit E x
    let (ss, x) := Stmt.editAll E ss x
    (s :: ss, x)

def Decl.edit {σ : Type} (E : Edit σ) (d : Decl) (x : σ) : Decl × σ :=
  match d with
  | .var site name signature initial finish =>
    let (signature, x) := E.onSignature signature x
    let (initial, x) := initial.edit E x
    (.var site name signature initial finish, x)
  | .fn site name signature params body =>
    let (signature, x) := E.onSignature signature x
    let (body, x) := body.edit E x
    (.fn site name signature params body, x)

end

def Decl.editAll {σ : Type} (E : Edit σ) (ds : List Decl) (x : σ) : List Decl × σ :=
  match ds with
  | [] => ([], x)
  | d :: ds =>
    let (d, x) := d.edit E x
    let (ds, x) := Decl.editAll E ds x
    (d :: ds, x)

namespace Program

def edit {σ : Type} (E : Edit σ) (p : Program) (x : σ) : Program × σ :=
  let (decls, x) := Decl.editAll E p.decls x
  ({ p with decls }, x)

/-- Counts down to the part to be changed; `none` once it is behind. -/
def step {α : Type} (here : α) (past : α) : Option Nat → α × Option Nat
  | none => (past, none)
  | some 0 => (here, none)
  | some (n + 1) => (past, some n)

/-- Makes the `n`-th expression a leaf with the given token, placed where the expression stands.
Fails if there are fewer expressions. -/
def setLeaf? (p : Program) (n : Nat) (form : LeafForm) (kind : TokenKind) (payload : Payload) :
    Option Program :=
  let E : Edit (Option Nat) :=
    { onExpr := fun e => step (some (.leaf e.site form ⟨kind, payload, e.place⟩)) none
      onSignature := fun signature left => (signature, left) }
  match p.edit E (some n) with
  | (p, none) => some p
  | (_, some _) => none

/-- Gives the `n`-th declaration another signature. Fails if there are fewer declarations. -/
def setSignature? (p : Program) (n : Nat) (signature : Option TypeId) : Option Program :=
  let E : Edit (Option Nat) :=
    { onExpr := fun _ left => (none, left)
      onSignature := fun old => step signature old }
  match p.edit E (some n) with
  | (p, none) => some p
  | (_, some _) => none

end Program

end FrontEnd
