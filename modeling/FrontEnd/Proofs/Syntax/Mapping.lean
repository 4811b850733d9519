import FrontEnd.Proofs.Syntax.Hereditary

/-! Maps over syntax trees. A map changes what single nodes carry and leaves the shape of the tree
alone. -/

namespace FrontEnd

/-- What is done to the sites and to the tokens of a tree. -/
structure NodeMap where
  site : Site → Site := id
  exprSite : ExprSite → ExprSite := id
  token : Token → Token := id

mutual

def Expr.map (M : NodeMap) : Expr → Expr
  | .leaf s form k => .leaf (M.exprSite s) form (M.token k)
  | .binary s form k l r => .binary (M.exprSite s) form (M.token k) (l.map M) (r.map M)
  | .unary s k e => .unary (M.exprSite s) (M.token k) (e.map M)
  | .call s f as => .call (M.exprSite s) (f.map M) (Expr.mapAll M as)
  | .block s body => .block (M.exprSite s) (Stmt.mapAll M body)
  | .ifThen s c a => .ifThen (M.exprSite s) (c.map M) (a.map M)
  | .ifElse s c a b => .ifElse (M.exprSite s) (c.map M) (a.map M) (b.map M)
  | .result s form e => .result (M.exprSite s) form (e.map M)

def Expr.mapAll (M : NodeMap) : List Expr → List Expr
  | [] => []
  | e :: es => e.map M :: Expr.mapAll M es

def Stmt.map (M : NodeMap) : Stmt → Stmt
  | .expr s e => .expr (M.site s) (e.map M)
  | .assign s l e => .assign (M.site s) (l.map M) (e.map M)
  | .decl s d => .decl (M.site s) (d.map M)

def Stmt.mapAll (M : NodeMap) : List Stmt → List Stmt
  | [] => []
  | s :: ss => s.map M :: Stmt.mapAll M ss

def Decl.map (M : NodeMap) : Decl → Decl
  | .var s n g e p => .var (M.site s) (M.token n) g (e.map M) p
  | .fn s n g ps e => .fn (M.site s) (M.token n) g (ps.map M.token) (e.map M)

end

namespace Node

/-- Signatures and types are left alone. -/
def map (M : NodeMap) : Node → Node
  | expr e => expr (e.map M)
  | exprs es => exprs (Expr.mapAll M es)
  | stmt s => stmt (s.map M)
  | stmts ss => stmts (Stmt.mapAll M ss)
  | decl d => decl (d.map M)
  | decls ds => decls (ds.map (Decl.map M))
  | a => a

end Node

def NodeMap.ofToken (f : Token → Token) : NodeMap := { token := f }

/-- The scope that the program is stamped with is left alone. -/
def Program.map (M : NodeMap) (p : Program) : Program :=
  { p with decls := p.decls.map (Decl.map M) }

theorem Expr.mapAll_eq_map (M : NodeMap) (es : List Expr) :
    Expr.mapAll M es = es.map (Expr.map M) := by
  induction es with
  | nil => rfl
  | cons e es ih => rw [Expr.mapAll, ih, List.map_cons]

/-- Changes what tokens say, not what they are or where they stand. -/
structure Relabels (f : Token → Token) : Prop where
  kind (k : Token) : (f k).kind = k.kind
  place (k : Token) : (f k).place = k.place
  endAt (p : Position) : f (.endAt p) = .endAt p

section OfToken

variable {f : Token → Token}

theorem Expr.site_map_ofToken (e : Expr) : (e.map (.ofToken f)).site = e.site := by
  cases e <;> rfl

theorem Expr.place_map_ofToken (e : Expr) : (e.map (.ofToken f)).place = e.place :=
  congrArg (fun s : ExprSite => s.place) e.site_map_ofToken

theorem Expr.type_map_ofToken (e : Expr) : (e.map (.ofToken f)).type = e.type :=
  congrArg ExprSite.type e.site_map_ofToken

theorem Decl.place_map_ofToken (d : Decl) : (d.map (.ofToken f)).place = d.place := by
  cases d <;> rfl

theorem Expr.name?_map_ofToken (hf : Relabels f) (e : Expr) :
    (e.map (.ofToken f)).name? = e.name?.map f := by
  cases e with
  | leaf s form k =>
    cases form with
    | access => rfl
    | literal =>
      have hk : ((NodeMap.ofToken f).token k).kind = k.kind := hf.kind k
      simp only [Expr.map, Expr.name?, hk]
      split <;> rfl
  | _ => rfl

end OfToken

end FrontEnd
