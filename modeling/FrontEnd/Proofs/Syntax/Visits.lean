import FrontEnd.Proofs.Syntax.Hereditary

/-! The nodes of a program, each with what stands around it. The scopes that blocks and functions
open are numbered in the order of the text; the number of the next one is part of what stands around
a node. -/

namespace FrontEnd

/-- What stands around a node: the innermost scope, the signature of the innermost function if there
is one, and the scope that is opened next. -/
structure Surroundings where
  scope : ScopeId
  function : Option (Option TypeId)
  next : ScopeId

namespace Surroundings

/-- Behind a node in which `n` scopes are opened. -/
def after (k : Surroundings) (n : Nat) : Surroundings := { k with next := ⟨k.next.index + n⟩ }

def inBlock (k : Surroundings) : Surroundings := { k.after 1 with scope := k.next }

def inFunction (k : Surroundings) (g : Option TypeId) : Surroundings :=
  { k.inBlock with function := some g }

def isGlobal (k : Surroundings) : Bool := k.function.isNone

/-- A program stands in the first of its scopes. -/
def program : Surroundings := ⟨⟨0⟩, none, ⟨1⟩⟩

variable {k : Surroundings}

theorem lt_after (h : k.scope.index < k.next.index) (n : Nat) :
    (k.after n).scope.index < (k.after n).next.index :=
  Nat.lt_of_lt_of_le h (Nat.le_add_right _ _)

theorem lt_inBlock (k : Surroundings) : k.inBlock.scope.index < k.inBlock.next.index :=
  Nat.lt_succ_self _

end Surroundings

structure Visit where
  around : Surroundings
  node : Node

mutual

def Expr.opened : Expr → Nat
  | .leaf _ _ _ => 0
  | .binary _ _ _ l r => l.opened + r.opened
  | .unary _ _ e => e.opened
  | .call _ f as => f.opened + Expr.openedAll as
  | .block _ body => 1 + Stmt.openedAll body
  | .ifThen _ c a => c.opened + a.opened
  | .ifElse _ c a b => c.opened + (a.opened + b.opened)
  | .result _ _ e => e.opened

def Expr.openedAll : List Expr → Nat
  | [] => 0
  | e :: es => e.opened + Expr.openedAll es

def Stmt.opened : Stmt → Nat
  | .expr _ e => e.opened
  | .assign _ l e => l.opened + e.opened
  | .decl _ d => d.opened

def Stmt.openedAll : List Stmt → Nat
  | [] => 0
  | s :: ss => s.opened + Stmt.openedAll ss

def Decl.opened : Decl → Nat
  | .var _ _ _ e _ => e.opened
  | .fn _ _ _ _ e => 1 + e.opened

end

mutual

/-- An expression and all that stands in it. -/
def Expr.visits (k : Surroundings) (e : Expr) : List Visit :=
  ⟨k, .expr e⟩ ::
    match e with
    | .leaf _ _ _ => []
    | .binary _ _ _ l r => l.visits k ++ r.visits (k.after l.opened)
    | .unary _ _ e => e.visits k
    | .call _ f as => f.visits k ++ Expr.visitsAll (k.after f.opened) as
    | .block _ body => Stmt.visitsAll k.inBlock body
    | .ifThen _ c a => c.visits k ++ a.visits (k.after c.opened)
    | .ifElse _ c a b =>
      c.visits k ++ (a.visits (k.after c.opened) ++ b.visits ((k.after c.opened).after a.opened))
    | .result _ _ e => e.visits k

def Expr.visitsAll (k : Surroundings) : List Expr → List Visit
  | [] => []
  | e :: es => e.visits k ++ Expr.visitsAll (k.after e.opened) es

def Stmt.visits (k : Surroundings) (s : Stmt) : List Visit :=
  ⟨k, .stmt s⟩ ::
    match s with
    | .expr _ e => e.visits k
    | .assign _ l e => l.visits k ++ e.visits (k.after l.opened)
    | .decl _ d => d.visits k

def Stmt.visitsAll (k : Surroundings) : List Stmt → List Visit
  | [] => []
  | s :: ss => s.visits k ++ Stmt.visitsAll (k.after s.opened) ss

/-- A variable comes behind its initial value, a function before its body. -/
def Decl.visits (k : Surroundings) : Decl → List Visit
  | .var s n g e p => e.visits k ++ [⟨k, .decl (.var s n g e p)⟩]
  | .fn s n g ps e => ⟨k, .decl (.fn s n g ps e)⟩ :: e.visits (k.inFunction g)

end

def Decl.visitsAll (k : Surroundings) : List Decl → List Visit
  | [] => []
  | d :: ds => d.visits k ++ Decl.visitsAll (k.after d.opened) ds

/-- All nodes of a program. -/
def Program.visits (p : Program) : List Visit := Decl.visitsAll .program p.decls

mutual

/-- The nodes of an expression in the order of the visits. -/
def Expr.nodes (e : Expr) : List Node :=
  .expr e ::
    match e with
    | .leaf _ _ _ => []
    | .binary _ _ _ l r => l.nodes ++ r.nodes
    | .unary _ _ e => e.nodes
    | .call _ f as => f.nodes ++ Expr.nodesOfAll as
    | .block _ body => Stmt.nodesOfAll body
    | .ifThen _ c a => c.nodes ++ a.nodes
    | .ifElse _ c a b => c.nodes ++ (a.nodes ++ b.nodes)
    | .result _ _ e => e.nodes

def Expr.nodesOfAll : List Expr → List Node
  | [] => []
  | e :: es => e.nodes ++ Expr.nodesOfAll es

def Stmt.nodes (s : Stmt) : List Node :=
  .stmt s ::
    match s with
    | .expr _ e => e.nodes
    | .assign _ l e => l.nodes ++ e.nodes
    | .decl _ d => d.nodes

def Stmt.nodesOfAll : List Stmt → List Node
  | [] => []
  | s :: ss => s.nodes ++ Stmt.nodesOfAll ss

def Decl.nodes : Decl → List Node
  | .var s n g e p => e.nodes ++ [.decl (.var s n g e p)]
  | .fn s n g ps e => .decl (.fn s n g ps e) :: e.nodes

end

attribute [grind =] Expr.nodes Expr.nodesOfAll Stmt.nodes Stmt.nodesOfAll Decl.nodes

def Program.nodes (p : Program) : List Node := p.decls.flatMap Decl.nodes

theorem Expr.mem_nodes (e : Expr) : .expr e ∈ e.nodes := by
  cases e <;> exact List.mem_cons_self

namespace Node

/-- The nodes in a node that stands for a tree. -/
def nodes : Node → List Node
  | expr e => e.nodes
  | exprs es => Expr.nodesOfAll es
  | stmt s => s.nodes
  | stmts ss => Stmt.nodesOfAll ss
  | decl d => d.nodes
  | decls ds => ds.flatMap Decl.nodes
  | _ => []

attribute [grind =] nodes

/-- What holds of all nodes in a tree. -/
def Everywhere (P : Node → Prop) (a : Node) : Prop := ∀ b ∈ a.nodes, P b

section Everywhere

variable {P : Node → Prop} {site : ExprSite} {stmtSite : Site} {k : Token} {a b c : Expr}

@[simp] theorem everywhere_leaf {form : LeafForm} :
    Everywhere P (expr (.leaf site form k)) ↔ P (expr (.leaf site form k)) := by
  simp [Everywhere, nodes, Expr.nodes]

@[simp] theorem everywhere_binary {form : BinaryForm} :
    Everywhere P (expr (.binary site form k a b)) ↔
      P (expr (.binary site form k a b)) ∧ Everywhere P (expr a) ∧ Everywhere P (expr b) := by
  simp only [Everywhere, nodes, Expr.nodes, List.forall_mem_cons, List.forall_mem_append]

@[simp] theorem everywhere_unary :
    Everywhere P (expr (.unary site k a)) ↔
      P (expr (.unary site k a)) ∧ Everywhere P (expr a) := by
  simp only [Everywhere, nodes, Expr.nodes, List.forall_mem_cons]

@[simp] theorem everywhere_call {as : List Expr} :
    Everywhere P (expr (.call site a as)) ↔
      P (expr (.call site a as)) ∧ Everywhere P (expr a) ∧ Everywhere P (exprs as) := by
  simp only [Everywhere, nodes, Expr.nodes, List.forall_mem_cons, List.forall_mem_append]

@[simp] theorem everywhere_block {body : List Stmt} :
    Everywhere P (expr (.block site body)) ↔
      P (expr (.block site body)) ∧ Everywhere P (stmts body) := by
  simp only [Everywhere, nodes, Expr.nodes, List.forall_mem_cons]

@[simp] theorem everywhere_ifThen :
    Everywhere P (expr (.ifThen site c a)) ↔
      P (expr (.ifThen site c a)) ∧ Everywhere P (expr c) ∧ Everywhere P (expr a) := by
  simp only [Everywhere, nodes, Expr.nodes, List.forall_mem_cons, List.forall_mem_append]

@[simp] theorem everywhere_ifElse :
    Everywhere P (expr (.ifElse site c a b)) ↔ P (expr (.ifElse site c a b)) ∧
      Everywhere P (expr c) ∧ Everywhere P (expr a) ∧ Everywhere P (expr b) := by
  simp only [Everywhere, nodes, Expr.nodes, List.forall_mem_cons, List.forall_mem_append]

@[simp] theorem everywhere_result {form : ResultForm} :
    Everywhere P (expr (.result site form a)) ↔
      P (expr (.result site form a)) ∧ Everywhere P (expr a) := by
  simp only [Everywhere, nodes, Expr.nodes, List.forall_mem_cons]

@[simp] theorem everywhere_noExpr : Everywhere P (exprs []) := fun _ h => nomatch h

@[simp] theorem everywhere_moreExprs {as : List Expr} :
    Everywhere P (exprs (a :: as)) ↔ Everywhere P (expr a) ∧ Everywhere P (exprs as) := by
  simp only [Everywhere, nodes, Expr.nodesOfAll, List.forall_mem_append]

@[simp] theorem everywhere_evaluated :
    Everywhere P (stmt (.expr stmtSite a)) ↔
      P (stmt (.expr stmtSite a)) ∧ Everywhere P (expr a) := by
  simp only [Everywhere, nodes, Stmt.nodes, List.forall_mem_cons]

@[simp] theorem everywhere_assigned :
    Everywhere P (stmt (.assign stmtSite a b)) ↔
      P (stmt (.assign stmtSite a b)) ∧ Everywhere P (expr a) ∧ Everywhere P (expr b) := by
  simp only [Everywhere, nodes, Stmt.nodes, List.forall_mem_cons, List.forall_mem_append]

@[simp] theorem everywhere_declared {d : Decl} :
    Everywhere P (stmt (.decl stmtSite d)) ↔
      P (stmt (.decl stmtSite d)) ∧ Everywhere P (decl d) := by
  simp only [Everywhere, nodes, Stmt.nodes, List.forall_mem_cons]

@[simp] theorem everywhere_noStmt : Everywhere P (stmts []) := fun _ h => nomatch h

@[simp] theorem everywhere_moreStmts {s : Stmt} {ss : List Stmt} :
    Everywhere P (stmts (s :: ss)) ↔ Everywhere P (stmt s) ∧ Everywhere P (stmts ss) := by
  simp only [Everywhere, nodes, Stmt.nodesOfAll, List.forall_mem_append]

@[simp] theorem everywhere_var {g : Option TypeId} {p : Position} :
    Everywhere P (decl (.var stmtSite k g a p)) ↔
      P (decl (.var stmtSite k g a p)) ∧ Everywhere P (expr a) := by
  simp only [Everywhere, nodes, Decl.nodes, List.forall_mem_append, List.forall_mem_singleton,
    and_comm]

@[simp] theorem everywhere_fn {g : Option TypeId} {ps : List Token} :
    Everywhere P (decl (.fn stmtSite k g ps a)) ↔
      P (decl (.fn stmtSite k g ps a)) ∧ Everywhere P (expr a) := by
  simp only [Everywhere, nodes, Decl.nodes, List.forall_mem_cons]

@[simp] theorem everywhere_noDecl : Everywhere P (decls []) := fun _ h => nomatch h

@[simp] theorem everywhere_moreDecls {d : Decl} {ds : List Decl} :
    Everywhere P (decls (d :: ds)) ↔ Everywhere P (decl d) ∧ Everywhere P (decls ds) := by
  simp only [Everywhere, nodes, List.flatMap_cons, List.forall_mem_append]

end Everywhere

theorem Everywhere.imp {P Q : Node → Prop} {a : Node} (h : Everywhere P a)
    (hPQ : ∀ b, P b → Q b) : Everywhere Q a := fun b hb => hPQ b (h b hb)

theorem Everywhere.self {P : Node → Prop} {e : Expr} (h : Everywhere P (expr e)) : P (expr e) :=
  h _ e.mem_nodes

theorem Everywhere.expr_of_mem {P : Node → Prop} {e : Expr} {es : List Expr}
    (h : Everywhere P (exprs es)) (he : e ∈ es) : Everywhere P (expr e) := by
  induction es with
  | nil => exact nomatch he
  | cons e' es ih =>
    obtain ⟨he', hes⟩ := everywhere_moreExprs.mp h
    rcases List.mem_cons.mp he with rfl | he
    · exact he'
    · exact ih hes he

theorem Everywhere.stmt_of_mem {P : Node → Prop} {s : Stmt} {ss : List Stmt}
    (h : Everywhere P (stmts ss)) (hs : s ∈ ss) : Everywhere P (stmt s) := by
  induction ss with
  | nil => exact nomatch hs
  | cons s' ss ih =>
    obtain ⟨hs', hss⟩ := everywhere_moreStmts.mp h
    rcases List.mem_cons.mp hs with rfl | hs
    · exact hs'
    · exact ih hss hs

/-- The visits of a node are its nodes, whatever stands around it. -/
def Visited : Node → Prop
  | expr e => ∀ k, (e.visits k).map Visit.node = e.nodes
  | exprs es => ∀ k, (Expr.visitsAll k es).map Visit.node = Expr.nodesOfAll es
  | stmt s => ∀ k, (s.visits k).map Visit.node = s.nodes
  | stmts ss => ∀ k, (Stmt.visitsAll k ss).map Visit.node = Stmt.nodesOfAll ss
  | decl d => ∀ k, (d.visits k).map Visit.node = d.nodes
  | _ => True

theorem hereditary_visited : Hereditary Visited := by
  constructor
  all_goals
    intros
    simp_all only [Visited, Expr.visits, Expr.visitsAll, Stmt.visits, Stmt.visitsAll, Decl.visits,
      Expr.nodes, Expr.nodesOfAll, Stmt.nodes, Stmt.nodesOfAll, Decl.nodes, List.map_cons,
      List.map_append, List.map_nil, implies_true]

end Node

theorem Decl.map_node_visitsAll (k : Surroundings) (ds : List Decl) :
    (Decl.visitsAll k ds).map Visit.node = ds.flatMap Decl.nodes := by
  induction ds generalizing k with
  | nil => rfl
  | cons d ds ih =>
    have hd := Node.hereditary_visited.decl d k
    rw [Decl.visitsAll, List.map_append, ih, hd, List.flatMap_cons]

theorem Program.map_node_visits (p : Program) : p.visits.map Visit.node = p.nodes :=
  Decl.map_node_visitsAll .program p.decls

theorem Program.exists_visit {p : Program} {a : Node} (h : a ∈ p.nodes) :
    ∃ v ∈ p.visits, v.node = a := by
  rw [← p.map_node_visits] at h
  exact List.mem_map.mp h

end FrontEnd
