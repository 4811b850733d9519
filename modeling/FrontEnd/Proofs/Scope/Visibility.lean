import FrontEnd.Proofs.Scope.Placement
import FrontEnd.Syntax.Edit

/-! Which names can be used where, read off the syntax tree without any scopes. -/

namespace FrontEnd

mutual

/-- `Γ` are the names that can be used around the expression. A variable of a block can be used
behind its statement, a function of a block behind its name. If the block `hoists` its names they
can be used everywhere in it, but for a variable in its own initial value, where it hides what has
its name further out. A function hoists nothing. -/
def Expr.Resolves (hoists : Bool) (Γ : List String) (e : Expr) : Prop :=
  match e with
  | .leaf site form t => ∀ k ∈ (Expr.leaf site form t).name?, k.text ∈ Γ
  | .binary _ _ _ l r => l.Resolves hoists Γ ∧ r.Resolves hoists Γ
  | .unary _ _ e => e.Resolves hoists Γ
  | .call _ f as => f.Resolves hoists Γ ∧ Expr.AllResolve hoists Γ as
  | .block _ ss =>
    Stmt.AllResolve hoists (if hoists then ss.flatMap Stmt.declared ++ Γ else Γ) ss
  | .ifThen _ a b => a.Resolves hoists Γ ∧ b.Resolves hoists Γ
  | .ifElse _ a b e => a.Resolves hoists Γ ∧ b.Resolves hoists Γ ∧ e.Resolves hoists Γ
  | .result _ _ e => e.Resolves hoists Γ

def Expr.AllResolve (hoists : Bool) (Γ : List String) (es : List Expr) : Prop :=
  match es with
  | [] => True
  | e :: es => e.Resolves hoists Γ ∧ Expr.AllResolve hoists Γ es

def Stmt.Resolves (hoists : Bool) (Γ : List String) (s : Stmt) : Prop :=
  match s with
  | .expr _ e => e.Resolves hoists Γ
  | .assign _ l e => l.Resolves hoists Γ ∧ e.Resolves hoists Γ
  | .decl _ d => d.Resolves hoists Γ

def Stmt.AllResolve (hoists : Bool) (Γ : List String) (ss : List Stmt) : Prop :=
  match ss with
  | [] => True
  | s :: ss => s.Resolves hoists Γ ∧ Stmt.AllResolve hoists (if hoists then Γ else s.declared ++ Γ) ss

def Decl.Resolves (hoists : Bool) (Γ : List String) (d : Decl) : Prop :=
  match d with
  | .var _ n _ e _ => e.Resolves hoists (if hoists then Γ.filter (· ≠ n.text) else Γ)
  | .fn _ n _ ps e =>
    e.Resolves false (ps.map Token.text ++ if hoists then Γ else n.text :: Γ)

end

/-- The names declared in the root can be used in the whole program, but for a variable in its own
initial value. -/
def Decl.ResolvesInRoot (hoists : Bool) (Γ : List String) (d : Decl) : Prop :=
  match d with
  | .var _ n _ e _ => e.Resolves hoists (Γ.filter (· ≠ n.text))
  | .fn _ _ _ ps e => e.Resolves false (ps.map Token.text ++ Γ)

/-- Every name can be used where it stands. The blocks of initial values that stand in the root,
outside all functions, hoist their names if `hoists` says so. -/
def Program.Resolves (hoists : Bool) (p : Program) : Prop :=
  ∀ d ∈ p.decls, d.ResolvesInRoot hoists (p.decls.map fun d => d.name.text)

theorem Decl.resolvesInRoot_true {Γ : List String} {d : Decl} :
    d.ResolvesInRoot true Γ ↔ d.Resolves true Γ := by
  cases d <;> simp [ResolvesInRoot, Decl.Resolves]

/-- None of the expressions is a block that declares a name. -/
def Expr.NoneDeclare (es : List Expr) : Prop :=
  ∀ site ss, Expr.block site ss ∈ es → ∀ s ∈ ss, s.declared = []

/-- Nothing is declared in the initial value of a variable. -/
def Decl.InitialPlain (d : Decl) : Prop :=
  match d with
  | .var _ _ _ e _ => Expr.NoneDeclare e.exprs
  | .fn _ _ _ _ _ => True

/-- No block outside all functions declares a name. -/
def Program.InitialsPlain (p : Program) : Prop := ∀ d ∈ p.decls, d.InitialPlain

namespace Expr.NoneDeclare

variable {e : Expr} {es fs : List Expr}

theorem tail (h : NoneDeclare (e :: es)) : NoneDeclare es :=
  fun site ss hss => h site ss (List.mem_cons_of_mem e hss)

theorem left (h : NoneDeclare (es ++ fs)) : NoneDeclare es :=
  fun site ss hss => h site ss (List.mem_append_left fs hss)

theorem right (h : NoneDeclare (es ++ fs)) : NoneDeclare fs :=
  fun site ss hss => h site ss (List.mem_append_right es hss)

end Expr.NoneDeclare

section Plain

open Expr.NoneDeclare

mutual

/-- Where nothing is declared it does not matter what a block does with its names. -/
theorem Expr.resolves_iff_of_noneDeclare (e : Expr) (h : Expr.NoneDeclare e.exprs)
    (Γ : List String) : e.Resolves true Γ ↔ e.Resolves false Γ := by
  cases e with
  | leaf site form t => simp only [Expr.Resolves]
  | binary site form op l r =>
    have hl := Expr.resolves_iff_of_noneDeclare l h.tail.left Γ
    have hr := Expr.resolves_iff_of_noneDeclare r h.tail.right Γ
    simp only [Expr.Resolves, hl, hr]
  | unary site op e =>
    have he := Expr.resolves_iff_of_noneDeclare e h.tail Γ
    simp only [Expr.Resolves, he]
  | call site f as =>
    have hf := Expr.resolves_iff_of_noneDeclare f h.tail.left Γ
    have has := Expr.allResolve_iff_of_noneDeclare as h.tail.right Γ
    simp only [Expr.Resolves, hf, has]
  | block site ss =>
    have hdeclared : ∀ s ∈ ss, s.declared = [] := h site ss (by simp [Expr.exprs])
    have hnames : ss.flatMap Stmt.declared = [] := List.flatMap_eq_nil_iff.mpr hdeclared
    have hss := Stmt.allResolve_iff_of_noneDeclare ss hdeclared h.tail Γ
    simp only [Expr.Resolves, hnames, List.nil_append, ite_self, hss]
  | ifThen site a b =>
    have ha := Expr.resolves_iff_of_noneDeclare a h.tail.left Γ
    have hb := Expr.resolves_iff_of_noneDeclare b h.tail.right Γ
    simp only [Expr.Resolves, ha, hb]
  | ifElse site a b e =>
    have ha := Expr.resolves_iff_of_noneDeclare a h.tail.left Γ
    have hb := Expr.resolves_iff_of_noneDeclare b h.tail.right.left Γ
    have he := Expr.resolves_iff_of_noneDeclare e h.tail.right.right Γ
    simp only [Expr.Resolves, ha, hb, he]
  | result site form e =>
    have he := Expr.resolves_iff_of_noneDeclare e h.tail Γ
    simp only [Expr.Resolves, he]

theorem Expr.allResolve_iff_of_noneDeclare (es : List Expr) (h : Expr.NoneDeclare (Expr.exprsIn es))
    (Γ : List String) : Expr.AllResolve true Γ es ↔ Expr.AllResolve false Γ es := by
  cases es with
  | nil => simp only [Expr.AllResolve]
  | cons e es =>
    have he := Expr.resolves_iff_of_noneDeclare e h.left Γ
    have hes := Expr.allResolve_iff_of_noneDeclare es h.right Γ
    simp only [Expr.AllResolve, he, hes]

theorem Stmt.resolves_iff_of_noneDeclare (s : Stmt) (hs : s.declared = [])
    (h : Expr.NoneDeclare s.exprs) (Γ : List String) :
    s.Resolves true Γ ↔ s.Resolves false Γ := by
  cases s with
  | expr site e =>
    have he := Expr.resolves_iff_of_noneDeclare e h Γ
    simp only [Stmt.Resolves, he]
  | assign site l e =>
    have hl := Expr.resolves_iff_of_noneDeclare l h.left Γ
    have he := Expr.resolves_iff_of_noneDeclare e h.right Γ
    simp only [Stmt.Resolves, hl, he]
  | decl site d => exact absurd hs (List.cons_ne_nil _ _)

theorem Stmt.allResolve_iff_of_noneDeclare (ss : List Stmt) (hss : ∀ s ∈ ss, s.declared = [])
    (h : Expr.NoneDeclare (Stmt.exprsIn ss)) (Γ : List String) :
    Stmt.AllResolve true Γ ss ↔ Stmt.AllResolve false Γ ss := by
  cases ss with
  | nil => simp only [Stmt.AllResolve]
  | cons s ss =>
    obtain ⟨hs, hss⟩ := List.forall_mem_cons.mp hss
    have hfirst := Stmt.resolves_iff_of_noneDeclare s hs h.left Γ
    have hrest := Stmt.allResolve_iff_of_noneDeclare ss hss h.right Γ
    simp only [Stmt.AllResolve, hs, List.nil_append, ite_self, hfirst, hrest]

end

theorem Program.resolves_iff_of_initialsPlain {p : Program} (h : p.InitialsPlain) :
    p.Resolves true ↔ p.Resolves false := by
  refine forall₂_congr fun d hd => ?_
  have hplain := h d hd
  cases d with
  | var site n t e f => exact e.resolves_iff_of_noneDeclare hplain _
  | fn site n t ps e => exact Iff.rfl

end Plain

end FrontEnd
