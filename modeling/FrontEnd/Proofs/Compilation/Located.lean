import FrontEnd.Proofs.Compilation.Preconditions
import FrontEnd.Proofs.Diagnostic.Excerpt
import FrontEnd.Proofs.Grammar.Failure
import FrontEnd.Proofs.Grammar.Wording
import FrontEnd.Proofs.Scope.Clashes
import FrontEnd.Proofs.Syntax.Sources

/-! Whatever is told of a source is told at one of its tokens, and it is shown on one line. -/

namespace FrontEnd

/-- The diagnostic stands at a token of `w` and is shown on one line. -/
structure Diagnostic.Located (w : List Token) (d : Diagnostic) : Prop where
  place : ∃ k ∈ w, k.place = d.place
  inLine : d.fault.InLine

variable {w : List Token}

theorem Diagnostic.Located.of_bare {f : Fault} {p : Position} (hp : ∃ k ∈ w, k.place = p)
    (hf : f.bare = []) : Located w ⟨f, p⟩ := ⟨hp, Fault.inLine_of_bare_eq_nil hf⟩

open Text (inLine_append inLine_quote)

section Names

variable {F : ScopeTree} {e : Expr} {a : Node}

end Names

namespace TypeContext

variable {X : TypeContext} {e l : Expr} {p : Position} {k : Token}

end TypeContext

namespace TypingStep

variable {X X' : TypeContext} {a : TypingStep} {as : List TypingStep}

/-- What is looked at in the step stands in `w`. -/
def MadeOf (w : List Token) : TypingStep → Prop
  | type _ e => (Node.expr e).Everywhere (Node.MadeOf w)
  | assign l e => Node.MadeOf w (.expr l) ∧ Node.MadeOf w (.expr e)
  | declare _ n _ e => n ∈ w ∧ Node.MadeOf w (.expr e)
  | unsigned n => n.kind = .identifier ∧ n ∈ w

end TypingStep

/-- The steps of the node stand where the nodes in it do. -/
def Node.StepsStandIn (w : List Token) (a : Node) : Prop :=
  a.Everywhere (MadeOf w) → ∀ fn, ∀ b ∈ a.steps fn, b.MadeOf w

theorem Node.hereditary_stepsStandIn (w : List Token) : Hereditary (StepsStandIn w) where
  leaf h fn := by
    simp only [steps, Expr.steps, List.forall_mem_singleton]
    exact h
  binary iha ihb h fn := by
    obtain ⟨-, ha, hb⟩ := everywhere_binary.mp h
    simp only [steps, Expr.steps, List.forall_mem_append, List.forall_mem_singleton]
    exact ⟨⟨iha ha fn, ihb hb fn⟩, h⟩
  unary iha h fn := by
    simp only [steps, Expr.steps, List.forall_mem_append, List.forall_mem_singleton]
    exact ⟨iha (everywhere_unary.mp h).2 fn, h⟩
  call ihf ihas h fn := by
    obtain ⟨-, hf, has⟩ := everywhere_call.mp h
    simp only [steps, Expr.steps, List.forall_mem_append, List.forall_mem_singleton]
    exact ⟨⟨ihf hf fn, ihas has fn⟩, h⟩
  block ihss h fn := by
    simp only [steps, Expr.steps, List.forall_mem_append, List.forall_mem_singleton]
    exact ⟨ihss (everywhere_block.mp h).2 fn, h⟩
  ifThen ihc iha h fn := by
    obtain ⟨-, hc, ha⟩ := everywhere_ifThen.mp h
    simp only [steps, Expr.steps, List.forall_mem_append, List.forall_mem_singleton]
    exact ⟨⟨ihc hc fn, iha ha fn⟩, h⟩
  ifElse ihc iha ihb h fn := by
    obtain ⟨-, hc, ha, hb⟩ := everywhere_ifElse.mp h
    simp only [steps, Expr.steps, List.forall_mem_append, List.forall_mem_singleton]
    exact ⟨⟨ihc hc fn, iha ha fn, ihb hb fn⟩, h⟩
  result iha h fn := by
    simp only [steps, Expr.steps, List.forall_mem_append, List.forall_mem_singleton]
    exact ⟨iha (everywhere_result.mp h).2 fn, h⟩
  noExpr _ _ := by simp [steps, Expr.stepsOfAll]
  moreExprs ihe ihes h fn := by
    obtain ⟨he, hes⟩ := everywhere_moreExprs.mp h
    simp only [steps, Expr.stepsOfAll]
    exact List.forall_mem_append.mpr ⟨ihe he fn, ihes hes fn⟩
  evaluated ihe h fn := by
    simp only [steps, Stmt.steps]
    exact ihe (everywhere_evaluated.mp h).2 fn
  assigned ihl ihe h fn := by
    obtain ⟨-, hl, he⟩ := everywhere_assigned.mp h
    simp only [steps, Stmt.steps, List.forall_mem_append, List.forall_mem_singleton]
    exact ⟨⟨ihl hl fn, ihe he fn⟩, hl.self, he.self⟩
  declared ihd h fn := by
    simp only [steps, Stmt.steps]
    exact ihd (everywhere_declared.mp h).2 fn
  noStmt _ _ := by simp [steps, Stmt.stepsOfAll]
  moreStmts ihs ihss h fn := by
    obtain ⟨hs, hss⟩ := everywhere_moreStmts.mp h
    simp only [steps, Stmt.stepsOfAll]
    exact List.forall_mem_append.mpr ⟨ihs hs fn, ihss hss fn⟩
  var ihe h fn := by
    obtain ⟨hself, he⟩ := everywhere_var.mp h
    simp only [steps, Decl.steps, List.forall_mem_append, List.forall_mem_singleton]
    exact ⟨ihe he fn, hself.2, he.self⟩
  fn {_ _ g _ _} ihe h fn := by
    obtain ⟨hself, he⟩ := everywhere_fn.mp h
    cases g with
    | none =>
      simp only [steps, Decl.steps]
      exact List.forall_mem_cons.mpr ⟨hself _ List.mem_cons_self, ihe he none⟩
    | some g =>
      simp only [steps, Decl.steps]
      exact ihe he (some g)

namespace Program

variable {p q : Program} {T : TypeTable} {S : ScopeTree} {source : String}

theorem MadeOf.steps (h : p.MadeOf w) : ∀ a ∈ p.steps, a.MadeOf w := by
  intro a ha
  obtain ⟨d, hd, ha⟩ := List.mem_flatMap.mp ha
  have hdecl : (Node.decl d).Everywhere (Node.MadeOf w) := fun b hb =>
    h b (List.mem_flatMap.mpr ⟨d, hd, hb⟩)
  exact (Node.hereditary_stepsStandIn w).decl d hdecl none a ha

/-- The symbols that a program binds have names of `w`, and they stand there. -/
theorem MadeOf.bindings {vs : List Visit} (h : ∀ v ∈ vs, v.node.MadeOf w) :
    ∀ b ∈ vs.flatMap (Visit.binds T), ∃ k : Token, (k.kind = .identifier ∧ k ∈ w) ∧
      b.2.name = k.text ∧ b.2.place = k.place := by
  intro b hb
  obtain ⟨v, hv, hb⟩ := List.mem_flatMap.mp hb
  have hnode := h v hv
  unfold Visit.binds at hb
  split at hb
  next n g e finish hvar =>
    rw [hvar] at hnode
    obtain rfl := List.mem_singleton.mp hb
    exact ⟨n, hnode, rfl, rfl⟩
  next n g ps e hfn =>
    rw [hfn] at hnode
    rcases List.mem_cons.mp hb with rfl | hb
    · exact ⟨n, hnode n List.mem_cons_self, rfl, rfl⟩
    · obtain ⟨i, hi, rfl⟩ := List.mem_mapIdx.mp hb
      exact ⟨ps[i], hnode _ (List.mem_cons_of_mem _ (List.getElem_mem hi)), rfl, rfl⟩
  next => exact nomatch hb

end Program

end FrontEnd
