import FrontEnd.Proofs.Typing.Correspondence

/-! Like programs are typed alike: the same types are written on them, or the same fault stops the
work at a like place. -/

namespace FrontEnd

open Correspondence

variable {R : Position → Position → Prop}

structure TypeContext.Like (R : Position → Position → Prop) (X X' : TypeContext) : Prop where
  scopes : X.scopes.Like R X'.scopes
  types : X.types = X'.types
  inferred : X.inferred = X'.inferred

structure Annotating.Like (R : Position → Position → Prop) (r r' : Annotating) : Prop where
  context : r.context.Like R r'.context
  failure : Option.Rel (Diagnostic.Like R) r.failure r'.failure

theorem TypeContext.Like.contexts (hR : KeepsOrder R) {X X' : TypeContext} (h : X.Like R X') :
    (sameScopes R Eq).Contexts X X' where
  trees := h.scopes.trees hR
  tables := h.types ▸ tables_self X.types
  inferred hs _ := by
    obtain rfl := hs
    exact rel_eq_iff.mpr (congrArg _ h.inferred)

theorem Node.Like.annotate (hR : KeepsOrder R) {a a' : Node} (h : a.Like R Eq a')
    (fn : Option TypeId) {r r' : Annotating} (hr : r.Like R r') :
    (a.annotate fn r).1.Like R Eq (a'.annotate fn r').1 ∧
      Option.Rel (Diagnostic.Like R) (a.annotate fn r).2.failure (a'.annotate fn r').2.failure := by
  have hruns : (sameScopes R Eq).Runs r r' := ⟨hr.context.contexts hR, hr.failure⟩
  obtain ⟨hnodes, hdone⟩ := h.corresponds.annotate (rel_eq_iff.mpr (Eq.refl fn)) hruns
  exact ⟨hnodes.like, hdone.failure⟩

end FrontEnd
