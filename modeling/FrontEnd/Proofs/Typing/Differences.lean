import FrontEnd.Proofs.Types.Unfolding
import FrontEnd.Proofs.Typing.Steps

/-! The faults of checks that compare two types. Such a fault shows both of them, and since types
that are shown alike are equal, it never shows the same text twice. -/

namespace FrontEnd

/-- The two types that are said to be different, as they are shown. -/
def Fault.difference? : Fault → Option (String × String)
  | conditionNotBool found => some (Primitive.bool.name, found)
  | branchesDiffer thenType elseType => some (thenType, elseType)
  | argumentType _ expected received => some (expected, received)
  | returnType expected received => some (expected, received)
  | assignedType expected received => some (expected, received)
  | initialType expected received => some (expected, received)
  | _ => none

def Fault.TellsApart (f : Fault) : Prop := ∀ s ∈ f.difference?, s.1 ≠ s.2

theorem Fault.tellsApart_of_none {f : Fault} (h : f.difference? = none) : f.TellsApart :=
  fun _ hs => nomatch h.symm.trans hs

theorem Fault.tellsApart_of_some {f : Fault} {a b : String} (h : f.difference? = some (a, b))
    (hne : a ≠ b) : f.TellsApart := by
  intro s hs
  obtain rfl := Option.some.inj (h.symm.trans hs)
  exact hne

/-- The computation does not fail with a fault that shows the same type twice. -/
def Discerns {α : Type} (x : Except Diagnostic α) : Prop := FailsOnly (·.fault.TellsApart) x

namespace Discerns

variable {X : TypeContext} {fn : Option TypeId} {α : Type}

theorem error {d : Diagnostic} (h : d.fault.difference? = none) :
    Discerns (.error d : Except _ α) := FailsOnly.error (Fault.tellsApart_of_none h)

theorem written (e : Expr) : Discerns e.written := by
  unfold Expr.written
  split
  · exact .ok _
  · exact error rfl

theorem compare (hX : X.types.Reachable) {a b : TypeId} (ha : X.types.Holds a)
    (hb : X.types.Holds b) {x : Except Diagnostic α} {d : Diagnostic} (hx : Discerns x)
    (hd : d.fault.difference? = some (X.shown a, X.shown b)) :
    Discerns (if X.same a b then x else .error d) := by
  refine .ite (fun _ => hx) fun hsame => ?_
  exact Fault.tellsApart_of_some hd (mt (hX.shown_eq_iff ha hb).mp hsame)

theorem requireInt (e : Expr) (p : Position) : Discerns (X.requireInt e p) :=
  .bind (written e) fun _ _ => .ite (fun _ => .ok _) fun _ => Fault.tellsApart_of_none rfl

theorem requireBool (hX : X.types.Reachable) {e : Expr} (he : ∀ t ∈ e.type, X.types.Holds t) :
    Discerns (X.requireBool e) := by
  refine .bind (written e) fun t ht => .ite (fun _ => .ok _) fun hsame => ?_
  have hbool : X.types.Holds (TypeTable.primitive .bool) := hX.holds_primitive .bool
  have hne := mt (hX.shown_eq_iff (he t (Expr.written_eq_ok.mp ht)) hbool).mp hsame
  have hshown : X.types.shown (TypeTable.primitive .bool) = Primitive.bool.name := by
    simp only [TypeTable.shown, TypeTable.shownWithin, hX.shape?_primitive]
  exact Fault.tellsApart_of_some rfl (hshown ▸ Ne.symm hne)

theorem requireArguments (hX : X.types.Reachable) {n : Nat} {ts : List TypeId} {es : List Expr}
    (hts : ∀ t ∈ ts, X.types.Holds t) (hes : ∀ e ∈ es, ∀ t ∈ e.type, X.types.Holds t) :
    Discerns (X.requireArguments n ts es) := by
  induction es generalizing n ts with
  | nil => cases ts <;> exact .ok _
  | cons e es ih =>
    cases ts with
    | nil => exact .ok _
    | cons t ts =>
      rw [List.forall_mem_cons] at hts hes
      exact .bind (written e) fun u hu =>
        compare hX hts.1 (hes.1 u (Expr.written_eq_ok.mp hu)) (ih hts.2 hes.2) rfl

theorem resolve (c : Option ScopeId) (k : Token) : Discerns (X.resolve c k) := by
  unfold TypeContext.resolve
  split
  · exact .ok _
  · exact error rfl

theorem symbolType (s : SymbolId) (k : Token) : Discerns (X.symbolType s k) := by
  unfold TypeContext.symbolType
  dsimp only
  split
  · exact .ok _
  · exact error rfl

theorem leafType (site : ExprSite) (k : Token) : Discerns (X.leafType site k) := by
  unfold TypeContext.leafType
  split
  · exact .ok _
  · exact .ok _
  · exact .ok _
  · exact .ok _
  · exact .bind (resolve _ _) fun s _ => symbolType s k
  · exact error rfl

theorem blockType (ss : List Stmt) : Discerns (TypeContext.blockType ss) := by
  unfold TypeContext.blockType
  split
  · exact written _
  · exact .ok _

theorem callType (hX : X.types.Reachable) {site : ExprSite} {f : Expr} {as : List Expr}
    (has : ∀ e ∈ as, ∀ t ∈ e.type, X.types.Holds t) : Discerns (X.callType site f as) := by
  refine .bind (written f) fun t _ => ?_
  split
  next => exact error rfl
  next ts r hf =>
    have hts := (hX.holds_of_function? hf).1
    exact .ite (fun _ => .bind (requireArguments hX hts has) fun _ _ => .ok _) fun _ =>
      Fault.tellsApart_of_none rfl

theorem resultType (hX : X.types.Reachable) {site : ExprSite} {form : ResultForm} {v : Expr}
    (hv : ∀ t ∈ v.type, X.types.Holds t) : Discerns (X.resultType fn site form v) := by
  unfold TypeContext.resultType
  split
  next => exact written v
  next =>
    split
    next => exact error rfl
    next g =>
      split
      next => exact error rfl
      next ts r hg =>
        exact .bind (written v) fun u hu =>
          compare hX (hX.holds_of_function? hg).2 (hv u (Expr.written_eq_ok.mp hu)) (.ok _) rfl

theorem ifElse (hX : X.types.Reachable) {site : ExprSite} {c a b : Expr}
    (hc : ∀ t ∈ c.type, X.types.Holds t) (ha : ∀ t ∈ a.type, X.types.Holds t)
    (hb : ∀ t ∈ b.type, X.types.Holds t) : Discerns (X.typeOf fn (.ifElse site c a b)) := by
  refine .bind (requireBool hX hc) fun _ _ => .bind (written a) fun t ht => ?_
  exact .bind (written b) fun u hu =>
    compare hX (ha t (Expr.written_eq_ok.mp ht)) (hb u (Expr.written_eq_ok.mp hu)) (.ok _) rfl

theorem checkAssignment (hX : X.types.Reachable)
    (hs : ∀ s k t, X.symbolType s k = .ok t → X.types.Holds t) {l e : Expr}
    (he : ∀ t ∈ e.type, X.types.Holds t) : Discerns (X.checkAssignment l e) := by
  unfold TypeContext.checkAssignment
  split
  next => exact error rfl
  next k _ =>
    refine .bind (resolve _ _) fun s _ => .ite (fun _ => ?_) fun _ => Fault.tellsApart_of_none rfl
    refine .bind (symbolType s k) fun t ht => .bind (written e) fun u hu => ?_
    exact compare hX (hs s k t ht) (he u (Expr.written_eq_ok.mp hu)) (.ok _) rfl

theorem declareVar (hX : X.types.Reachable) {site : Site} {n : Token} {g : Option TypeId}
    {e : Expr} (hg : ∀ t ∈ g, X.types.Holds t) (he : ∀ t ∈ e.type, X.types.Holds t) :
    Discerns (X.declareVar site n g e) := by
  refine .bind (written e) fun u hu => ?_
  split
  next t => exact compare hX (hg t rfl) (he u (Expr.written_eq_ok.mp hu)) (.ok _) rfl
  next =>
    split
    · exact .ok _
    · exact error rfl

end Discerns

end FrontEnd
