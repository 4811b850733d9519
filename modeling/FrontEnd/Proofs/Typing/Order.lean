import Mathlib
import FrontEnd.Proofs.Syntax.Hereditary
import FrontEnd.Proofs.Typing.Correspondence
import FrontEnd.Proofs.Typing.Results
import FrontEnd.Syntax.Edit

/-! The order in which a program is typed. An expression comes behind its parts; between them stand
the checks of assignments and of declarations. A run passes the steps one by one until one of them
fails, and touches none behind that one. -/

namespace FrontEnd

/-- What is done at one point: an expression inside a function of the signature `fn` gets its type,
or an assignment or a declaration is checked. -/
inductive TypingStep where
  | type (fn : Option TypeId) (e : Expr)
  | assign (target value : Expr)
  | declare (site : Site) (name : Token) (signature : Option TypeId) (initial : Expr)
  | unsigned (name : Token)

namespace TypingStep

def expr? : TypingStep → Option Expr
  | type _ e => some e
  | _ => none

/-- The place for the type of the expression, with what is written there. -/
def slot (a : TypingStep) : Option (Option TypeId) := a.expr?.map Expr.type

def check (X : TypeContext) : TypingStep → Except Diagnostic TypeContext
  | type fn e => (X.typeOf fn e).map fun _ => X
  | assign l e => (X.checkAssignment l e).map fun _ => X
  | declare site n g e => X.declareVar site n g e
  | unsigned n => .error ⟨.missingSignature n.text, n.place⟩

/-- The type that the step finds is the one that is written on the expression. -/
def Written (X : TypeContext) : TypingStep → Prop
  | type fn e => ∃ t, X.typeOf fn e = .ok t ∧ e.type = some t
  | _ => True

end TypingStep

mutual

def Expr.steps (fn : Option TypeId) : Expr → List TypingStep
  | .leaf s form k => [.type fn (.leaf s form k)]
  | .binary s form k l r => (l.steps fn ++ r.steps fn) ++ [.type fn (.binary s form k l r)]
  | .unary s k e => e.steps fn ++ [.type fn (.unary s k e)]
  | .call s f as => (f.steps fn ++ Expr.stepsOfAll fn as) ++ [.type fn (.call s f as)]
  | .block s body => Stmt.stepsOfAll fn body ++ [.type fn (.block s body)]
  | .ifThen s c a => (c.steps fn ++ a.steps fn) ++ [.type fn (.ifThen s c a)]
  | .ifElse s c a b =>
    (c.steps fn ++ (a.steps fn ++ b.steps fn)) ++ [.type fn (.ifElse s c a b)]
  | .result s form e => e.steps fn ++ [.type fn (.result s form e)]

def Expr.stepsOfAll (fn : Option TypeId) : List Expr → List TypingStep
  | [] => []
  | e :: es => e.steps fn ++ Expr.stepsOfAll fn es

def Stmt.steps (fn : Option TypeId) : Stmt → List TypingStep
  | .expr _ e => e.steps fn
  | .assign _ l e => (l.steps fn ++ e.steps fn) ++ [.assign l e]
  | .decl _ d => d.steps fn

def Stmt.stepsOfAll (fn : Option TypeId) : List Stmt → List TypingStep
  | [] => []
  | s :: ss => s.steps fn ++ Stmt.stepsOfAll fn ss

/-- A function without a signature fails before its body is looked into. -/
def Decl.steps (fn : Option TypeId) : Decl → List TypingStep
  | .var s n g e _ => e.steps fn ++ [.declare s n g e]
  | .fn _ n none _ e => .unsigned n :: e.steps none
  | .fn _ _ (some g) _ e => e.steps (some g)

end

namespace Node

def steps (fn : Option TypeId) : Node → List TypingStep
  | expr e => e.steps fn
  | exprs es => Expr.stepsOfAll fn es
  | stmt s => s.steps fn
  | stmts ss => Stmt.stepsOfAll fn ss
  | decl d => d.steps fn
  | decls ds => ds.flatMap (Decl.steps fn)
  | _ => []

end Node

def Program.steps (p : Program) : List TypingStep := p.decls.flatMap (Decl.steps none)

/-- From `X` all the steps succeed, one after the other, up to `X'`; what they find is written. -/
inductive Passes : TypeContext → List TypingStep → TypeContext → Prop
  | nil {X : TypeContext} : Passes X [] X
  | cons {X X' X'' : TypeContext} {a : TypingStep} {as : List TypingStep} :
      a.check X = .ok X' → a.Written X → Passes X' as X'' → Passes X (a :: as) X''

namespace Passes

variable {X X' X'' : TypeContext} {as bs : List TypingStep} {a : TypingStep}

theorem single (h : a.check X = .ok X') (hw : a.Written X) : Passes X [a] X' := .cons h hw .nil

theorem append (h : Passes X as X') (h' : Passes X' bs X'') : Passes X (as ++ bs) X'' := by
  induction h with
  | nil => exact h'
  | cons ha hw _ ih => exact .cons ha hw (ih h')

end Passes

namespace Annotating

/-- The run from `r` to `r'` found the steps `old` and left them as `new`. It had stopped before, or
it passed them all, or it passed those before one that failed; that one and those behind it have
what they had. -/
inductive Runs (r : Annotating) : List TypingStep → List TypingStep → Annotating → Prop
  | stopped {old new : List TypingStep} (h : r.failure.isSome)
      (hslots : new.map TypingStep.slot = old.map TypingStep.slot) : Runs r old new r
  | passed {old new : List TypingStep} {X : TypeContext} (h : r.failure = none)
      (hlength : new.length = old.length) (hpassed : Passes r.context new X) :
      Runs r old new { context := X }
  | failed {old done rest : List TypingStep} {failing : TypingStep} {X : TypeContext}
      {d : Diagnostic} (h : r.failure = none) (hpassed : Passes r.context done X)
      (hfailing : failing.check X = .error d) (hlength : done.length ≤ old.length)
      (hslots : (failing :: rest).map TypingStep.slot =
        (old.drop done.length).map TypingStep.slot) :
      Runs r old (done ++ failing :: rest) { context := X, failure := some d }

namespace Runs

variable {r r' r'' : Annotating} {old new old' new' : List TypingStep}

theorem nil (r : Annotating) : r.Runs [] [] r := by
  obtain ⟨X, failure⟩ := r
  cases failure with
  | none => exact .passed rfl rfl .nil
  | some d => exact .stopped rfl rfl

theorem of_head_error {a : TypingStep} {as : List TypingStep} {d : Diagnostic}
    (h : r.failure = none) (ha : a.check r.context = .error d)
    (hslots : (a :: as).map TypingStep.slot = old.map TypingStep.slot) :
    r.Runs old (a :: as) { context := r.context, failure := some d } :=
  have hnone : Passes r.context [] r.context := .nil
  Runs.failed h hnone ha (Nat.zero_le _) hslots

theorem append (h : r.Runs old new r') (h' : r'.Runs old' new' r'') :
    r.Runs (old ++ old') (new ++ new') r'' := by
  cases h with
  | stopped hr hslots =>
    cases h' with
    | stopped _ hslots' =>
      exact .stopped hr (by rw [List.map_append, List.map_append, hslots, hslots'])
    | passed hnone | failed hnone => simp [hnone] at hr
  | passed hr hlength hpassed =>
    cases h' with
    | stopped hsome => exact nomatch hsome
    | passed _ hlength' hpassed' =>
      exact .passed hr (by rw [List.length_append, List.length_append, hlength, hlength'])
        (hpassed.append hpassed')
    | failed _ hpassed' hfailing hlength' hslots =>
      rw [← List.append_assoc]
      refine .failed hr (hpassed.append hpassed') hfailing ?_ ?_
      · rw [List.length_append, List.length_append]
        omega
      · rw [hslots, List.length_append, hlength, List.drop_length_add_append]
  | failed hr hpassed hfailing hlength hslots =>
    cases h' with
    | stopped _ hslots' =>
      rw [List.append_assoc, List.cons_append]
      refine .failed hr hpassed hfailing (hlength.trans (by simp)) ?_
      rw [List.drop_append_of_le_length hlength, List.map_append, ← hslots, ← hslots',
        ← List.map_append, List.cons_append]
    | passed hnone | failed hnone => exact nomatch hnone

/-- An expression that stands where `e` stood, with its parts typed, is the last one to be typed. -/
theorem write (fn : Option TypeId) {e e' : Expr} (h : e'.type = e.type) (r : Annotating) :
    r.Runs [.type fn e] [.type fn (r.write fn e').1] (r.write fn e').2 := by
  have hslots (e'' : Expr) (he : e''.type = e.type) : [TypingStep.type fn e''].map TypingStep.slot =
      [TypingStep.type fn e].map TypingStep.slot := by
    simp [TypingStep.slot, TypingStep.expr?, he]
  obtain ⟨X, failure⟩ := r
  cases failure with
  | some d => exact .stopped rfl (hslots e' h)
  | none =>
    cases ht : X.typeOf fn e' with
    | ok t =>
      have hwrite : ({ context := X } : Annotating).write fn e' =
          (e'.mapSite fun s => { s with type := some t }, { context := X }) := by
        simp [Annotating.write, ht]
      have htyped : X.typeOf fn (e'.mapSite fun s => { s with type := some t }) = .ok t := by
        rw [Expr.typeOf_mapSite, ht]
      rw [hwrite]
      refine .passed rfl rfl (.single ?_ ⟨t, htyped, e'.type_mapSite_some t⟩)
      simp only [TypingStep.check, htyped, Except.map]
    | error d =>
      have hwrite : ({ context := X } : Annotating).write fn e' =
          (e', { context := X, failure := some d }) := by
        simp [Annotating.write, ht]
      rw [hwrite]
      refine .of_head_error rfl ?_ (hslots e' h)
      simp only [TypingStep.check, ht, Except.map]

theorem require {a a' : TypingStep} (h : a.slot = none) (h' : a'.slot = none)
    (r : Annotating) : r.Runs [a] [a'] (r.require fun X => a'.check X) := by
  have hslots : [a'].map TypingStep.slot = [a].map TypingStep.slot := by simp [h, h']
  have hw (X : TypeContext) : a'.Written X := by
    cases a' with
    | type fn e => exact nomatch h'
    | _ => trivial
  unfold Annotating.require
  obtain ⟨X, failure⟩ := r
  cases failure with
  | some d => exact .stopped rfl hslots
  | none =>
    cases hX : a'.check X with
    | ok X' =>
      simp only [hX]
      exact .passed rfl rfl (.single hX (hw X))
    | error d =>
      simp only [hX]
      exact .of_head_error rfl hX hslots

theorem passes (h : r.Runs old new r') (hr : r.failure = none) (hr' : r'.failure = none) :
    Passes r.context new r'.context := by
  cases h with
  | stopped hsome => simp [hr] at hsome
  | passed _ _ hpassed => exact hpassed
  | failed => exact nomatch hr'

theorem exists_failing (h : r.Runs old new r') (hr : r.failure = none) {d : Diagnostic}
    (hd : r'.failure = some d) : ∃ done failing rest X, new = done ++ failing :: rest ∧
      Passes r.context done X ∧ failing.check X = .error d ∧
        (failing :: rest).map TypingStep.slot = (old.drop done.length).map TypingStep.slot := by
  cases h with
  | stopped hsome => simp [hr] at hsome
  | passed => exact nomatch hd
  | failed _ hpassed hfailing _ hslots =>
    obtain rfl := Option.some.inj hd
    exact ⟨_, _, _, _, rfl, hpassed, hfailing, hslots⟩

end Runs

end Annotating

theorem Expr.steps_mapSite (fn : Option TypeId) (e : Expr) (f : ExprSite → ExprSite) :
    (e.mapSite f).steps fn = (e.steps fn).dropLast ++ [.type fn (e.mapSite f)] := by
  cases e with
  | leaf s form k => rfl
  | _ => simp only [Expr.mapSite, Expr.steps, List.dropLast_concat]

/-- An expression that is written on keeps the steps of its parts. -/
theorem Expr.steps_write (fn : Option TypeId) (e : Expr) (r : Annotating) :
    (r.write fn e).1.steps fn = (e.steps fn).dropLast ++ [.type fn (r.write fn e).1] := by
  have hself : e.steps fn = (e.steps fn).dropLast ++ [.type fn e] := by
    cases e with
    | leaf s form k => rfl
    | _ => simp only [Expr.steps, List.dropLast_concat]
  unfold Annotating.write
  split
  · exact hself
  · split
    · exact e.steps_mapSite fn _
    · exact hself

namespace Node

def TypedInSteps (a : Node) : Prop :=
  ∀ (fn : Option TypeId) (r : Annotating),
    r.Runs (a.steps fn) ((a.annotate fn r).1.steps fn) (a.annotate fn r).2

theorem TypedInSteps.of_running {a : Node}
    (h : ∀ (fn : Option TypeId) (r : Annotating), r.failure = none →
      r.Runs (a.steps fn) ((a.annotate fn r).1.steps fn) (a.annotate fn r).2) :
    a.TypedInSteps := by
  intro fn r
  cases hr : r.failure with
  | none => exact h fn r hr
  | some d =>
    rw [annotate_of_stopped hr]
    exact .stopped (Option.isSome_of_eq_some hr) rfl

theorem hereditary_typedInSteps : Hereditary TypedInSteps where
  leaf := .of_running fun fn r hr => by
    simp only [Node.steps, Node.annotate, Expr.annotate_leaf hr, Expr.steps_write]
    exact .write fn rfl r
  binary {site form k a b} iha ihb := .of_running fun fn r hr => by
    have ha := iha fn r
    have hb := ihb fn (a.annotate fn r).2
    simp only [Node.steps, Node.annotate, Expr.annotate_binary hr, Expr.steps_write, Expr.steps,
      List.dropLast_concat] at *
    exact (ha.append hb).append (.write fn (by rfl) _)
  unary {site k a} iha := .of_running fun fn r hr => by
    have ha := iha fn r
    simp only [Node.steps, Node.annotate, Expr.annotate_unary hr, Expr.steps_write, Expr.steps,
      List.dropLast_concat] at *
    exact ha.append (.write fn (by rfl) _)
  call {site f as} ihf ihas := .of_running fun fn r hr => by
    have hf := ihf fn r
    have has := ihas fn (f.annotate fn r).2
    simp only [Node.steps, Node.annotate, Expr.annotate_call hr, Expr.steps_write, Expr.steps,
      List.dropLast_concat] at *
    exact (hf.append has).append (.write fn (by rfl) _)
  block {site ss} ihss := .of_running fun fn r hr => by
    have hss := ihss fn r
    simp only [Node.steps, Node.annotate, Expr.annotate_block hr, Expr.steps_write, Expr.steps,
      List.dropLast_concat] at *
    exact hss.append (.write fn (by rfl) _)
  ifThen {site c a} ihc iha := .of_running fun fn r hr => by
    have hc := ihc fn r
    have ha := iha fn (c.annotate fn r).2
    simp only [Node.steps, Node.annotate, Expr.annotate_ifThen hr, Expr.steps_write, Expr.steps,
      List.dropLast_concat] at *
    exact (hc.append ha).append (.write fn (by rfl) _)
  ifElse {site c a b} ihc iha ihb := .of_running fun fn r hr => by
    have hc := ihc fn r
    have ha := iha fn (c.annotate fn r).2
    have hb := ihb fn (a.annotate fn (c.annotate fn r).2).2
    simp only [Node.steps, Node.annotate, Expr.annotate_ifElse hr, Expr.steps_write, Expr.steps,
      List.dropLast_concat] at *
    exact (hc.append (ha.append hb)).append (.write fn (by rfl) _)
  result {site form a} iha := .of_running fun fn r hr => by
    have ha := iha fn r
    simp only [Node.steps, Node.annotate, Expr.annotate_result hr, Expr.steps_write, Expr.steps,
      List.dropLast_concat] at *
    exact ha.append (.write fn (by rfl) _)
  noExpr _ r := .nil r
  moreExprs {e es} ihe ihes fn r := (ihe fn r).append (ihes fn (e.annotate fn r).2)
  evaluated {site e} ihe := .of_running fun fn r hr => by
    have he := ihe fn r
    simp only [Node.steps, Node.annotate, Stmt.annotate_expr hr] at *
    exact he
  assigned {site l e} ihl ihe := .of_running fun fn r hr => by
    have hl := ihl fn r
    have he := ihe fn (l.annotate fn r).2
    simp only [Node.steps, Node.annotate, Stmt.annotate_assign hr] at *
    exact (hl.append he).append (.require (by rfl) (by rfl) _)
  declared {site d} ihd := .of_running fun fn r hr => by
    have hd := ihd fn r
    simp only [Node.steps, Node.annotate, Stmt.annotate_decl hr] at *
    exact hd
  noStmt _ r := .nil r
  moreStmts {s ss} ihs ihss fn r := (ihs fn r).append (ihss fn (s.annotate fn r).2)
  var {site n g e finish} ihe := .of_running fun fn r hr => by
    have he := ihe fn r
    simp only [Node.steps, Node.annotate, Decl.annotate_var hr] at *
    exact he.append (.require (by rfl) (by rfl) _)
  fn {site n g ps e} ihe := .of_running fun fn r hr => by
    cases g with
    | none =>
      obtain ⟨X, failure⟩ := r
      subst hr
      simp only [Node.steps, Node.annotate, Decl.annotate_unsigned]
      exact .of_head_error rfl rfl rfl
    | some g =>
      have he := ihe (some g) r
      simp only [Node.steps, Node.annotate, Decl.annotate_signed hr] at *
      exact he

end Node

theorem Decl.runs_annotateAll (fn : Option TypeId) (ds : List Decl) (r : Annotating) :
    r.Runs (ds.flatMap (Decl.steps fn)) ((annotateAll fn ds r).1.flatMap (Decl.steps fn))
      (annotateAll fn ds r).2 := by
  induction ds generalizing r with
  | nil => exact .nil r
  | cons d ds ih => exact (Node.hereditary_typedInSteps.decl d fn r).append (ih _)

/-- Every expression in the node is typed at one step. -/
def Node.TypesOnce : Node → Prop
  | .expr e => ∀ fn, ((e.steps fn).filterMap TypingStep.expr?).Perm e.exprs
  | .exprs es => ∀ fn, ((Expr.stepsOfAll fn es).filterMap TypingStep.expr?).Perm (Expr.exprsIn es)
  | .stmt s => ∀ fn, ((s.steps fn).filterMap TypingStep.expr?).Perm s.exprs
  | .stmts ss => ∀ fn, ((Stmt.stepsOfAll fn ss).filterMap TypingStep.expr?).Perm (Stmt.exprsIn ss)
  | .decl d => ∀ fn, ((d.steps fn).filterMap TypingStep.expr?).Perm d.exprs
  | _ => True

theorem Node.hereditary_typesOnce : Hereditary TypesOnce := by
  have hlast {as bs : List Expr} (e : Expr) (h : as.Perm bs) : (as ++ [e]).Perm (e :: bs) :=
    (List.perm_append_singleton e as).trans (h.cons e)
  have htyped (fn : Option TypeId) (e : Expr) :
      [TypingStep.type fn e].filterMap TypingStep.expr? = [e] :=
    rfl
  constructor
  case leaf => exact fun _ => .refl _
  case noExpr | noStmt => exact fun _ => .refl _
  case evaluated | declared => exact fun ih => ih
  case unary | result | block =>
    intros
    intro fn
    rename_i ih
    simp only [Expr.steps, Expr.exprs, List.filterMap_append, htyped]
    exact hlast _ (ih fn)
  case binary | call | ifThen =>
    intros
    intro fn
    rename_i iha ihb
    simp only [Expr.steps, Expr.exprs, List.filterMap_append, htyped]
    exact hlast _ ((iha fn).append (ihb fn))
  case ifElse =>
    intro site c a b ihc iha ihb fn
    simp only [Expr.steps, Expr.exprs, List.filterMap_append, htyped]
    exact hlast _ ((ihc fn).append ((iha fn).append (ihb fn)))
  case moreExprs | moreStmts =>
    intros
    intro fn
    rename_i ih ihs
    simp only [Expr.stepsOfAll, Expr.exprsIn, Stmt.stepsOfAll, Stmt.exprsIn, List.filterMap_append]
    exact (ih fn).append (ihs fn)
  case assigned =>
    intro site l e ihl ihe fn
    simp only [Stmt.steps, Stmt.exprs, List.filterMap_append]
    exact (List.append_nil _).symm ▸ (ihl fn).append (ihe fn)
  case var =>
    intro site n g e finish ihe fn
    simp only [Decl.steps, Decl.exprs, List.filterMap_append]
    exact (List.append_nil _).symm ▸ ihe fn
  case fn =>
    intro site n g ps e ihe fn
    cases g with
    | none => exact ihe none
    | some g => exact ihe (some g)

theorem Program.perm_steps (p : Program) :
    (p.steps.filterMap TypingStep.expr?).Perm p.exprs := by
  unfold Program.steps Program.exprs
  induction p.decls with
  | nil => exact .refl _
  | cons d ds ih =>
    rw [List.flatMap_cons, List.flatMap_cons, List.filterMap_append]
    exact (Node.hereditary_typesOnce.decl d none).append ih

theorem Passes.isSome_type {X X' : TypeContext} {as : List TypingStep} (h : Passes X as X') :
    ∀ e ∈ as.filterMap TypingStep.expr?, e.type.isSome := by
  induction h with
  | nil => exact nofun
  | @cons _ _ _ a _ _ hw _ ih =>
    cases a with
    | type fn e =>
      obtain ⟨t, -, ht⟩ := hw
      exact List.forall_mem_cons.mpr ⟨ht ▸ rfl, ih⟩
    | _ => exact ih

end FrontEnd
