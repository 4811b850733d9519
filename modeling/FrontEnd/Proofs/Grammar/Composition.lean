import FrontEnd.Grammar.Program
import FrontEnd.Proofs.Diagnostic.Wording

/-! Properties that rules get from the smallest rules. If such a property also holds of types, and
of a block whose items have it, then it holds of every rule of the grammar. -/

namespace FrontEnd

/-- The faults that are told of a text before its names and types are looked at. -/
def Fault.isSyntactic : Fault → Bool
  | unrecognised _ | unterminatedString | numberTooLarge _ | noExpression _ | unexpectedToken _ _
  | noType _ | brokenBlock | noDeclaration _ | notAssignable | brokenProgram _
  | parameterCount _ _ _ | signatureNotFunction _ _ => true
  | _ => false

/-- What a rule of the grammar tells by itself: a fault of the syntax, and one that is shown on one
line. -/
structure Fault.IsTold (f : Fault) : Prop where
  syntactic : f.isSyntactic = true
  inLine : f.InLine

theorem Fault.IsTold.of_bare {f : Fault} (hf : f.isSyntactic = true) (hbare : f.bare = []) :
    f.IsTold := ⟨hf, inLine_of_bare_eq_nil hbare⟩

namespace Rule

/-- What is asked of a property of rules. It is one of single states: a rule that does in every
state what some rule with the property does there has it too. -/
structure Compositional (C : (α : Type) → Rule α → Prop) : Prop where
  pure {α : Type} (a : α) : C α (Pure.pure a)
  bind {α β : Type} {r : Rule α} {f : α → Rule β} : C α r → (∀ a, C β (f a)) → C β (r >>= f)
  look {α : Type} {r : Rule α} : (∀ s, ∃ r', C α r' ∧ r s = r' s) → C α r
  refuse {α : Type} {f : String → Fault} :
    (∀ found, (f found).IsTold) → C α (Rule.refuse f)
  fail {α : Type} {d : Diagnostic} : d.fault.IsTold → C α (Rule.fail d)
  advance : C Token Rule.advance

/-- A property that types and blocks have besides. -/
structure Pervasive (C : (α : Type) → Rule α → Prop) : Prop extends Compositional C where
  type (v : Vocabulary) : C TypeId (Rule.type v)
  block {v : Vocabulary} {operand : Operand} :
    C Stmt (Rule.blockItem v operand) → C (List Stmt × Position) (Rule.block v operand)

namespace Compositional

variable {C : (α : Type) → Rule α → Prop} (hC : Compositional C) {α : Type}
include hC

theorem current : C Token Rule.current := hC.look fun s => ⟨_, hC.pure s.current, rfl⟩

omit hC in
theorem ite {c : Prop} [Decidable c] {r r' : Rule α} (h : C α r) (h' : C α r') :
    C α (if c then r else r') := by
  split
  · exact h
  · exact h'

theorem advanceIf (k : TokenKind) : C Bool (Rule.advanceIf k) := by
  refine hC.look fun s => ?_
  unfold Rule.advanceIf
  split
  · exact ⟨_, hC.bind hC.advance fun _ => hC.pure true, rfl⟩
  · exact ⟨_, hC.pure false, rfl⟩

theorem expect (k : TokenKind) : C Token (Rule.expect k) := by
  refine hC.look fun s => ?_
  unfold Rule.expect expectOr
  split
  · exact ⟨_, hC.advance, rfl⟩
  · exact ⟨_, hC.refuse fun _ => .of_bare rfl rfl, rfl⟩

theorem commaSeparated {item : Rule α} (h : C α item) (n : Nat) :
    C (List α) (Rule.commaSeparated item n) := by
  induction n with
  | zero => exact hC.bind h fun _ => hC.pure _
  | succ n ih =>
    exact hC.bind h fun _ => hC.bind (hC.advanceIf _) fun _ =>
      ite (hC.bind ih fun _ => hC.pure _) (hC.pure _)

theorem itemsBefore {item : Rule α} (h : C α item) (close : TokenKind) :
    C (List α) (Rule.itemsBefore close item) := by
  refine hC.look fun s => ?_
  unfold Rule.itemsBefore
  split
  · exact ⟨_, hC.pure [], rfl⟩
  · exact ⟨_, hC.commaSeparated h _, rfl⟩

theorem primitiveType : C TypeId Rule.primitiveType := by
  refine hC.look fun s => ?_
  unfold Rule.primitiveType
  split
  · exact ⟨_, hC.bind hC.advance fun _ => hC.pure _, rfl⟩
  · exact ⟨_, hC.refuse fun _ => .of_bare rfl rfl, rfl⟩

theorem fitSignature (name : Token) (params : List Token) (signature : Option TypeId) :
    C Unit (Rule.fitSignature name params signature) := by
  cases signature with
  | none => exact hC.pure ()
  | some t =>
    refine hC.look fun s => ?_
    unfold Rule.fitSignature
    dsimp only
    split
    · have htold : Fault.IsTold (.signatureNotFunction name.text (s.types.shown t)) :=
        ⟨rfl, List.forall_mem_singleton.mpr (TypeTable.inLine_shown _ _)⟩
      exact ⟨_, hC.fail htold, rfl⟩
    · split
      · exact ⟨_, hC.pure (), rfl⟩
      · exact ⟨_, hC.fail (.of_bare rfl rfl), rfl⟩

section Operand

variable {v : Vocabulary} {operand : Operand} (h : ∀ bp, C Expr (operand bp))
include h

theorem statement : C Stmt (Rule.statement operand) := by
  refine hC.bind (h _) fun e => hC.bind (hC.advanceIf _) fun _ => ite ?_
    (hC.bind (hC.expect _) fun _ => hC.pure _)
  cases e.name? with
  | none => exact hC.fail (.of_bare rfl rfl)
  | some _ => exact hC.bind (h _) fun _ => hC.bind (hC.expect _) fun _ => hC.pure _

theorem varDecl (p : Position) (signature : Option TypeId) :
    C Decl (Rule.varDecl operand p signature) :=
  hC.bind (hC.expect _) fun _ => hC.bind (hC.expect _) fun _ => hC.bind (hC.expect _) fun _ =>
    hC.bind (h _) fun _ => hC.bind (hC.expect _) fun _ => hC.pure _

theorem fnDecl (p : Position) (signature : Option TypeId) :
    C Decl (Rule.fnDecl operand p signature) :=
  hC.bind (hC.expect _) fun _ => hC.bind (hC.expect _) fun _ => hC.bind (hC.expect _) fun _ =>
    hC.bind (hC.itemsBefore (hC.expect _) _) fun _ => hC.bind (hC.expect _) fun _ =>
    hC.bind (hC.fitSignature _ _ _) fun _ => hC.bind (hC.expect _) fun _ =>
    hC.bind (h _) fun _ => hC.bind (hC.expect _) fun _ => hC.pure _

theorem exprOfTail (left : Expr) (bp : BindingPower) (form : TailForm) :
    C Expr (Rule.exprOfTail operand left bp form) := by
  cases form with
  | comparison => exact hC.bind hC.advance fun _ => hC.bind (h _) fun _ => hC.pure _
  | arithmetic => exact hC.bind hC.advance fun _ => hC.bind (h _) fun _ => hC.pure _
  | call =>
    exact hC.bind (hC.expect _) fun _ => hC.bind (hC.itemsBefore (h _) _) fun _ =>
      hC.bind (hC.expect _) fun _ => hC.pure _

theorem tailsWithin (bp : BindingPower) (n : Nat) (left : Expr) :
    C Expr (Rule.tailsWithin v operand bp n left) := by
  induction n generalizing left with
  | zero => exact hC.pure _
  | succ n ih =>
    refine hC.look fun s => ?_
    unfold Rule.tailsWithin
    split
    · split
      · exact ⟨_, hC.bind (hC.exprOfTail h _ _ _) fun _ => ih _, rfl⟩
      · exact ⟨_, hC.pure left, rfl⟩
    · exact ⟨_, hC.pure left, rfl⟩

end Operand

end Compositional

namespace Pervasive

open Compositional (ite)

variable {C : (α : Type) → Rule α → Prop} (hC : Pervasive C)
include hC

theorem signature? (v : Vocabulary) : C (Option TypeId) (Rule.signature? v) :=
  hC.bind (hC.toCompositional.advanceIf _) fun _ =>
    ite (hC.bind (hC.type v) fun _ => hC.pure _) (hC.pure _)

section Operand

variable {v : Vocabulary} {operand : Operand} (h : ∀ bp, C Expr (operand bp))
include h

theorem declaration : C Decl (Rule.declaration v operand) := by
  refine hC.bind hC.toCompositional.current fun start => hC.bind (hC.signature? v) fun signature =>
    hC.bind hC.toCompositional.current fun t => ?_
  split
  · exact hC.toCompositional.varDecl h _ _
  · exact hC.toCompositional.fnDecl h _ _
  · exact hC.refuse fun _ => .of_bare rfl rfl

theorem blockItem : C Stmt (Rule.blockItem v operand) := by
  refine hC.look fun s => ?_
  unfold Rule.blockItem
  split
  · refine ⟨_, hC.bind (hC.declaration h (v := v)) fun d => hC.pure (.decl (site d.place) d), ?_⟩
    rw [bind_apply]
    cases Rule.declaration v operand s <;> rfl
  · exact ⟨_, hC.toCompositional.statement h, rfl⟩

theorem exprOfLead (form : LeadForm) : C Expr (Rule.exprOfLead v operand form) := by
  cases form with
  | primary =>
    refine hC.look fun s => ?_
    have hleaf := hC.bind hC.advance fun k => hC.pure (Expr.leaf (exprSite k.place) .literal k)
    simp only [Rule.exprOfLead, Rule.primary]
    split
    case h_6 => exact ⟨_, hC.refuse fun _ => .of_bare rfl rfl, rfl⟩
    all_goals exact ⟨_, hleaf, rfl⟩
  | prefixed => exact hC.bind hC.advance fun _ => hC.bind (h _) fun _ => hC.pure _
  | grouping =>
    exact hC.bind (hC.toCompositional.expect _) fun _ => hC.bind (h _) fun _ =>
      hC.bind (hC.toCompositional.expect _) fun _ => hC.pure _
  | block => exact hC.bind (hC.block (hC.blockItem h)) fun _ => hC.pure _
  | conditional =>
    exact hC.bind (hC.toCompositional.expect _) fun _ => hC.bind (h _) fun _ =>
      hC.bind (hC.toCompositional.expect _) fun _ => hC.bind (h _) fun _ =>
        hC.bind (hC.toCompositional.advanceIf _) fun _ =>
          ite (hC.bind (h _) fun _ => hC.pure _) (hC.pure _)
  | returned =>
    exact hC.bind (hC.toCompositional.expect _) fun _ => hC.bind (h _) fun _ => hC.pure _
  | yielded =>
    exact hC.bind (hC.toCompositional.expect _) fun _ => hC.bind (h _) fun _ => hC.pure _

end Operand

theorem exprWithin (v : Vocabulary) (n : Nat) (bp : BindingPower) :
    C Expr (Rule.exprWithin v n bp) := by
  induction n generalizing bp with
  | zero => exact hC.refuse fun _ => .of_bare rfl rfl
  | succ n ih =>
    refine hC.look fun s => ?_
    unfold Rule.exprWithin
    split
    · exact ⟨_, hC.bind (hC.exprOfLead ih _) fun _ =>
        hC.look fun _ => ⟨_, hC.toCompositional.tailsWithin ih bp _ _, rfl⟩, rfl⟩
    · exact ⟨_, hC.refuse fun _ => .of_bare rfl rfl, rfl⟩

theorem expr (v : Vocabulary) (bp : BindingPower) : C Expr (Rule.expr v bp) :=
  hC.look fun _ => ⟨_, hC.exprWithin v _ bp, rfl⟩

theorem topLevel (v : Vocabulary) : C Decl (Rule.topLevel v) := by
  refine hC.look fun s => ?_
  unfold Rule.topLevel
  split
  · exact ⟨_, hC.declaration (hC.expr v), rfl⟩
  · exact ⟨_, hC.refuse fun _ => .of_bare rfl rfl, rfl⟩

end Pervasive

end Rule

end FrontEnd
