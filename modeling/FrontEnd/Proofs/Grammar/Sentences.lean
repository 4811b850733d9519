import Mathlib
import FrontEnd.Grammar.Vocabulary
import FrontEnd.Proofs.Grammar.Language

/-! The context-free grammar of programs: how many arguments a signature has and what is assigned to
do not matter here. From its first token on each phrase is told by the forms of the vocabulary, with
what follows the phrase taken along, so that no operator is read twice. -/

namespace FrontEnd

inductive Category where
  | name
  | type
  | expr
  | stmt
  | stmts
  | signature
  | decl
  | program
  | list (item : Category)
  | items (item : Category)

namespace Category

/-- The kinds of the tokens of a phrase. A `list` has one item or more, `items` may be none. -/
inductive Derives : Category → List TokenKind → Prop
  | name : Derives name [.identifier]
  | primitive {k : TokenKind} (h : k ∈ TokenKind.primitives) : Derives type [k]
  | pointer {t : List TokenKind} : Derives type t → Derives type (.star :: t)
  | function {as r : List TokenKind} : Derives (items type) as → Derives type r →
      Derives type (.openBracket :: (as ++ .closeBracket :: .arrow :: r))
  | lastItem {c : Category} {w : List TokenKind} : Derives c w → Derives (list c) w
  | moreItems {c : Category} {w ws : List TokenKind} : Derives c w → Derives (list c) ws →
      Derives (list c) (w ++ .comma :: ws)
  | noItem {c : Category} : Derives (items c) []
  | someItems {c : Category} {ws : List TokenKind} : Derives (list c) ws → Derives (items c) ws
  | literal {k : TokenKind} (h : k ∈ TokenKind.literals) : Derives expr [k]
  | group {e : List TokenKind} : Derives expr e →
      Derives expr (.openParen :: (e ++ [.closeParen]))
  | block {ss : List TokenKind} : Derives stmts ss →
      Derives expr (.openCurly :: (ss ++ [.closeCurly]))
  | ifThen {c t : List TokenKind} : Derives expr c → Derives expr t →
      Derives expr (.kwIf :: (c ++ .kwThen :: t))
  | ifElse {c t e : List TokenKind} : Derives expr c → Derives expr t → Derives expr e →
      Derives expr (.kwIf :: (c ++ .kwThen :: (t ++ .kwElse :: e)))
  | returned {e : List TokenKind} : Derives expr e → Derives expr (.kwReturn :: e)
  | yielded {e : List TokenKind} : Derives expr e → Derives expr (.kwYield :: e)
  | prefixed {k : TokenKind} {e : List TokenKind} (h : k ∈ TokenKind.prefixOperators) :
      Derives expr e → Derives expr (k :: e)
  | binary {k : TokenKind} {l r : List TokenKind} (h : k ∈ TokenKind.binaryOperators) :
      Derives expr l → Derives expr r → Derives expr (l ++ k :: r)
  | call {f as : List TokenKind} : Derives expr f → Derives (items expr) as →
      Derives expr (f ++ .openParen :: (as ++ [.closeParen]))
  | declared {d : List TokenKind} : Derives decl d → Derives stmt d
  | evaluated {e : List TokenKind} : Derives expr e → Derives stmt (e ++ [.semicolon])
  | assigned {l e : List TokenKind} : Derives expr l → Derives expr e →
      Derives stmt (l ++ .assign :: (e ++ [.semicolon]))
  | noStmt : Derives stmts []
  | moreStmts {s ss : List TokenKind} : Derives stmt s → Derives stmts ss →
      Derives stmts (s ++ ss)
  | unsigned : Derives signature []
  | signed {t : List TokenKind} : Derives type t → Derives signature (.kwOf :: t)
  | var {t e : List TokenKind} : Derives signature t → Derives expr e →
      Derives decl (t ++ .kwVar :: .identifier :: .assign :: (e ++ [.semicolon]))
  | fn {t ps e : List TokenKind} : Derives signature t → Derives (items name) ps →
      Derives expr e → Derives decl (t ++ .kwFun :: .identifier :: .openParen ::
        (ps ++ .closeParen :: .assign :: (e ++ [.semicolon])))
  | noDecl : Derives program []
  | moreDecls {d ds : List TokenKind} : Derives decl d → Derives program ds →
      Derives program (d ++ ds)

def words (c : Category) : Language TokenKind := {w | c.Derives w}

end Category

namespace Category

/-- The words whose first token tells their form, and the form what follows it. -/
def headed {ι : Type} (form? : TokenKind → Option ι) (rest : ι → Language TokenKind) :
    Language TokenKind :=
  {w | ∃ k form v, form? k = some form ∧ v ∈ rest form ∧ w = k :: v}

section Headed

variable {k : TokenKind} {v w : List TokenKind} {M : Language TokenKind} {ι : Type}
  {form? : TokenKind → Option ι} {rest : ι → Language TokenKind}

theorem cons_mem_headed_mul :
    k :: v ∈ headed form? rest * M ↔ ∃ form, form? k = some form ∧ v ∈ rest form * M := by
  simp only [Language.mem_mul]
  constructor
  · rintro ⟨_, ⟨l, form, x, hl, hx, rfl⟩, y, hy, he⟩
    obtain ⟨rfl, rfl⟩ := List.cons.inj he
    exact ⟨form, hl, x, hx, y, hy, rfl⟩
  · rintro ⟨form, hk, x, hx, y, hy, rfl⟩
    exact ⟨k :: x, ⟨k, form, x, hk, hx, rfl⟩, y, hy, rfl⟩

theorem nil_notMem_headed_mul : [] ∉ headed form? rest * M := by
  rintro ⟨_, ⟨l, form, x, hl, hx, rfl⟩, y, hy, he⟩
  exact nomatch he

end Headed

end Category

namespace TokenKind

variable {k l : TokenKind} {v w : List TokenKind} {M : Language TokenKind}

def alone (k : TokenKind) : Language TokenKind := {[k]}

theorem mem_alone_mul : w ∈ k.alone * M ↔ ∃ v ∈ M, w = k :: v := by
  rw [Language.mem_mul]
  constructor
  · rintro ⟨_, rfl, v, hv, rfl⟩
    exact ⟨v, hv, rfl⟩
  · rintro ⟨v, hv, rfl⟩
    exact ⟨[k], rfl, v, hv, rfl⟩

@[simp] theorem cons_mem_alone_mul : l :: v ∈ k.alone * M ↔ l = k ∧ v ∈ M := by
  simp [mem_alone_mul, and_comm, eq_comm]

@[simp] theorem nil_notMem_alone_mul : [] ∉ k.alone * M := by simp [mem_alone_mul]

end TokenKind

open Category (words)

/-- What follows the first token of a type. -/
def TypeForm.rest : TypeForm → Language TokenKind
  | primitive => 1
  | pointer => words .type
  | function => words (.items .type) * (TokenKind.closeBracket.alone *
      (TokenKind.arrow.alone * words .type))

/-- What follows the first token of an expression, up to the first operator that takes the whole
of it for its left operand. -/
def LeadForm.rest : LeadForm → Language TokenKind
  | primary => 1
  | prefixed | returned | yielded => words .expr
  | grouping => words .expr * TokenKind.closeParen.alone
  | block => words .stmts * TokenKind.closeCurly.alone
  | conditional => words .expr * (TokenKind.kwThen.alone *
      (words .expr * (1 + TokenKind.kwElse.alone * words .expr)))

/-- What follows an operator or the parenthesis of a call. -/
def TailForm.rest : TailForm → Language TokenKind
  | comparison | arithmetic => words .expr
  | call => words (.items .expr) * TokenKind.closeParen.alone

def TypeForm.kinds : TypeForm → List TokenKind
  | primitive => TokenKind.primitives
  | pointer => [.star]
  | function => [.openBracket]

def LeadForm.kinds : LeadForm → List TokenKind
  | primary => TokenKind.literals
  | prefixed => TokenKind.prefixOperators
  | grouping => [.openParen]
  | block => [.openCurly]
  | conditional => [.kwIf]
  | returned => [.kwReturn]
  | yielded => [.kwYield]

def TailForm.kinds : TailForm → List TokenKind
  | comparison => TokenKind.comparisons
  | arithmetic => TokenKind.arithmetic
  | call => [.openParen]

namespace Vocabulary

variable {k : TokenKind}

def tailForm? (k : TokenKind) : Option TailForm := (full.tail? k).map Prod.snd

theorem typeForm?_eq_some {form : TypeForm} : full.typeForm? k = some form ↔ k ∈ form.kinds := by
  cases form <;> cases k <;> decide

theorem lead?_eq_some {form : LeadForm} : full.lead? k = some form ↔ k ∈ form.kinds := by
  cases form <;> cases k <;> decide

theorem lowest_lt_of_tail? {p : BindingPower × TailForm} (h : full.tail? k = some p) :
    .lowest < p.1 := by
  cases k <;> cases h <;> decide

theorem tailForm?_eq_some {form : TailForm} : tailForm? k = some form ↔ k ∈ form.kinds := by
  cases form <;> cases k <;> decide

end Vocabulary

namespace Category

open Vocabulary TokenKind

/-- An operator with its right operand, or the arguments of a call. -/
def operation : Language TokenKind := headed tailForm? TailForm.rest

def operations : Language TokenKind := KStar.kstar operation

theorem words_list (c : Category) :
    c.list.words = c.words + c.words * (comma.alone * c.list.words) := by
  ext w
  constructor
  · intro h
    cases h with
    | lastItem h => exact .inl h
    | moreItems h h' => exact .inr ⟨_, h, _, ⟨_, rfl, _, h', rfl⟩, rfl⟩
  · rintro (h | ⟨_, h, _, ⟨_, rfl, _, h', rfl⟩, rfl⟩)
    · exact .lastItem h
    · exact .moreItems h h'

theorem words_items (c : Category) : c.items.words = 1 + c.list.words := by
  ext w
  constructor
  · intro h
    cases h with
    | noItem => exact .inl rfl
    | someItems h => exact .inr h
  · rintro (rfl | h)
    · exact .noItem
    · exact .someItems h

theorem words_type : type.words = headed full.typeForm? TypeForm.rest := by
  ext w
  constructor
  · intro h
    cases h with
    | primitive h => exact ⟨_, .primitive, [], typeForm?_eq_some.mpr h, rfl, rfl⟩
    | pointer h => exact ⟨_, .pointer, _, rfl, h, rfl⟩
    | function has hr =>
      exact ⟨_, .function, _, rfl, ⟨_, has, _, ⟨_, rfl, _, ⟨_, rfl, _, hr, rfl⟩, rfl⟩, rfl⟩, rfl⟩
  · rintro ⟨k, form, v, hk, hv, rfl⟩
    have hk := typeForm?_eq_some.mp hk
    cases form with
    | primitive =>
      obtain rfl := hv
      exact .primitive hk
    | pointer =>
      obtain rfl := List.eq_of_mem_singleton hk
      exact .pointer hv
    | function =>
      obtain rfl := List.eq_of_mem_singleton hk
      obtain ⟨as, has, _, ⟨_, rfl, _, ⟨_, rfl, r, hr, rfl⟩, rfl⟩, rfl⟩ := hv
      exact .function has hr

/-- What an operator takes for its left operand is an expression with it. -/
theorem expr_mul_operation_le : expr.words * operation ≤ expr.words := by
  rintro _ ⟨l, hl, _, ⟨k, form, v, hk, hv, rfl⟩, rfl⟩
  have hk := tailForm?_eq_some.mp hk
  cases form with
  | comparison => exact .binary (List.mem_append_left _ hk) hl hv
  | arithmetic => exact .binary (List.mem_append_right _ hk) hl hv
  | call =>
    obtain rfl := List.eq_of_mem_singleton hk
    obtain ⟨as, has, _, rfl, rfl⟩ := hv
    exact .call hl has

theorem expr_mul_operations : expr.words * operations = expr.words := by
  refine le_antisymm (mul_kstar_le_self expr_mul_operation_le) fun w hw => ?_
  exact ⟨w, hw, [], Language.nil_mem_kstar _, List.append_nil w⟩

theorem headed_lead_le : headed full.lead? LeadForm.rest ≤ expr.words := by
  rintro _ ⟨k, form, v, hk, hv, rfl⟩
  have hk := lead?_eq_some.mp hk
  cases form with
  | primary =>
    obtain rfl := hv
    exact .literal hk
  | prefixed => exact .prefixed hk hv
  | grouping =>
    obtain rfl := List.eq_of_mem_singleton hk
    obtain ⟨e, he, _, rfl, rfl⟩ := hv
    exact .group he
  | block =>
    obtain rfl := List.eq_of_mem_singleton hk
    obtain ⟨ss, hss, _, rfl, rfl⟩ := hv
    exact .block hss
  | conditional =>
    obtain rfl := List.eq_of_mem_singleton hk
    obtain ⟨c, hc, _, ⟨_, rfl, _, ⟨t, ht, y, hy, rfl⟩, rfl⟩, rfl⟩ := hv
    rcases hy with rfl | ⟨_, rfl, e, he, rfl⟩
    · show expr.Derives (.kwIf :: (c ++ .kwThen :: (t ++ [])))
      rw [List.append_nil]
      exact .ifThen hc ht
    · exact .ifElse hc ht he
  | returned =>
    obtain rfl := List.eq_of_mem_singleton hk
    exact .returned hv
  | yielded =>
    obtain rfl := List.eq_of_mem_singleton hk
    exact .yielded hv

/-- An expression begins with its first operand, told by the first token. -/
theorem words_expr : expr.words = headed full.lead? LeadForm.rest * operations := by
  refine le_antisymm (fun w h => ?_) ?_
  · have hself (form : LeadForm) {k : TokenKind} {v : List TokenKind} (hk : k ∈ form.kinds)
        (hv : v ∈ form.rest) : k :: v ∈ headed full.lead? LeadForm.rest * operations :=
      ⟨k :: v, ⟨k, form, v, lead?_eq_some.mpr hk, hv, rfl⟩, [], Language.nil_mem_kstar _,
        List.append_nil _⟩
    have hmore {l v : List TokenKind} (hl : l ∈ headed full.lead? LeadForm.rest * operations)
        (hv : v ∈ operation) : l ++ v ∈ headed full.lead? LeadForm.rest * operations := by
      obtain ⟨x, hx, y, hy, rfl⟩ := hl
      refine ⟨x, hx, y ++ v, ?_, (List.append_assoc x y v).symm⟩
      have hstep : operations * operation ≤ operations := kstar_mul_le_kstar
      exact hstep ⟨y, hy, v, hv, rfl⟩
    generalize hc : expr = c at h
    induction h with
    | literal h => exact hself .primary h rfl
    | binary h _ hr ihl =>
      refine hmore (ihl rfl) ?_
      rcases List.mem_append.mp h with h | h
      · exact ⟨_, .comparison, _, tailForm?_eq_some.mpr h, hr, rfl⟩
      · exact ⟨_, .arithmetic, _, tailForm?_eq_some.mpr h, hr, rfl⟩
    | call _ has ihf => exact hmore (ihf rfl) ⟨_, .call, _, rfl, ⟨_, has, _, rfl, rfl⟩, rfl⟩
    | prefixed h he => exact hself .prefixed h he
    | group h => exact hself .grouping (by decide) ⟨_, h, _, rfl, rfl⟩
    | block h => exact hself .block (by decide) ⟨_, h, _, rfl, rfl⟩
    | @ifThen c t h ht =>
      exact hself .conditional (by decide)
        ⟨c, h, _, ⟨_, rfl, _, ⟨t, ht, [], .inl rfl, List.append_nil t⟩, rfl⟩, rfl⟩
    | ifElse h ht he =>
      exact hself .conditional (by decide)
        ⟨_, h, _, ⟨_, rfl, _, ⟨_, ht, _, .inr ⟨_, rfl, _, he, rfl⟩, rfl⟩, rfl⟩, rfl⟩
    | returned h => exact hself .returned (by decide) h
    | yielded h => exact hself .yielded (by decide) h
    | _ => exact nomatch hc
  · rintro _ ⟨x, hx, y, hy, rfl⟩
    rw [← expr_mul_operations]
    exact ⟨x, headed_lead_le hx, y, hy, rfl⟩

theorem words_stmt : stmt.words = decl.words +
    expr.words * (semicolon.alone + assign.alone * (expr.words * semicolon.alone)) := by
  ext w
  constructor
  · intro h
    cases h with
    | declared h => exact .inl h
    | evaluated h => exact .inr ⟨_, h, _, .inl rfl, rfl⟩
    | assigned h h' => exact .inr ⟨_, h, _, .inr ⟨_, rfl, _, ⟨_, h', _, rfl, rfl⟩, rfl⟩, rfl⟩
  · rintro (h | ⟨_, h, _, rfl | ⟨_, rfl, _, ⟨_, h', _, rfl, rfl⟩, rfl⟩, rfl⟩)
    · exact .declared h
    · exact .evaluated h
    · exact .assigned h h'

theorem words_stmts : stmts.words = 1 + stmt.words * stmts.words := by
  ext w
  constructor
  · intro h
    cases h with
    | noStmt => exact .inl rfl
    | moreStmts h h' => exact .inr ⟨_, h, _, h', rfl⟩
  · rintro (rfl | ⟨_, h, _, h', rfl⟩)
    · exact .noStmt
    · exact .moreStmts h h'

theorem words_signature : signature.words = 1 + kwOf.alone * type.words := by
  ext w
  constructor
  · intro h
    cases h with
    | unsigned => exact .inl rfl
    | signed h => exact .inr ⟨_, rfl, _, h, rfl⟩
  · rintro (rfl | ⟨_, rfl, _, h, rfl⟩)
    · exact .unsigned
    · exact .signed h

def variableWords : Language TokenKind :=
  kwVar.alone * (identifier.alone * (assign.alone * (expr.words * semicolon.alone)))

def functionWords : Language TokenKind :=
  kwFun.alone * (identifier.alone * (openParen.alone * (name.items.words * (closeParen.alone *
    (assign.alone * (expr.words * semicolon.alone))))))

theorem words_decl : decl.words = signature.words * (variableWords + functionWords) := by
  ext w
  constructor
  · intro h
    cases h with
    | var ht he =>
      exact ⟨_, ht, _, .inl ⟨_, rfl, _, ⟨_, rfl, _, ⟨_, rfl, _, ⟨_, he, _, rfl, rfl⟩, rfl⟩, rfl⟩,
        rfl⟩, rfl⟩
    | fn ht hps he =>
      exact ⟨_, ht, _, .inr ⟨_, rfl, _, ⟨_, rfl, _, ⟨_, rfl, _, ⟨_, hps, _, ⟨_, rfl, _, ⟨_, rfl, _,
        ⟨_, he, _, rfl, rfl⟩, rfl⟩, rfl⟩, rfl⟩, rfl⟩, rfl⟩, rfl⟩, rfl⟩
  · rintro ⟨t, ht, _, ⟨_, rfl, _, ⟨_, rfl, _, ⟨_, rfl, _, ⟨e, he, _, rfl, rfl⟩, rfl⟩, rfl⟩, rfl⟩ |
      ⟨_, rfl, _, ⟨_, rfl, _, ⟨_, rfl, _, ⟨ps, hps, _, ⟨_, rfl, _, ⟨_, rfl, _,
        ⟨e, he, _, rfl, rfl⟩, rfl⟩, rfl⟩, rfl⟩, rfl⟩, rfl⟩, rfl⟩, rfl⟩
    · exact .var ht he
    · exact .fn ht hps he

theorem words_program : program.words = 1 + decl.words * program.words := by
  ext w
  constructor
  · intro h
    cases h with
    | noDecl => exact .inl rfl
    | moreDecls h h' => exact .inr ⟨_, h, _, h', rfl⟩
  · rintro (rfl | ⟨_, h, _, h', rfl⟩)
    · exact .noDecl
    · exact .moreDecls h h'

end Category

/-- Some word belongs to the language. -/
class HasWord (L : Language TokenKind) : Prop where
  exists_mem : ∃ w, w ∈ L

namespace HasWord

variable {L M : Language TokenKind}

instance (k : TokenKind) : HasWord k.alone := ⟨[k], rfl⟩

instance : HasWord 1 := ⟨[], rfl⟩

instance [HasWord L] : HasWord (L + M) :=
  ⟨(exists_mem (L := L)).imp fun _ h => .inl h⟩

instance [HasWord L] [HasWord M] : HasWord (L * M) := by
  obtain ⟨l, hl⟩ := exists_mem (L := L)
  obtain ⟨m, hm⟩ := exists_mem (L := M)
  exact ⟨l ++ m, l, hl, m, hm, rfl⟩

instance : HasWord Category.operations := ⟨[], Language.nil_mem_kstar _⟩

instance (c : Category) : HasWord c.words := by
  have hexpr : Category.expr.Derives [.number] := .literal (by decide)
  induction c with
  | name => exact ⟨_, .name⟩
  | type => exact ⟨[.tyInt], .primitive (by decide)⟩
  | expr => exact ⟨_, hexpr⟩
  | stmt => exact ⟨_, .evaluated hexpr⟩
  | stmts => exact ⟨_, .noStmt⟩
  | signature => exact ⟨_, .unsigned⟩
  | decl => exact ⟨_, .var .unsigned hexpr⟩
  | program => exact ⟨_, .noDecl⟩
  | list c ih => exact ⟨ih.exists_mem.imp fun _ h => .lastItem h⟩
  | items c => exact ⟨_, .noItem⟩

end HasWord

/-- What may stand behind an expression. It does not go on with the expression, and an `else` at its
head belongs to a condition before it. -/
structure Following (K : Language TokenKind) : Prop where
  hasWord : HasWord K
  noTail : ∀ k v, k :: v ∈ K → Vocabulary.tailForm? k = none
  otherwise : ∀ v, .kwElse :: v ∈ K → v ∈ Category.expr.words * K

namespace Category

open Vocabulary TokenKind

variable {k : TokenKind} {v w : List TokenKind} {K M : Language TokenKind}

theorem cons_mem_type_mul :
    k :: v ∈ type.words * K ↔ ∃ form, full.typeForm? k = some form ∧ v ∈ form.rest * K := by
  rw [words_type, cons_mem_headed_mul]

theorem nil_notMem_type_mul : [] ∉ type.words * K := by
  rw [words_type]
  exact nil_notMem_headed_mul

theorem cons_mem_expr_mul : k :: v ∈ expr.words * K ↔
    ∃ form, full.lead? k = some form ∧ v ∈ form.rest * (operations * K) := by
  rw [words_expr, mul_assoc, cons_mem_headed_mul]

theorem nil_notMem_expr_mul : [] ∉ expr.words * K := by
  rw [words_expr, mul_assoc]
  exact nil_notMem_headed_mul

theorem cons_mem_operation_mul :
    k :: v ∈ operation * K ↔ ∃ form, tailForm? k = some form ∧ v ∈ form.rest * K :=
  cons_mem_headed_mul

theorem operations_mul : operations * K = K + operation * (operations * K) := by
  calc operations * K = (1 + operation * operations) * K := by rw [operations, one_add_mul_kstar]
    _ = K + operation * (operations * K) := by rw [add_mul, one_mul, mul_assoc]

theorem mem_of_mem_operations_mul (h : v ∈ operations * K)
    (hv : ∀ k ∈ v.head?, tailForm? k = none) : v ∈ K := by
  rw [operations_mul] at h
  rcases h with h | h
  · exact h
  · cases v with
    | nil => exact absurd h nil_notMem_headed_mul
    | cons k v =>
      obtain ⟨form, hk, _⟩ := cons_mem_operation_mul.mp h
      exact nomatch (hv k rfl).symm.trans hk

theorem cons_mem_decl_mul (h : k :: v ∈ decl.words * K) : full.declares k = true := by
  rw [words_decl, words_signature, mul_assoc, add_mul, add_mul, variableWords, functionWords] at h
  simp only [mul_assoc, one_mul, Language.mem_add, cons_mem_alone_mul] at h
  rcases h with (⟨rfl, _⟩ | ⟨rfl, _⟩) | ⟨rfl, _⟩ <;> rfl

theorem nil_notMem_decl_mul : [] ∉ decl.words * K := by
  rw [words_decl, words_signature, mul_assoc, add_mul, add_mul, variableWords, functionWords]
  simp only [mul_assoc, one_mul, Language.mem_add, nil_notMem_alone_mul, or_self, not_false_eq_true]

end Category

namespace Following

open Category Vocabulary

variable {k : TokenKind} {v : List TokenKind} {K K' M : Language TokenKind}

theorem alone_mul [HasWord M] (hk : tailForm? k = none) (hk' : k ≠ .kwElse) :
    Following (k.alone * M) where
  hasWord := inferInstance
  noTail _ _ h := (TokenKind.cons_mem_alone_mul.mp h).1 ▸ hk
  otherwise _ h := absurd (TokenKind.cons_mem_alone_mul.mp h).1.symm hk'

theorem add (h : Following K) (h' : Following K') : Following (K + K') where
  hasWord := have := h.hasWord; inferInstance
  noTail k v hv := hv.elim (h.noTail k v) (h'.noTail k v)
  otherwise v hv := by
    rw [mul_add]
    exact hv.imp (h.otherwise v) (h'.otherwise v)

theorem cons_mem_operations_mul (hK : Following K) {form : TailForm}
    (hk : tailForm? k = some form) :
    k :: v ∈ operations * K ↔ v ∈ form.rest * (operations * K) := by
  nth_rewrite 1 [operations_mul]
  rw [Language.mem_add, cons_mem_operation_mul]
  constructor
  · rintro (hv | ⟨form', hk', hv⟩)
    · exact nomatch (hK.noTail k v hv).symm.trans hk
    · obtain rfl := Option.some.inj (hk.symm.trans hk')
      exact hv
  · exact fun hv => .inr ⟨form, hk, hv⟩

/-- What may stand behind a branch that is not the last one for certain. -/
theorem branch (h : Following K) : Following (K + TokenKind.kwElse.alone * (expr.words * K)) where
  hasWord := have := h.hasWord; inferInstance
  noTail k v hv := by
    rcases hv with hv | hv
    · exact h.noTail k v hv
    · obtain ⟨rfl, _⟩ := TokenKind.cons_mem_alone_mul.mp hv
      rfl
  otherwise v hv := by
    rw [mul_add]
    exact .inl (hv.elim (h.otherwise v) fun hv => (TokenKind.cons_mem_alone_mul.mp hv).2)

end Following

namespace Phrase

/-- Where a phrase belongs when its numbers of arguments and its targets are forgotten. -/
def category : Phrase → Category
  | name => .name
  | type | functionType _ => .type
  | items item 0 => .items item.category
  | items item (_ + 1) => .list item.category
  | expr | target => .expr
  | stmt => .stmt
  | stmts => .stmts
  | varSignature | fnSignature _ => .signature
  | decl => .decl
  | program => .program

theorem derives_items_of_category {p : Phrase} {n : Nat} {w : List TokenKind}
    (h : (items p n).category.Derives w) : (Category.items p.category).Derives w := by
  cases n with
  | zero => exact h
  | succ n => exact .someItems h

/-- Whatever the grammar with its conditions makes, the one without them makes too. -/
theorem Derives.category {p : Phrase} {w : List TokenKind} (h : p.Derives w) :
    p.category.Derives w := by
  induction h with
  | name => exact .name
  | primitive h => exact .primitive h
  | pointer _ ih => exact .pointer ih
  | function _ ih => exact ih
  | arrow _ _ iha ihr => exact .function (derives_items_of_category iha) ihr
  | noItem => exact .noItem
  | lastItem _ ih => exact .lastItem ih
  | moreItems _ _ ih ihs => exact .moreItems ih ihs
  | literal h => exact .literal h
  | group _ ih | wrapped _ ih => exact .group ih
  | block _ ih => exact .block ih
  | ifThen _ _ ihc iht => exact .ifThen ihc iht
  | ifElse _ _ _ ihc iht ihe => exact .ifElse ihc iht ihe
  | returned _ ih => exact .returned ih
  | yielded _ ih => exact .yielded ih
  | prefixed h _ ih => exact .prefixed h ih
  | binary h _ _ ihl ihr => exact .binary h ihl ihr
  | call _ _ ihf iha => exact .call ihf (derives_items_of_category iha)
  | bare => exact .literal (by decide)
  | declared _ ih => exact .declared ih
  | evaluated _ ih => exact .evaluated ih
  | assigned _ _ ihl ihe => exact .assigned ihl ihe
  | noStmt => exact .noStmt
  | moreStmts _ _ ih ihs => exact .moreStmts ih ihs
  | untypedVar | untypedFn => exact .unsigned
  | typedVar _ ih | typedFn _ ih => exact .signed ih
  | var _ _ iht ihe => exact .var iht ihe
  | fn _ _ _ iht ihp ihe => exact .fn iht (derives_items_of_category ihp) ihe
  | noDecl => exact .noDecl
  | moreDecls _ _ ih ihs => exact .moreDecls ih ihs

end Phrase

end FrontEnd
