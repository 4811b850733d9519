import FrontEnd.Grammar.Expression
import FrontEnd.Proofs.Grammar.Language
import FrontEnd.Proofs.Types.Growth

/-! The syntax trees that a stretch of tokens can be read as. The relation follows the trees, not
the rules that build them: it knows no binding powers and does not look ahead. -/

namespace FrontEnd

def BinaryForm.operators : BinaryForm → List TokenKind
  | comparison => TokenKind.comparisons
  | arithmetic => TokenKind.arithmetic

/-- A list whose members are read in order, with commas between them. -/
inductive ReadList {α : Type} (Item : List Token → α → Prop) : List Token → List α → Prop
  | nil : ReadList Item [] []
  | singleton {w : List Token} {a : α} : Item w a → ReadList Item w [a]
  | cons {w ws : List Token} {k : Token} {a b : α} {as : List α} (hk : k.kind = .comma) :
      Item w a → ReadList Item ws (b :: as) → ReadList Item (w ++ k :: ws) (a :: b :: as)

def ReadName (w : List Token) (t : Token) : Prop := w = [t] ∧ t.kind = .identifier

/-- What can be read from tokens. -/
inductive Node where
  | type (t : TypeId)
  | types (ts : List TypeId)
  | signature (t : Option TypeId)
  | expr (e : Expr)
  | exprs (es : List Expr)
  | stmt (s : Stmt)
  | stmts (ss : List Stmt)
  | decl (d : Decl)
  | decls (ds : List Decl)

/-- A signature fits so many parameters. -/
def TypeTable.Fits (T : TypeTable) (signature : Option TypeId) (params : Nat) : Prop :=
  ∀ t ∈ signature, ∃ as r, T.function? t = some (as, r) ∧ as.length = params

open Rule in
/-- `Reads T w a` says that the tokens `w` can be read as `a`, whose types are those of `T`. -/
inductive Reads (T : TypeTable) : List Token → Node → Prop
  | primitive {k : Token} {p : Primitive} (hk : k.kind.primitive? = some p) :
      Reads T [k] (.type (TypeTable.primitive p))
  | pointer {k : Token} {w : List Token} {t u : TypeId} (hk : k.kind = .star)
      (ht : T.shape? t = some (.pointer u)) : Reads T w (.type u) → Reads T (k :: w) (.type t)
  | function {o c k : Token} {w v : List Token} {as : List TypeId} {r t : TypeId}
      (ho : o.kind = .openBracket) (hc : c.kind = .closeBracket) (hk : k.kind = .arrow)
      (ht : T.shape? t = some (.function as r)) :
      Reads T w (.types as) → Reads T v (.type r) → Reads T (o :: (w ++ c :: k :: v)) (.type t)
  | noType : Reads T [] (.types [])
  | lastType {w : List Token} {t : TypeId} : Reads T w (.type t) → Reads T w (.types [t])
  | moreTypes {w ws : List Token} {k : Token} {t u : TypeId} {ts : List TypeId}
      (hk : k.kind = .comma) : Reads T w (.type t) → Reads T ws (.types (u :: ts)) →
      Reads T (w ++ k :: ws) (.types (t :: u :: ts))
  | unsigned : Reads T [] (.signature none)
  | signed {k : Token} {w : List Token} {t : TypeId} (hk : k.kind = .kwOf) :
      Reads T w (.type t) → Reads T (k :: w) (.signature (some t))
  | literal {t : Token} (ht : t.kind ∈ TokenKind.literals) :
      Reads T [t] (.expr (.leaf (exprSite t.place) .literal t))
  | group {o c : Token} {w : List Token} {e : Expr} (ho : o.kind = .openParen)
      (hc : c.kind = .closeParen) : Reads T w (.expr e) → Reads T (o :: (w ++ [c])) (.expr e)
  | block {o c : Token} {w : List Token} {ss : List Stmt} (ho : o.kind = .openCurly)
      (hc : c.kind = .closeCurly) : Reads T w (.stmts ss) →
      Reads T (o :: (w ++ [c])) (.expr (.block (exprSite o.place) ss))
  | ifThen {i k : Token} {w v : List Token} {c t : Expr} (hi : i.kind = .kwIf)
      (hk : k.kind = .kwThen) : Reads T w (.expr c) → Reads T v (.expr t) →
      Reads T (i :: (w ++ k :: v)) (.expr (.ifThen (exprSite i.place) c t))
  | ifElse {i k l : Token} {w v u : List Token} {c t e : Expr} (hi : i.kind = .kwIf)
      (hk : k.kind = .kwThen) (hl : l.kind = .kwElse) : Reads T w (.expr c) →
      Reads T v (.expr t) → Reads T u (.expr e) →
      Reads T (i :: (w ++ k :: (v ++ l :: u))) (.expr (.ifElse (exprSite i.place) c t e))
  | returned {k : Token} {w : List Token} {e : Expr} (hk : k.kind = .kwReturn) :
      Reads T w (.expr e) → Reads T (k :: w) (.expr (.result (exprSite k.place) .fromFunction e))
  | yielded {k : Token} {w : List Token} {e : Expr} (hk : k.kind = .kwYield) :
      Reads T w (.expr e) → Reads T (k :: w) (.expr (.result (exprSite k.place) .fromBlock e))
  | prefixed {k : Token} {w : List Token} {e : Expr} (hk : k.kind ∈ TokenKind.prefixOperators) :
      Reads T w (.expr e) → Reads T (k :: w) (.expr (.unary (exprSite k.place) k e))
  | binary {form : BinaryForm} {k : Token} {w v : List Token} {l r : Expr}
      (hk : k.kind ∈ form.operators) : Reads T w (.expr l) → Reads T v (.expr r) →
      Reads T (w ++ k :: v) (.expr (.binary (exprSite k.place) form k l r))
  | call {o c : Token} {w v : List Token} {f : Expr} {as : List Expr} (ho : o.kind = .openParen)
      (hc : c.kind = .closeParen) : Reads T w (.expr f) → Reads T v (.exprs as) →
      Reads T (w ++ o :: (v ++ [c])) (.expr (.call (exprSite f.place) f as))
  | noExpr : Reads T [] (.exprs [])
  | lastExpr {w : List Token} {e : Expr} : Reads T w (.expr e) → Reads T w (.exprs [e])
  | moreExprs {w ws : List Token} {k : Token} {e f : Expr} {es : List Expr}
      (hk : k.kind = .comma) : Reads T w (.expr e) → Reads T ws (.exprs (f :: es)) →
      Reads T (w ++ k :: ws) (.exprs (e :: f :: es))
  | evaluated {c : Token} {w : List Token} {e : Expr} (hc : c.kind = .semicolon) :
      Reads T w (.expr e) → Reads T (w ++ [c]) (.stmt (.expr (site e.place) e))
  | assigned {k c n : Token} {w v : List Token} {l e : Expr} (hk : k.kind = .assign)
      (hc : c.kind = .semicolon) (hn : l.name? = some n) : Reads T w (.expr l) →
      Reads T v (.expr e) → Reads T (w ++ k :: (v ++ [c])) (.stmt (.assign (site l.place) l e))
  | declared {w : List Token} {d : Decl} : Reads T w (.decl d) →
      Reads T w (.stmt (.decl (site d.place) d))
  | noStmt : Reads T [] (.stmts [])
  | moreStmts {w ws : List Token} {s : Stmt} {ss : List Stmt} : Reads T w (.stmt s) →
      Reads T ws (.stmts ss) → Reads T (w ++ ws) (.stmts (s :: ss))
  | var {k n a c : Token} {w v : List Token} {g : Option TypeId} {e : Expr}
      (hk : k.kind = .kwVar) (hn : n.kind = .identifier) (ha : a.kind = .assign)
      (hc : c.kind = .semicolon) : Reads T w (.signature g) → Reads T v (.expr e) →
      Reads T (w ++ k :: n :: a :: (v ++ [c]))
        (.decl (.var (site (w.headD k).place) n g e c.place))
  | fn {k n o c a f : Token} {w u v : List Token} {g : Option TypeId} {ps : List Token} {e : Expr}
      (hk : k.kind = .kwFun) (hn : n.kind = .identifier) (ho : o.kind = .openParen)
      (hc : c.kind = .closeParen) (ha : a.kind = .assign) (hf : f.kind = .semicolon)
      (hg : T.Fits g ps.length) : Reads T w (.signature g) → ReadList ReadName u ps →
      Reads T v (.expr e) →
      Reads T (w ++ k :: n :: o :: (u ++ c :: a :: (v ++ [f])))
        (.decl (.fn (site (w.headD k).place) n g ps e))
  | noDecl : Reads T [] (.decls [])
  | moreDecls {w ws : List Token} {d : Decl} {ds : List Decl} : Reads T w (.decl d) →
      Reads T ws (.decls ds) → Reads T (w ++ ws) (.decls (d :: ds))

theorem TypeTable.Fits.mono {T T' : TypeTable} {g : Option TypeId} {n : Nat} (h : T.Grows T')
    (hg : T.Fits g n) : T'.Fits g n := by
  intro t ht
  obtain ⟨as, r, hf, hn⟩ := hg t ht
  exact ⟨as, r, h.function? hf, hn⟩

theorem Reads.mono {T T' : TypeTable} (hT : T.Grows T') {w : List Token} {a : Node}
    (h : Reads T w a) : Reads T' w a := by
  induction h with
  | primitive hk => exact .primitive hk
  | pointer hk ht _ ih => exact .pointer hk (hT.shape? ht) ih
  | function ho hc hk ht _ _ ih ih' => exact .function ho hc hk (hT.shape? ht) ih ih'
  | noType => exact .noType
  | lastType _ ih => exact .lastType ih
  | moreTypes hk _ _ ih ih' => exact .moreTypes hk ih ih'
  | unsigned => exact .unsigned
  | signed hk _ ih => exact .signed hk ih
  | literal ht => exact .literal ht
  | group ho hc _ ih => exact .group ho hc ih
  | block ho hc _ ih => exact .block ho hc ih
  | ifThen hi hk _ _ ih ih' => exact .ifThen hi hk ih ih'
  | ifElse hi hk hl _ _ _ ih ih' ih'' => exact .ifElse hi hk hl ih ih' ih''
  | returned hk _ ih => exact .returned hk ih
  | yielded hk _ ih => exact .yielded hk ih
  | prefixed hk _ ih => exact .prefixed hk ih
  | binary hk _ _ ih ih' => exact .binary hk ih ih'
  | call ho hc _ _ ih ih' => exact .call ho hc ih ih'
  | noExpr => exact .noExpr
  | lastExpr _ ih => exact .lastExpr ih
  | moreExprs hk _ _ ih ih' => exact .moreExprs hk ih ih'
  | evaluated hc _ ih => exact .evaluated hc ih
  | assigned hk hc hn _ _ ih ih' => exact .assigned hk hc hn ih ih'
  | declared _ ih => exact .declared ih
  | noStmt => exact .noStmt
  | moreStmts _ _ ih ih' => exact .moreStmts ih ih'
  | var hk hn ha hc _ _ ih ih' => exact .var hk hn ha hc ih ih'
  | fn hk hn ho hc ha hf hg _ hu _ ih ih' => exact .fn hk hn ho hc ha hf (hg.mono hT) ih hu ih'
  | noDecl => exact .noDecl
  | moreDecls _ _ ih ih' => exact .moreDecls ih ih'

theorem Reads.decl_ne_nil {T : TypeTable} {w : List Token} {d : Decl}
    (h : Reads T w (.decl d)) : w ≠ [] := by
  cases h <;> simp

theorem Reads.index_lt {T : TypeTable} (hT : T.Reachable) {w : List Token} {t : TypeId}
    (h : Reads T w (.type t)) : t.index < T.size := by
  cases h with
  | primitive _ => exact TypeTable.lt_size_of_shape? (hT.shape?_primitive _)
  | pointer _ ht _ => exact TypeTable.lt_size_of_shape? ht
  | function _ _ _ ht _ _ => exact TypeTable.lt_size_of_shape? ht

theorem Reads.index_lt_of_types {T : TypeTable} (hT : T.Reachable) {w : List Token}
    {ts : List TypeId} (h : Reads T w (.types ts)) : ∀ t ∈ ts, t.index < T.size := by
  induction ts generalizing w with
  | nil => simp
  | cons t ts ih =>
    cases h with
    | lastType h => simpa using h.index_lt hT
    | moreTypes _ h h' => exact List.forall_mem_cons.mpr ⟨h.index_lt hT, ih h'⟩

theorem ReadList.types {T : TypeTable} {w : List Token} {ts : List TypeId}
    (h : ReadList (fun w t => Reads T w (.type t)) w ts) : Reads T w (.types ts) := by
  induction h with
  | nil => exact .noType
  | singleton h => exact .lastType h
  | cons hk h _ ih => exact .moreTypes hk h ih

theorem ReadList.exprs {T : TypeTable} {w : List Token} {es : List Expr}
    (h : ReadList (fun w e => Reads T w (.expr e)) w es) : Reads T w (.exprs es) := by
  induction h with
  | nil => exact .noExpr
  | singleton h => exact .lastExpr h
  | cons hk h _ ih => exact .moreExprs hk h ih

end FrontEnd
