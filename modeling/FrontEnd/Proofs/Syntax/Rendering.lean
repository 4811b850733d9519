import FrontEnd.Proofs.Grammar.Reading
import Mathlib.Algebra.Group.Nat.Defs

/-! Writing a program down. Every operand, callee, argument, condition, branch, result and initial
value stands in parentheses, so that no binding power is needed to read it again. -/

namespace FrontEnd

/-- A piece of a written program: a token, or a whole type. -/
inductive Word where
  | token (t : Token)
  | type (t : TypeId)

namespace Word

/-- A token that carries nothing; its place does not matter. -/
def fixed (k : TokenKind) : Word := token ⟨k, .none, .origin⟩

def shown (T : TypeTable) : Word → String
  | token t => t.shown
  | type t => T.shown t

end Word

def inParens (ws : List Word) : List Word :=
  .fixed .openParen :: (ws ++ [.fixed .closeParen])

def separated (ws : List (List Word)) : List Word := [.fixed .comma].intercalate ws

def ResultForm.keyword : ResultForm → TokenKind
  | fromFunction => .kwReturn
  | fromBlock => .kwYield

def signatureWords : Option TypeId → List Word
  | none => []
  | some t => [.fixed .kwOf, .type t]

mutual

def Expr.words : Expr → List Word
  | .leaf _ _ t => [.token t]
  | .binary _ _ k l r => inParens l.words ++ .token k :: inParens r.words
  | .unary _ k e => .token k :: inParens e.words
  | .call _ f as =>
    inParens f.words ++
      .fixed .openParen :: (separated (Expr.wordsOfEach as) ++ [.fixed .closeParen])
  | .block _ ss => .fixed .openCurly :: (Stmt.wordsOfAll ss ++ [.fixed .closeCurly])
  | .ifThen _ c a => .fixed .kwIf :: (inParens c.words ++ .fixed .kwThen :: inParens a.words)
  | .ifElse _ c a b =>
    .fixed .kwIf :: (inParens c.words ++
      .fixed .kwThen :: (inParens a.words ++ .fixed .kwElse :: inParens b.words))
  | .result _ form e => .fixed form.keyword :: inParens e.words

def Expr.wordsOfEach : List Expr → List (List Word)
  | [] => []
  | e :: es => inParens e.words :: Expr.wordsOfEach es

def Stmt.words : Stmt → List Word
  | .expr _ e => e.words ++ [.fixed .semicolon]
  | .assign _ l e => l.words ++ .fixed .assign :: (e.words ++ [.fixed .semicolon])
  | .decl _ d => d.words

def Stmt.wordsOfAll : List Stmt → List Word
  | [] => []
  | s :: ss => s.words ++ Stmt.wordsOfAll ss

def Decl.words : Decl → List Word
  | .var _ n g e _ =>
    signatureWords g ++
      .fixed .kwVar :: .token n :: .fixed .assign :: (inParens e.words ++ [.fixed .semicolon])
  | .fn _ n g ps e =>
    signatureWords g ++
      .fixed .kwFun :: .token n :: .fixed .openParen ::
        (separated (ps.map fun p => [.token p]) ++
          .fixed .closeParen :: .fixed .assign :: (e.words ++ [.fixed .semicolon]))

end

def Decl.wordsOfAll (ds : List Decl) : List Word := ds.flatMap Decl.words

/-- The text of a program: its words, each with a blank behind it. -/
def Program.render (p : Program) (T : TypeTable) : String :=
  String.join ((Decl.wordsOfAll p.decls).map fun w => w.shown T ++ " ")

/-- What a token is apart from its place. -/
abbrev Letter := TokenKind × Payload

def Token.letter (t : Token) : Letter := (t.kind, t.payload)

/-- The letter of a kind whose tokens carry nothing. -/
def TokenKind.letter (k : TokenKind) : Letter := (k, .none)

def Primitive.kind : Primitive → TokenKind
  | int => .tyInt
  | bool => .tyBool
  | string => .tyString
  | unit => .tyUnit

/-- The letters of a type nested at most `n` deep. -/
def TypeTable.lettersWithin (T : TypeTable) : Nat → TypeId → List Letter
  | 0, _ => []
  | n + 1, t =>
    match T.shape? t with
    | none => []
    | some (.primitive p) => [p.kind.letter]
    | some (.pointer u) => TokenKind.letter .star :: T.lettersWithin n u
    | some (.function as r) =>
      TokenKind.letter .openBracket ::
        ([TokenKind.letter .comma].intercalate (as.map (T.lettersWithin n)) ++
          TokenKind.letter .closeBracket :: TokenKind.letter .arrow :: T.lettersWithin n r)

def TypeTable.letters (T : TypeTable) (t : TypeId) : List Letter := T.lettersWithin (t.index + 1) t

def Word.letters (T : TypeTable) : Word → List Letter
  | token t => [t.letter]
  | type t => T.letters t

def lettersOf (T : TypeTable) (ws : List Word) : List Letter := ws.flatMap (Word.letters T)

/-- The token is an identifier with a text that no word of the language is spelled by. -/
structure Token.IsName (t : Token) : Prop where
  kind : t.kind = .identifier
  payload : t.payload = .text t.text
  spelled : ∃ c cs, t.text = String.ofList (c :: cs) ∧ Lexeme.isWordStart c = true ∧
    ∀ d ∈ cs, Lexeme.isWordPart d = true
  free : ∀ k ∈ TokenKind.words, k.spelling ≠ t.text

/-- The token is a name, a number below the bound, a string without quotes or a truth value. -/
inductive Token.IsLiteral (t : Token) : Prop
  | name (h : t.IsName)
  | number {n : Nat} (hk : t.kind = .number) (hp : t.payload = .int n) (hn : n < 2 ^ 63)
  | string {s : String} (hk : t.kind = .string) (hp : t.payload = .text s) (hs : '"' ∉ s.toList)
  | truth (hk : t.kind = .kwTrue ∨ t.kind = .kwFalse) (hp : t.payload = .none)

open Rule (exprSite site)

/-- The trees that the grammar can produce, at any places, with signatures of the table. -/
inductive Node.Writable (T : TypeTable) : Node → Prop
  | literal {p : Position} {t : Token} (ht : t.IsLiteral) :
      Writable T (.expr (.leaf (exprSite p) .literal t))
  | binary {p : Position} {form : BinaryForm} {k : Token} {l r : Expr}
      (hk : k.kind ∈ form.operators) (hp : k.payload = .none) : Writable T (.expr l) →
      Writable T (.expr r) → Writable T (.expr (.binary (exprSite p) form k l r))
  | unary {p : Position} {k : Token} {e : Expr} (hk : k.kind ∈ TokenKind.prefixOperators)
      (hp : k.payload = .none) : Writable T (.expr e) →
      Writable T (.expr (.unary (exprSite p) k e))
  | call {p : Position} {f : Expr} {as : List Expr} : Writable T (.expr f) →
      Writable T (.exprs as) → Writable T (.expr (.call (exprSite p) f as))
  | block {p : Position} {ss : List Stmt} : Writable T (.stmts ss) →
      Writable T (.expr (.block (exprSite p) ss))
  | ifThen {p : Position} {c a : Expr} : Writable T (.expr c) → Writable T (.expr a) →
      Writable T (.expr (.ifThen (exprSite p) c a))
  | ifElse {p : Position} {c a b : Expr} : Writable T (.expr c) → Writable T (.expr a) →
      Writable T (.expr b) → Writable T (.expr (.ifElse (exprSite p) c a b))
  | result {p : Position} {form : ResultForm} {e : Expr} : Writable T (.expr e) →
      Writable T (.expr (.result (exprSite p) form e))
  | noExpr : Writable T (.exprs [])
  | moreExprs {e : Expr} {es : List Expr} : Writable T (.expr e) → Writable T (.exprs es) →
      Writable T (.exprs (e :: es))
  | evaluated {p : Position} {e : Expr} : Writable T (.expr e) →
      Writable T (.stmt (.expr (site p) e))
  | assigned {p q : Position} {n : Token} {e : Expr} (hn : n.IsName) : Writable T (.expr e) →
      Writable T (.stmt (.assign (site p) (.leaf (exprSite q) .literal n) e))
  | declared {p : Position} {d : Decl} : Writable T (.decl d) →
      Writable T (.stmt (.decl (site p) d))
  | noStmt : Writable T (.stmts [])
  | moreStmts {s : Stmt} {ss : List Stmt} : Writable T (.stmt s) → Writable T (.stmts ss) →
      Writable T (.stmts (s :: ss))
  | var {p q : Position} {n : Token} {g : Option TypeId} {e : Expr} (hn : n.IsName)
      (hg : ∀ t ∈ g, t.index < T.size) : Writable T (.expr e) →
      Writable T (.decl (.var (site p) n g e q))
  | fn {p : Position} {n : Token} {g : Option TypeId} {ps : List Token} {e : Expr}
      (hn : n.IsName) (hg : T.Fits g ps.length) (hps : ∀ t ∈ ps, t.IsName) :
      Writable T (.expr e) → Writable T (.decl (.fn (site p) n g ps e))
  | noDecl : Writable T (.decls [])
  | moreDecls {d : Decl} {ds : List Decl} : Writable T (.decl d) → Writable T (.decls ds) →
      Writable T (.decls (d :: ds))

structure Program.Writable (p : Program) (T : TypeTable) : Prop where
  decls : Node.Writable T (.decls p.decls)
  scope : p.scope = none

end FrontEnd
