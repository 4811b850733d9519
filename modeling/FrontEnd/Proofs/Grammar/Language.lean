import FrontEnd.Token.Kind

/-! The language of programs, as a grammar over the kinds of tokens. It is ambiguous on purpose:
operators have no binding power here, and an `else` may belong to any condition before it. -/

namespace FrontEnd

namespace TokenKind

def literals : List TokenKind := [number, string, identifier, kwTrue, kwFalse]

def comparisons : List TokenKind := [equals, notEquals, less, greater]

def arithmetic : List TokenKind := [plus, minus, star, slash]

def binaryOperators : List TokenKind := comparisons ++ arithmetic

def prefixOperators : List TokenKind := [minus, bang]

def primitives : List TokenKind := [tyInt, tyBool, tyString, tyUnit]

end TokenKind

inductive Phrase where
  | name
  | type
  | functionType (arguments : Nat)
  | items (item : Phrase) (count : Nat)
  | expr
  | target
  | stmt
  | stmts
  | varSignature
  | fnSignature (arguments : Nat)
  | decl
  | program

namespace Phrase

/-- The kinds of the tokens that a phrase can be made of. `items p n` is a list of `n` phrases with
commas between them. -/
inductive Derives : Phrase → List TokenKind → Prop
  | name : Derives name [.identifier]
  | primitive {k : TokenKind} (h : k ∈ TokenKind.primitives) : Derives type [k]
  | pointer {t : List TokenKind} : Derives type t → Derives type (.star :: t)
  | function {n : Nat} {t : List TokenKind} : Derives (functionType n) t → Derives type t
  | arrow {n : Nat} {as r : List TokenKind} : Derives (items type n) as → Derives type r →
      Derives (functionType n) (.openBracket :: (as ++ .closeBracket :: .arrow :: r))
  | noItem {p : Phrase} : Derives (items p 0) []
  | lastItem {p : Phrase} {w : List TokenKind} : Derives p w → Derives (items p 1) w
  | moreItems {p : Phrase} {n : Nat} {w ws : List TokenKind} : Derives p w →
      Derives (items p (n + 1)) ws → Derives (items p (n + 2)) (w ++ .comma :: ws)
  | literal {k : TokenKind} (h : k ∈ TokenKind.literals) : Derives expr [k]
  | group {e : List TokenKind} : Derives expr e →
      Derives expr (.openParen :: (e ++ [.closeParen]))
  | block {ss : List TokenKind} : Derives stmts ss →
      Derives expr (.openCurly :: (ss ++ [.closeCurly]))
  | ifThen {c t : List TokenKind} : Derives expr c → Derives expr t →
      Derives expr (.kwIf :: (c ++ .kwThen :: t))
  | ifElse {c t e : List TokenKind} : Derives expr c → Derives expr t → Derives expr e →
      Derives expr (.kwIf :: (c ++ .kwThen :: (t ++ .kwElse :: e)))
  | returned {e : List TokenKind} : Derives expr e → Derives expr (.kwReturn :: e)
  | yielded {e : List TokenKind} : Derives expr e → Derives expr (.kwYield :: e)
  | prefixed {k : TokenKind} {e : List TokenKind} (h : k ∈ TokenKind.prefixOperators) :
      Derives expr e → Derives expr (k :: e)
  | binary {k : TokenKind} {l r : List TokenKind} (h : k ∈ TokenKind.binaryOperators) :
      Derives expr l → Derives expr r → Derives expr (l ++ k :: r)
  | call {n : Nat} {f as : List TokenKind} : Derives expr f → Derives (items expr n) as →
      Derives expr (f ++ .openParen :: (as ++ [.closeParen]))
  | bare : Derives target [.identifier]
  | wrapped {l : List TokenKind} : Derives target l →
      Derives target (.openParen :: (l ++ [.closeParen]))
  | declared {d : List TokenKind} : Derives decl d → Derives stmt d
  | evaluated {e : List TokenKind} : Derives expr e → Derives stmt (e ++ [.semicolon])
  | assigned {l e : List TokenKind} : Derives target l → Derives expr e →
      Derives stmt (l ++ .assign :: (e ++ [.semicolon]))
  | noStmt : Derives stmts []
  | moreStmts {s ss : List TokenKind} : Derives stmt s → Derives stmts ss →
      Derives stmts (s ++ ss)
  | untypedVar : Derives varSignature []
  | typedVar {t : List TokenKind} : Derives type t → Derives varSignature (.kwOf :: t)
  | untypedFn {n : Nat} : Derives (fnSignature n) []
  | typedFn {n : Nat} {t : List TokenKind} : Derives (functionType n) t →
      Derives (fnSignature n) (.kwOf :: t)
  | var {t e : List TokenKind} : Derives varSignature t → Derives expr e →
      Derives decl (t ++ .kwVar :: .identifier :: .assign :: (e ++ [.semicolon]))
  | fn {n : Nat} {t ps e : List TokenKind} : Derives (fnSignature n) t →
      Derives (items name n) ps → Derives expr e →
      Derives decl (t ++ .kwFun :: .identifier :: .openParen ::
        (ps ++ .closeParen :: .assign :: (e ++ [.semicolon])))
  | noDecl : Derives program []
  | moreDecls {d ds : List TokenKind} : Derives decl d → Derives program ds →
      Derives program (d ++ ds)

theorem Derives.invalid_not_mem {p : Phrase} {w : List TokenKind} (h : p.Derives w) :
    TokenKind.invalid ∉ w := by
  induction h with
  | primitive h | literal h =>
    exact fun hm => absurd (List.eq_of_mem_singleton hm ▸ h) (by decide)
  | prefixed h _ ih =>
    exact fun hm => (List.mem_cons.mp hm).elim (fun he => absurd (he ▸ h) (by decide)) ih
  | @binary k _ _ h _ _ ihl ihr =>
    have hk : TokenKind.invalid ≠ k := fun he => absurd (he ▸ h) (by decide)
    simp [ihl, ihr, hk]
  | _ => simp_all

theorem Derives.exists_cons {w : List TokenKind} (h : target.Derives w) : ∃ k v, w = k :: v := by
  cases h <;> exact ⟨_, _, rfl⟩

end Phrase

end FrontEnd
