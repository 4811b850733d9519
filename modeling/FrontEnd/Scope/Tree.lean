import FrontEnd.Position
import FrontEnd.Types.Table

/-! The scopes of a program and the symbols bound in them. A name is looked up from a scope through
its ancestors; a binding counts only where it is visible. -/

namespace FrontEnd

structure ScopeId where
  index : Nat
deriving DecidableEq, Repr, Inhabited

structure SymbolId where
  index : Nat
deriving DecidableEq, Repr, Inhabited

inductive SymbolKind where
  | var | fn
deriving DecidableEq, Repr, Inhabited

/-- A symbol without a signature has no type of its own. -/
structure Symbol where
  kind : SymbolKind
  name : String
  place : Position
  visibleFrom : Position
  isGlobal : Bool
  signature : Option TypeId
deriving DecidableEq, Repr, Inhabited

/-- A global is visible everywhere, any other symbol strictly behind the place it is visible
from. -/
def Symbol.visibleAt (s : Symbol) (p : Position) : Bool := s.isGlobal || s.visibleFrom < p

/-- The names bound in a scope are distinct. -/
structure Scope where
  place : Position
  parent : Option ScopeId
  names : List (String × SymbolId)
deriving DecidableEq, Repr, Inhabited

structure ScopeTree where
  scopes : Array Scope
  symbols : Array Symbol
deriving DecidableEq, Repr, Inhabited

namespace ScopeTree

def empty : ScopeTree := ⟨#[], #[]⟩

def scope? (T : ScopeTree) (c : ScopeId) : Option Scope := T.scopes[c.index]?

def symbol? (T : ScopeTree) (s : SymbolId) : Option Symbol := T.symbols[s.index]?

/-- Opens a new scope without names. -/
def push (T : ScopeTree) (place : Position) (parent : Option ScopeId) : ScopeId × ScopeTree :=
  (⟨T.scopes.size⟩, { T with scopes := T.scopes.push ⟨place, parent, []⟩ })

/-- What `name` is bound to in the scope `c` itself, visible or not. -/
def local? (T : ScopeTree) (c : ScopeId) (name : String) : Option SymbolId :=
  (T.scope? c).bind fun s => s.names.lookup name

/-- Binds a new symbol in the scope `c`. Fails with the symbol that has the name there already. -/
def bind (T : ScopeTree) (c : ScopeId) (s : Symbol) : Except SymbolId (SymbolId × ScopeTree) :=
  match T.local? c s.name with
  | some existing => .error existing
  | none =>
    let id : SymbolId := ⟨T.symbols.size⟩
    .ok (id, ⟨T.scopes.modify c.index fun sc => { sc with names := (s.name, id) :: sc.names },
      T.symbols.push s⟩)

/-- The first `n` members of the chain that leads from a scope to its root. -/
def chainWithin (T : ScopeTree) : Nat → ScopeId → List ScopeId
  | 0, _ => []
  | n + 1, c =>
    match (T.scope? c).bind Scope.parent with
    | none => [c]
    | some p => c :: T.chainWithin n p

/-- A scope and its ancestors, innermost first. A parent is older than its child, so the index of
a scope bounds the length of its chain. -/
def chain (T : ScopeTree) (c : ScopeId) : List ScopeId := T.chainWithin (c.index + 1) c

/-- The binding of `name` in the scope `c` itself, if it is visible at `p`. -/
def visible? (T : ScopeTree) (c : ScopeId) (name : String) (p : Position) : Option SymbolId :=
  (T.local? c name).filter fun id => ((T.symbol? id).map (·.visibleAt p)).getD false

/-- What `name` means at `p` inside the scope `c`: the innermost visible binding. An invisible one
does not hide those further out. -/
def lookup (T : ScopeTree) (c : ScopeId) (name : String) (p : Position) : Option SymbolId :=
  (T.chain c).findSome? fun d => T.visible? d name p

end ScopeTree

end FrontEnd
