/-! The types of a program, kept in a table and named by their index in it. A pointer or function
type names its parts, which were entered before it. Equality of types is by structure. -/

namespace FrontEnd

structure TypeId where
  index : Nat
deriving DecidableEq, Repr, Inhabited

inductive Primitive where
  | int | bool | string | unit
deriving DecidableEq, Repr, Inhabited

def Primitive.name : Primitive → String
  | int => "Int"
  | bool => "Bool"
  | string => "String"
  | unit => "Unit"

inductive TypeShape where
  | primitive (p : Primitive)
  | pointer (target : TypeId)
  | function (arguments : List TypeId) (result : TypeId)
deriving DecidableEq, Repr, Inhabited

structure TypeTable where
  shapes : Array TypeShape
deriving DecidableEq, Repr

namespace TypeTable

def int : TypeId := ⟨0⟩
def bool : TypeId := ⟨1⟩
def string : TypeId := ⟨2⟩
def unit : TypeId := ⟨3⟩

/-- Every table starts with the four primitive types, and they are entered only once. -/
def initial : TypeTable :=
  ⟨#[.primitive .int, .primitive .bool, .primitive .string, .primitive .unit]⟩

instance : Inhabited TypeTable := ⟨initial⟩

def primitive : Primitive → TypeId
  | .int => int
  | .bool => bool
  | .string => string
  | .unit => unit

def size (T : TypeTable) : Nat := T.shapes.size

def shape? (T : TypeTable) (t : TypeId) : Option TypeShape := T.shapes[t.index]?

/-- Enters a new type; its index is the old size. -/
def enter (T : TypeTable) (s : TypeShape) : TypeId × TypeTable := (⟨T.size⟩, ⟨T.shapes.push s⟩)

def pointer (T : TypeTable) (target : TypeId) : TypeId × TypeTable := T.enter (.pointer target)

def function (T : TypeTable) (arguments : List TypeId) (result : TypeId) : TypeId × TypeTable :=
  T.enter (.function arguments result)

/-- The arguments and the result of a function type. -/
def function? (T : TypeTable) (t : TypeId) : Option (List TypeId × TypeId) :=
  match T.shape? t with
  | some (.function arguments result) => some (arguments, result)
  | _ => none

/-- Structural equality of types nested at most `n` deep. -/
def sameWithin (T : TypeTable) : Nat → TypeId → TypeId → Bool
  | 0, a, b => a = b
  | n + 1, a, b =>
    a = b ||
      match T.shape? a, T.shape? b with
      | some (.primitive p), some (.primitive q) => p = q
      | some (.pointer c), some (.pointer d) => T.sameWithin n c d
      | some (.function cs c), some (.function ds d) =>
        cs.length = ds.length && (cs.zip ds).all (fun (x, y) => T.sameWithin n x y) &&
          T.sameWithin n c d
      | _, _ => false

/-- Structural equality. The parts of a type have smaller indices than the type itself, so its
index bounds how deep it is nested. -/
def same (T : TypeTable) (a b : TypeId) : Bool := T.sameWithin (a.index + 1) a b

/-- The text of a type nested at most `n` deep. -/
def shownWithin (T : TypeTable) : Nat → TypeId → String
  | 0, _ => ""
  | n + 1, t =>
    match T.shape? t with
    | none => ""
    | some (.primitive p) => p.name
    | some (.pointer target) => "*" ++ T.shownWithin n target
    | some (.function arguments result) =>
      "[" ++ ", ".intercalate (arguments.map (T.shownWithin n)) ++ "] -> " ++
        T.shownWithin n result

/-- The text of a type, as a signature would write it. -/
def shown (T : TypeTable) (t : TypeId) : String := T.shownWithin (t.index + 1) t

theorem shape?_enter_self (T : TypeTable) (s : TypeShape) :
    (T.enter s).2.shape? (T.enter s).1 = some s := by
  simp [enter, shape?, size]

theorem shape?_enter_of_lt {T : TypeTable} {t : TypeId} (s : TypeShape) (h : t.index < T.size) :
    (T.enter s).2.shape? t = T.shape? t := by
  simp only [enter, shape?, size] at h ⊢
  rw [Array.getElem?_push]
  simp [Nat.ne_of_lt h]

end TypeTable

end FrontEnd
