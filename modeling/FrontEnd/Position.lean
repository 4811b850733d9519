/-! Places in a source text. A place is reached by reading characters from the origin, and places
are ordered by offset, then line, then column. -/

namespace FrontEnd

/-- The offset counts bytes of the UTF-8 text, the column counts characters. All three start
at zero. -/
structure Position where
  offset : Nat
  line : Nat
  column : Nat
deriving DecidableEq, Repr, Inhabited

namespace Position

def origin : Position := ⟨0, 0, 0⟩

/-- The place after reading `c`: a newline opens the next line, nothing else does. -/
def after (p : Position) (c : Char) : Position :=
  if c = '\n' then ⟨p.offset + c.utf8Size, p.line + 1, 0⟩
  else ⟨p.offset + c.utf8Size, p.line, p.column + 1⟩

/-- The place after reading all of `cs`. -/
def afterAll (p : Position) (cs : List Char) : Position := cs.foldl after p

@[simp] theorem afterAll_nil (p : Position) : p.afterAll [] = p := rfl

@[simp] theorem afterAll_cons (p : Position) (c : Char) (cs : List Char) :
    p.afterAll (c :: cs) = (p.after c).afterAll cs := rfl

theorem afterAll_append (p : Position) (cs ds : List Char) :
    p.afterAll (cs ++ ds) = (p.afterAll cs).afterAll ds := List.foldl_append

instance : LT Position :=
  ⟨fun p q => p.offset < q.offset ∨ p.offset = q.offset ∧
    (p.line < q.line ∨ p.line = q.line ∧ p.column < q.column)⟩

theorem lt_def {p q : Position} : p < q ↔ p.offset < q.offset ∨ p.offset = q.offset ∧
    (p.line < q.line ∨ p.line = q.line ∧ p.column < q.column) := Iff.rfl

instance (p q : Position) : Decidable (p < q) := decidable_of_iff _ lt_def.symm

instance : Ord Position := ⟨fun p q => compareOfLessAndEq p q⟩

/-- Places are counted from one when shown. -/
def shown (p : Position) : String :=
  "line " ++ toString (p.line + 1) ++ ", column " ++ toString (p.column + 1)

end Position

end FrontEnd
