/-! How alike two words are, by the Jaro measure: letters match if they are equal and stand at
nearly the same place, and matching letters in another order count half. -/

namespace FrontEnd.Text

/-- Takes the first of the letters left over that equals `c` and lies within `reach` of `i`. -/
def takeMatch (reach : Nat) (c : Char) (i : Nat) : List (Char × Nat) →
    Option ((Char × Nat) × List (Char × Nat))
  | [] => none
  | (d, j) :: ds =>
    if c = d ∧ i ≤ j + reach ∧ j ≤ i + reach then some ((d, j), ds)
    else (takeMatch reach c i ds).map fun (found, rest) => (found, (d, j) :: rest)

/-- The letters of the first text that have a match, and their matches in the second one. Letters
come with their indices. -/
def matchLetters (reach : Nat) : List (Char × Nat) → List (Char × Nat) →
    List Char × List (Char × Nat)
  | [], _ => ([], [])
  | (c, i) :: cs, ds =>
    match takeMatch reach c i ds with
    | none => matchLetters reach cs ds
    | some (found, rest) =>
      let (left, right) := matchLetters reach cs rest
      (c :: left, found :: right)

/-- The Jaro measure of two texts, from zero to one. -/
def jaro (cs ds : List Char) : Float :=
  let reach := max cs.length ds.length / 2 - 1
  let (left, right) := matchLetters reach cs.zipIdx ds.zipIdx
  let right := (right.mergeSort fun a b => a.2 ≤ b.2).map Prod.fst
  let m := left.length
  let t := ((left.zip right).countP fun (a, b) => a != b) / 2
  if cs.isEmpty && ds.isEmpty then 1
  else if m = 0 then 0
  else
    (m.toFloat / cs.length.toFloat + m.toFloat / ds.length.toFloat +
      (m - t).toFloat / m.toFloat) / 3

/-- How alike `a` is to `b`. -/
def likeness (a b : String) : Float := jaro a.toList b.toList

/-- The word that is most like `a` among those whose measure is above seven tenths; of two equally
like it, the later one. -/
def mostAlike? (a : String) (words : List String) : Option String :=
  (words.filter fun b => 0.7 < likeness a b).foldl (fun best b =>
    match best with
    | none => some b
    | some c => if likeness a b < likeness a c then some c else some b) none

end FrontEnd.Text
