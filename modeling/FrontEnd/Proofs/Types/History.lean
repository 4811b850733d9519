import Mathlib
import FrontEnd.Proofs.Grammar.Leftovers
import FrontEnd.Proofs.Types.Matching

/-! The tables of types that come about: from the one with the primitive types, pointer and function
types are entered and sources are read, which may fail. What holds of every such table, and what is
kept of it later on. -/

namespace FrontEnd.TypeTable

variable {T U : TypeTable} {t : TypeId}

/-- One operation on a table, with types that the table has. -/
inductive Step (T : TypeTable) : TypeTable → Prop where
  | pointer (target : TypeId) (h : T.Holds target) : T.Step (T.pointer target).2
  | function (arguments : List TypeId) (result : TypeId) (ha : ∀ a ∈ arguments, T.Holds a)
      (hr : T.Holds result) : T.Step (T.function arguments result).2
  | parse (source : String) : T.Step (Program.parse source T).2

/-- The primitive types come first and are the only ones, all parts of a type stand before it, and
to show a type or to compare two of them takes no longer than they are deep and finds all that it
looks up. -/
structure Intact (T : TypeTable) : Prop where
  primitives : T.shape? ⟨0⟩ = some (.primitive .int) ∧ T.shape? ⟨1⟩ = some (.primitive .bool) ∧
    T.shape? ⟨2⟩ = some (.primitive .string) ∧ T.shape? ⟨3⟩ = some (.primitive .unit)
  composed {t : TypeId} {p : Primitive} : T.shape? t = some (.primitive p) → t.index < 4
  parts_lt {t u : TypeId} {s : TypeShape} : T.shape? t = some s → u ∈ s.parts → u.index < t.index
  shows {t : TypeId} : T.Holds t → T.showsWithin (t.index + 1) t = true
  compares {a b : TypeId} : T.Holds a → T.Holds b → T.comparesWithin (a.index + 1) a b = true

/-- The types of `T` are in `U` as they were, with the same texts, and equal to the same types. -/
structure Preserved (T U : TypeTable) : Prop where
  shape {t : TypeId} : T.Holds t → U.shape? t = T.shape? t
  shown {t : TypeId} : T.Holds t → U.shown t = T.shown t
  same {a b : TypeId} : T.Holds a → T.Holds b → U.same a b = T.same a b

/-- Types that were entered between the tables `T` and `U` are in `V` parts of nothing else. -/
def Unused (T U V : TypeTable) : Prop :=
  ∀ ⦃t u : TypeId⦄ ⦃s : TypeShape⦄, V.shape? t = some s → u ∈ s.parts →
    T.size ≤ u.index ∧ u.index < U.size → T.size ≤ t.index ∧ t.index < U.size

theorem Reachable.shape?_eq_primitive (hT : T.Reachable) {p : Primitive}
    (h : T.shape? t = some (.primitive p)) : t = primitive p := by
  induction hT with
  | initial =>
    obtain ⟨q, rfl, hq⟩ := shape?_initial h
    rw [TypeShape.primitive.inj hq]
  | pointer _ _ ih =>
    rcases shape?_enter_cases h with ⟨-, he⟩ | h
    · exact nomatch he
    · exact ih h
  | function _ _ _ ih =>
    rcases shape?_enter_cases h with ⟨-, he⟩ | h
    · exact nomatch he
    · exact ih h

theorem Reachable.intact (hT : T.Reachable) : T.Intact where
  primitives := ⟨hT.shape?_primitive .int, hT.shape?_primitive .bool, hT.shape?_primitive .string,
    hT.shape?_primitive .unit⟩
  composed {t p} h := by
    rw [hT.shape?_eq_primitive h]
    cases p <;> decide
  parts_lt := hT.index_lt_of_mem_parts
  shows ht := showsWithin_of_holds hT ht (Nat.lt_succ_self _)
  compares ha hb := comparesWithin_of_holds hT ha hb (Nat.lt_succ_self _)

theorem Grows.preserved (h : T.Grows U) (hT : T.Reachable) (hU : U.Reachable) : T.Preserved U where
  shape ht := by
    obtain ⟨s, hs⟩ := ht.exists_shape?
    rw [hs, h.shape? hs]
  shown ht := ((h.matches hT ht).shown_eq hT hU).symm
  same ha hb := ((h.matches hT ha).same_eq hT hU (h.matches hT hb)).symm

theorem Step.reachable (h : T.Step U) (hT : T.Reachable) : U.Reachable := by
  cases h with
  | pointer target h => exact .pointer hT h
  | function arguments result ha hr => exact .function hT ha hr
  | parse source => exact Program.reachable_of_parse source hT

theorem Step.grows (h : T.Step U) : T.Grows U := by
  cases h with
  | pointer target h => exact grows_enter T _
  | function arguments result ha hr => exact grows_enter T _
  | parse source => exact grows_of_readings (Program.readsSignatures_of_parse source T)

theorem grows_and_reachable_of_steps (h : Relation.ReflTransGen Step T U) :
    T.Grows U ∧ (T.Reachable → U.Reachable) := by
  induction h with
  | refl => exact ⟨.refl T, id⟩
  | tail _ hstep ih =>
    exact ⟨ih.1.trans hstep.grows, fun hT => hstep.reachable (ih.2 hT)⟩

theorem reachable_of_steps (h : Relation.ReflTransGen Step initial T) : T.Reachable :=
  (grows_and_reachable_of_steps h).2 .initial

/-- Every table is as it should be, and all later ones agree with it on its types. Sources enter
types by reading signatures only; one that fails leaves types behind that no other type has as a
part, neither an old one nor any that is read later. -/
theorem intact_and_kept (h : Relation.ReflTransGen Step initial T) :
    T.Intact ∧ (∀ U, Relation.ReflTransGen Step T U → T.Preserved U) ∧
      (∀ source, Relation.ReflTransGen ReadsSignature T (Program.parse source T).2) ∧
      ∀ s d t, s.types = T → Rule.type .full s = .failed d t →
        T.Preserved t.types ∧
          ∀ V, Relation.ReflTransGen ReadsSignature t.types V → T.Unused t.types V := by
  have hT := reachable_of_steps h
  refine ⟨hT.intact, fun U hU => ?_, fun source => Program.readsSignatures_of_parse source T,
    fun s d t hs hfails => ?_⟩
  · obtain ⟨hgrows, hreachable⟩ := grows_and_reachable_of_steps hU
    exact hgrows.preserved hT (hreachable hT)
  · have hreads : T.ReadsSignature t.types := ⟨s, hs, by rw [hfails]; rfl⟩
    exact ⟨hreads.grows.preserved hT (hreads.reachable hT),
      fun V hV x u sh hx hu hu' => within_of_readings hT hreads hV hx hu hu'.1 hu'.2⟩

/-- The argument that was read before the signature broke off stays behind, and is unused. -/
theorem intact_and_kept_of_broken_signature :
    ∃ T, Relation.ReflTransGen Step initial T ∧ T.Intact ∧
      T.Preserved (Program.parse "of [*Int, 1] -> Int fun f(p, q) = p;" T).2 ∧
      ∃ s d t, s.types = T ∧ Rule.type .full s = .failed d t ∧ t.types.size = T.size + 1 ∧
        ∀ V, Relation.ReflTransGen ReadsSignature t.types V → T.Unused t.types V := by
  let T := (initial.pointer string).2
  let s : ParserState := .ofSource "[*Int, 1] -> Int fun f(p, q) = p;" T
  have hT : Relation.ReflTransGen Step initial T := .single (.pointer string (by decide))
  have hread : match Rule.type .full s with
      | .failed _ t => t.types.size = T.size + 1
      | .done _ _ => False := by cbv
  obtain ⟨hintact, hkept, -, hunused⟩ := intact_and_kept hT
  refine ⟨T, hT, hintact, hkept _ (.single (.parse _)), ?_⟩
  split at hread
  next d t hfails => exact ⟨s, d, t, rfl, hfails, hread, (hunused s d t rfl hfails).2⟩
  next => exact hread.elim

end FrontEnd.TypeTable
