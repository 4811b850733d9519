import FrontEnd.Proofs.Grammar.Entering
import FrontEnd.Proofs.Token.Showing

/-! A type that is shown is read back as a type that is built alike, into whatever table it is
entered; and what is read is shown as it would be written. -/

namespace FrontEnd.Rule

variable {T U : TypeTable} {t : TypeId}

theorem letters_ofSource_shown (T : TypeTable) (t : TypeId) (U : TypeTable) :
    (ParserState.ofSource (T.shown t) U).letters = T.letters t := by
  have hlexes : Lexes (T.shown t).toList (T.letters t) := T.lexes_shownWithin _ t
  simp only [ParserState.letters, ParserState.ofSource, ParserState.ofTokens, List.map_dropLast,
    hlexes.map_letter_tokenize, List.dropLast_concat]

theorem exists_type_shown (hT : T.Reachable) (ht : T.Holds t) (hU : U.Reachable) :
    ∃ u s, type .full (.ofSource (T.shown t) U) = .done u s ∧ s.tokens = [] ∧ U.Grows s.types ∧
      T.Matches s.types t u := by
  have hletters := letters_ofSource_shown T t U
  rw [← List.append_nil (T.letters t)] at hletters
  have hread : RebuildsFrom U (typeWithin .full _) (T.letters t) [] fun V u => T.Matches V t u :=
    typeWithin_rebuilds hT hU.grows_initial (Nat.lt_succ_self _) ht
      (ParserState.length_le_of_letters hletters)
  obtain ⟨u, s, hu, hs, hgrows, -, hmatches⟩ := hread _ hletters (.refl U)
  exact ⟨u, s, hu, List.map_eq_nil_iff.mp hs, hgrows, hmatches⟩

/-- A type read from any state is in the table that is left behind. -/
theorem holds_of_type {s s' : ParserState} (hs : s.types.Reachable)
    (h : type .full s = .done t s') : s'.types.Reachable ∧ s'.types.Holds t := by
  have hs' := (Entering.pervasive.type .full).reachable_of_done hs h
  obtain ⟨w, -, hreads⟩ := type_yields h
  exact ⟨hs', hreads.index_lt hs'⟩

/-- The text of a type is read whole, into the table of the type and without a change to what stands
there, as an equal type. A type that is read from any source is shown as a text that is read, into
any table, as a type that is shown alike. -/
theorem type_ofSource_shown :
    (∀ T t, TypeTable.Reachable T → T.Holds t →
      ∃ u s, type .full (.ofSource (T.shown t) T) = .done u s ∧ s.tokens = [] ∧
        T.Grows s.types ∧ s.types.same t u = true) ∧
    ∀ source T t s, TypeTable.Reachable T → type .full (.ofSource source T) = .done t s →
      ∀ U, TypeTable.Reachable U →
        ∃ u s', type .full (.ofSource (s.types.shown t) U) = .done u s' ∧ s'.tokens = [] ∧
          U.Grows s'.types ∧ s'.types.shown u = s.types.shown t := by
  constructor
  · intro T t hT ht
    obtain ⟨u, s, hu, hs, hgrows, hmatches⟩ := exists_type_shown hT ht hT
    exact ⟨u, s, hu, hs, hgrows, hmatches.same hT hgrows⟩
  · intro source T t s hT h U hU
    obtain ⟨hs, ht⟩ := holds_of_type (s := .ofSource source T) hT h
    obtain ⟨u, s', hu, hs', hgrows, hmatches⟩ := exists_type_shown hs ht hU
    obtain ⟨hreachable, -⟩ := holds_of_type (s := .ofSource (s.types.shown t) U) hU hu
    exact ⟨u, s', hu, hs', hgrows, (hmatches.shown_eq hs hreachable).symm⟩

/-- A pointer that is in the table, and a pointer to a function that is read over two lines. -/
theorem type_ofSource_shown_of_pointer :
    ∃ T, TypeTable.Reachable T ∧ T.Holds ⟨4⟩ ∧
      (∃ u s, type .full (.ofSource "*Bool" T) = .done u s ∧ s.tokens = [] ∧ T.Grows s.types ∧
        s.types.same ⟨4⟩ u = true) ∧
      ∃ t s, type .full (.ofSource "*[Int,Unit]-> # none\n *Bool" T) = .done t s ∧
        ∃ u s', type .full (.ofSource "*[Int, Unit] -> *Bool" T) = .done u s' ∧ s'.tokens = [] ∧
          T.Grows s'.types ∧ s'.types.shown u = "*[Int, Unit] -> *Bool" := by
  let T := (TypeTable.initial.pointer TypeTable.bool).2
  have hT : T.Reachable := .pointer .initial (by decide)
  have hshown : T.shown ⟨4⟩ = "*Bool" := by decide +kernel
  have hread : match type .full (.ofSource "*[Int,Unit]-> # none\n *Bool" T) with
      | .done t s => s.types.shown t = "*[Int, Unit] -> *Bool"
      | .failed _ _ => False := by cbv
  refine ⟨T, hT, by decide, ?_, ?_⟩
  · rw [← hshown]
    exact type_ofSource_shown.1 T ⟨4⟩ hT (by decide)
  · split at hread
    next t s ht =>
      have hagain := type_ofSource_shown.2 _ T t s hT ht T hT
      rw [hread] at hagain
      exact ⟨t, s, ht, hagain⟩
    next => exact hread.elim

end FrontEnd.Rule
