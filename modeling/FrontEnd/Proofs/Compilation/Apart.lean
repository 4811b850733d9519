import FrontEnd.Proofs.Compilation.Consistent
import FrontEnd.Proofs.Compilation.Preconditions

/-! Types that are reported as different. Every comparison of types in a compilation is one within
the table of that compilation, where equal types and types that are shown alike are the same. -/

namespace FrontEnd

theorem Fault.tellsApart_of_isSyntactic {f : Fault} (h : f.isSyntactic = true) : f.TellsApart := by
  refine tellsApart_of_none ?_
  cases f <;> first | rfl | exact nomatch h

theorem compile_tellsApart (source : String) :
    FailsOnly (fun ds => ∀ d ∈ ds, d.fault.TellsApart) (compile source) := by
  unfold compile
  split
  next ds T hp =>
    have hds : (Program.parse source .initial).1 = .error ds := by rw [hp]
    exact .error fun d hd =>
      Fault.tellsApart_of_isSyntactic (Program.isSyntactic_of_parse hds hd)
  next p T hp =>
    obtain ⟨-, hreads, -, hT⟩ := Program.reads_of_parse hp
    refine Program.analyse_failsOnly hreads (fun d n hn => ?_) (fun d n hn => ?_) ?_
    · exact Fault.tellsApart_of_none (hn ▸ rfl)
    · exact Fault.tellsApart_of_none (hn ▸ rfl)
    · intro q S c hq _ _
      obtain ⟨root, -, hleads⟩ := Program.leads_of_parse hp
      rw [hq] at hleads
      have hscoped := Program.scoped_of_reads hreads hq
      exact (Program.discerns_annotate (hT .initial) hleads.ready.closed
        (Program.refers_of_scoped hscoped hleads.nodes)).2

/-- Equality of types, their texts and their trees say the same in every table that a program can
come to have; and no source is refused with a fault that shows one text for two different types. -/
theorem types_told_apart :
    (∀ T : TypeTable, T.Reachable → T.EqualityAgrees) ∧
      ∀ source ds, compile source = .error ds → ∀ d ∈ ds, d.fault.TellsApart :=
  ⟨fun _ hT => hT.equalityAgrees, compile_tellsApart⟩

/-- Two pointer types that were entered one after the other, and a variable whose signature is one.
-/
theorem types_told_apart_of_pointers :
    (∃ T : TypeTable, T.shape? ⟨4⟩ = some (.pointer TypeTable.int) ∧
      T.shape? ⟨5⟩ = some (.pointer TypeTable.int) ∧ T.EqualityAgrees) ∧
      ∃ d, compile "of *Int var x = 1;" = .error [d] ∧ d.fault = .initialType "*Int" "Int" ∧
        d.fault.TellsApart := by
  have hcompile : compile "of *Int var x = 1;" =
      .error [⟨.initialType "*Int" "Int", ⟨16, 0, 16⟩⟩] := by cbv
  constructor
  · have hone := TypeTable.Reachable.initial.pointer (t := TypeTable.int) (by decide)
    have htwo := hone.pointer (t := TypeTable.int) (by decide)
    exact ⟨_, rfl, rfl, types_told_apart.1 _ htwo⟩
  · exact ⟨_, hcompile, rfl, types_told_apart.2 _ _ hcompile _ (List.mem_singleton_self _)⟩

end FrontEnd
