import FrontEnd.Proofs.Compilation.Consistent
import FrontEnd.Proofs.Grammar.Enclosure
import FrontEnd.Proofs.Scope.Correspondence

/-! Sources of one declaration each, joined by newlines. Every declaration is read there as it is
read alone, but for its places and the numbers of its types. -/

namespace FrontEnd

/-- The source is a single declaration, and that has a signature. -/
def IsSigned (source : String) : Prop :=
  ∃ d T, Program.parse source .initial = (.ok { decls := [d] }, T) ∧ d.signature.isSome

theorem isSigned_iff {source : String} : IsSigned source ↔
    (Program.parse source .initial).1.map (fun p => p.decls.map fun d => d.signature.isSome) =
      .ok [true] := by
  rw [except_map_eq_ok]
  constructor
  · rintro ⟨d, T, hp, hsigned⟩
    exact ⟨_, congrArg Prod.fst hp, congrArg (fun b => [b]) hsigned⟩
  · rintro ⟨⟨ds, scope⟩, hp, hsigned⟩
    obtain ⟨d, rfl, hd⟩ := List.map_eq_singleton_iff.mp hsigned
    obtain ⟨hscope, -⟩ := Program.reads_of_parse (Prod.ext hp rfl)
    obtain rfl : scope = none := hscope
    exact ⟨d, _, Prod.ext hp rfl, hd⟩

theorem keepsOrder_below (a : String) : KeepsOrder fun p p' => p' = p.below a := by
  rintro p _ q _ rfl rfl
  simp only [Position.lt_def, Position.below, Position.shift]
  omega

section Reading

variable {T T' : TypeTable} {d d' : Decl}

/-- A declaration without scopes that is like another one, with types that are found again. -/
theorem Node.Like.readAlike {R : Position → Position → Prop} {M : TypeId → TypeId → Prop}
    (hR : KeepsOrder R) (hM : ∀ t t', T.Holds t → M t t' → T.Matches T' t t')
    (hd : (Node.decl d).Everywhere (Node.Refers (·.scope = none) T)) (h : d.Like R M d') :
    d.ReadAlike T T' d' := by
  have hself : (Correspondence.unscoped Eq fun t u => t = u ∧ T.Holds t).Reflects
      (·.scope = none) T := by
    refine ⟨fun _ => rfl, fun s hs => ?_, fun t ht => ⟨rfl, ht⟩⟩
    rw [hs]
    exact .none
  have hcomposes : (Correspondence.unscoped Eq fun t u => t = u ∧ T.Holds t).Composes
      (.sameScopes R M) (.unscoped R (T.Matches T')) := by
    refine ⟨?_, fun _ _ _ hc _ => hc.elim, ?_⟩
    · rintro p _ r rfl hr
      exact hr
    · rintro t _ v ⟨rfl, ht⟩ hv
      exact hM t v ht hv
  exact ⟨R, hR, (hself.hereditary_corresponds.decl d hd).trans hcomposes h.corresponds⟩

theorem Decl.readAlike_of_grows (hT : T.Reachable) (hgrows : T.Grows T')
    (hd : (Node.decl d).Everywhere (Node.Refers (·.scope = none) T)) : d.ReadAlike T T' d := by
  have hself : (Correspondence.unscoped Eq (T.Matches T')).Reflects (·.scope = none) T := by
    refine ⟨fun _ => rfl, fun s hs => ?_, fun t ht => hgrows.matches hT ht⟩
    rw [hs]
    exact .none
  exact ⟨Eq, .eq, hself.hereditary_corresponds.decl d hd⟩

end Reading

/-- The declaration of a program with the types `T` that the source alone is read as. -/
def Decl.IsReadFrom (T : TypeTable) (source : String) (d : Decl) : Prop :=
  ∃ d₀ T₀, Program.parse source .initial = (.ok { decls := [d₀] }, T₀) ∧ d₀.signature.isSome ∧
    d₀.ReadAlike T₀ T d

namespace Program

variable {source : String} {T : TypeTable}

theorem reachable_of_parse_initial {r : Except (List Diagnostic) Program}
    (h : parse source .initial = (r, T)) : T.Reachable := by
  have hT := reachable_of_parse source .initial
  rwa [h] at hT

theorem refers_of_parse {p : Program} {d : Decl} (hp : parse source .initial = (.ok p, T))
    (hd : d ∈ p.decls) : (Node.decl d).Everywhere (Node.Refers (·.scope = none) T) := by
  obtain ⟨-, hreads, -, hT⟩ := reads_of_parse hp
  have hdecls := hreads.refers (hT .initial)
  intro a ha
  exact hdecls a (List.mem_flatMap.mpr ⟨d, hd, ha⟩)

/-- Behind a chunk the declarations of a source are read from the same tokens. -/
theorem readAlike_below {a b : String} {U : TypeTable} {n : Nat} {p : Program} {ds : List Decl}
    (hp : parse b .initial = (.ok p, T)) (hshifted : T.Shifted TypeTable.initial.size n U)
    (h : Node.Like (fun p p' => p' = p.below a)
      (fun t t' => t' = t.shift TypeTable.initial.size n) (.decls p.decls) (.decls ds)) :
    List.Forall₂ (Decl.ReadAlike T U) p.decls ds := by
  have hrefers := fun d hd => refers_of_parse (d := d) hp hd
  generalize p.decls = qs at h hrefers
  induction qs generalizing ds with
  | nil => cases h; exact .nil
  | cons q qs ih =>
    cases h with
    | moreDecls hd hds =>
      obtain ⟨hq, hqs⟩ := List.forall_mem_cons.mp hrefers
      refine .cons (hd.readAlike (keepsOrder_below a) ?_ hq) (ih hds hqs)
      rintro t _ ht rfl
      exact hshifted.matches ht

theorem exists_parse_joined {sources : List String} (h : ∀ s ∈ sources, IsSigned s) :
    ∃ ds T, parse ("\n".intercalate sources) .initial = (.ok { decls := ds }, T) ∧
      List.Forall₂ (Decl.IsReadFrom T) sources ds := by
  induction sources with
  | nil =>
    have hempty : parse "" .initial = (.ok { decls := [] }, .initial) := by cbv
    exact ⟨[], _, hempty, .nil⟩
  | cons s rest ih =>
    obtain ⟨⟨d, T, hs, hsigned⟩, hrest⟩ := List.forall_mem_cons.mp h
    have hT := reachable_of_parse_initial hs
    have hd := refers_of_parse hs (List.mem_singleton_self d)
    cases rest with
    | nil =>
      rw [String.intercalate_singleton]
      exact ⟨[d], T, hs, .cons ⟨d, T, hs, hsigned, d.readAlike_of_grows hT (.refl T) hd⟩ .nil⟩
    | cons t rest =>
      obtain ⟨ds, U, hb, hds⟩ := ih hrest
      rw [String.intercalate_cons_cons]
      obtain ⟨-, hdecls, hgrows, hshifted⟩ := readsBelow_of_isChunk (isChunk_of_decls hs rfl)
        ("\n".intercalate (t :: rest)) .initial
      obtain ⟨ds', hparsed, hlike⟩ := hdecls _ _ (congrArg Prod.fst hs) (congrArg Prod.fst hb)
      rw [hs] at hlike hgrows hshifted
      rw [hb] at hshifted
      refine ⟨d :: ds', _, Prod.ext hparsed rfl, .cons ⟨d, T, hs, hsigned, ?_⟩ ?_⟩
      · exact d.readAlike_of_grows hT hgrows hd
      · refine forall₂_comp ?_ hds (readAlike_below hb hshifted hlike)
        rintro u e e' ⟨d₀, T₀, hu, hsig, he⟩ he'
        exact ⟨d₀, T₀, hu, hsig, he.trans (reachable_of_parse_initial hu) he'⟩

end Program

end FrontEnd
