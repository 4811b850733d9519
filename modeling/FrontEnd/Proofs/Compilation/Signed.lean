import Mathlib
import FrontEnd.Proofs.Compilation.Consistent
import FrontEnd.Proofs.Compilation.Rearranged
import FrontEnd.Proofs.Grammar.Signable
import FrontEnd.Proofs.Grammar.Signed
import FrontEnd.Proofs.Syntax.Marks
import FrontEnd.Proofs.Typing.Signing
import FrontEnd.Proofs.Typing.Unsigned

/-! Writing an inferred type down. With the type of its initial value as its signature a variable is
accepted as it was without, and no expression of the program changes its type. -/

namespace FrontEnd

section Stages

variable {R : Position → Position → Prop} {M : TypeId → TypeId → Prop} {T T' : TypeTable}
  {S : ScopeTree} {p p' : Program} {ds₁ ds₂ : List Decl} {r : Annotating} {w w' : List Token}
  {c : Compilation}

theorem Program.exists_analyse_of_annotateAll
    (hds : Decl.stampAll T ⟨0⟩ true p.decls .start = (ds₁, { tree := S }))
    (hchecked : ∀ d₁ ∈ ds₁, d₁.checkNames S [] = .ok ())
    (htyped : Decl.annotateAll none ds₁ { context := { scopes := S, types := T } } = (ds₂, r))
    (hr : r.failure = none) :
    ∃ c, p.analyse T = .ok c ∧ c.program.decls = ds₂ :=
  ⟨_, Program.analyse_eq hds hchecked htyped hr, rfl⟩

theorem Correspondence.counting_sameScopes : (sameScopes R M).Counting where
  root := rfl
  scope_succ _ h := congrArg (fun c : ScopeId => ScopeId.mk (c.index + 1)) h
  scope_unique := by
    rintro _ _ _ _ rfl rfl
    rfl
  symbol_succ h := congrArg (fun s : SymbolId => SymbolId.mk (s.index + 1)) h
  symbol_unique := by
    rintro _ _ _ _ rfl rfl
    rfl

theorem Stamping.parallel_start :
    start.Parallel (Correspondence.sameScopes R M) (fun _ _ => True) start where
  held := ScopeTree.holds_push _ _ _
  scopes := rfl
  symbols := rfl
  scope? := by
    rintro c _ rfl
    by_cases hc : c = (ScopeTree.empty.push .origin none).1
    · rw [hc, start, ScopeTree.scope?_push_self]
      exact .some ⟨.none, fun _ _ => .none⟩
    · rw [start, ScopeTree.scope?_push_of_ne hc]
      exact .none
  symbol? := by
    rintro s _ rfl
    exact .none
  failure := rfl

/-- If one of two programs that differ in their places and in the numbers of their types is
accepted, so is the other one, with types that match. -/
theorem Program.exists_analyse_of_like (hR : KeepsOrder R) (hT : T.Reachable) (hT' : T'.Reachable)
    (hp : Reads T w (.decls p.decls)) (hp' : Reads T' w' (.decls p'.decls))
    (hlike : (Node.decls p.decls).Like R (T.Matches T') (.decls p'.decls))
    (hc : p.analyse T = .ok c) : ∃ c', p'.analyse T' = .ok c' ∧
      (Node.decls c.program.decls).Like R (T.Matches T') (.decls c'.program.decls) := by
  obtain ⟨ds, q, hpasses⟩ := Program.exists_passes hc
  have hcounting : (Correspondence.sameScopes R (T.Matches T')).Counting :=
    Correspondence.counting_sameScopes
  have htables : (Correspondence.sameScopes R (T.Matches T')).Tables T T' :=
    Correspondence.tables_of_matches hT hT' rfl
  obtain ⟨⟨ds', r'⟩, hds'⟩ : ∃ x, x = Decl.stampAll T' ⟨0⟩ true p'.decls .start := ⟨_, rfl⟩
  obtain ⟨hstamped, hparallel⟩ := hlike.corresponds.stamp hcounting htables
    (fun _ _ _ => trivial) (c := ⟨0⟩) rfl (fun _ => trivial) true Stamping.parallel_start
  simp only [Node.stamp, hpasses.stamped, ← hds'] at hstamped hparallel
  obtain ⟨S', failure⟩ := r'
  obtain rfl : failure = none := by
    cases failure with
    | none => rfl
    | some => cases hparallel.failure
  obtain ⟨_, hrooted⟩ := Program.exists_rooted hp (Program.buildScopes_eq hpasses.stamped)
  obtain ⟨_, hrooted'⟩ := Program.exists_rooted hp' (Program.buildScopes_eq hds'.symm)
  have htrees := (hparallel.scopes_of_watched hcounting hR hrooted.wellFormed
    hrooted'.wellFormed).trees
  have hchecked : ∀ d ∈ ds', d.checkNames S' [] = .ok () := by
    have hnames := hstamped.checkNames htrees (P := []) .nil
    have hforM : ds.forM (Decl.checkNames c.scopes []) = .ok () := forM_eq_ok.mpr hpasses.checked
    simp only [Node.checkNames, hforM] at hnames
    exact forM_eq_ok.mp hnames.eq_ok
  have hruns : (Correspondence.sameScopes R (T.Matches T')).Runs
      { context := { scopes := c.scopes, types := T } }
      { context := { scopes := S', types := T' } } :=
    ⟨⟨htrees, htables, fun _ _ => .none⟩, .none⟩
  have houtside : Option.Rel (T.Matches T') none none := .none
  obtain ⟨htyped, hdone⟩ := hstamped.annotate houtside hruns
  simp only [Node.annotate, hpasses.typed] at htyped hdone
  have hfailure := hdone.failure
  rw [hpasses.working] at hfailure
  obtain ⟨c', hc', hdecls⟩ := Program.exists_analyse_of_annotateAll hds'.symm hchecked rfl
    (eq_none_of_rel hfailure)
  exact ⟨c', hc', hdecls ▸ htyped.like⟩

/-- A program is accepted with a signature for a variable if the signature is the type of the
initial value. -/
theorem Program.exists_analyse_sign {q : Position} {t : TypeId} (hT : T.Reachable)
    (hp : Reads T w (.decls p.decls)) (ht : T.Holds t) (hc : p.analyse T = .ok c)
    (hinfers : (Node.decls c.program.decls).Everywhere (Node.InfersAt q t)) :
    ∃ c', (p.sign q t).analyse T = .ok c' ∧ c'.program.decls = (c.program.sign q t).decls := by
  obtain ⟨ds, r, hpasses⟩ := Program.exists_passes hc
  obtain ⟨⟨ds', S', failure⟩, hds'⟩ : ∃ x, x = Decl.stampAll T ⟨0⟩ true (p.sign q t).decls .start :=
    ⟨_, rfl⟩
  have hstamped := Decl.stampAll_sign q t T ⟨0⟩ true p.decls (.refl .start)
  rw [hpasses.stamped, show p.decls.map (Decl.sign q t) = (p.sign q t).decls from rfl, ← hds']
    at hstamped
  obtain ⟨rfl, hsigns, hfailure⟩ := hstamped
  obtain rfl : failure = none := hfailure
  have hchecked : ∀ d ∈ ds.map (Decl.sign q t), d.checkNames S' [] = .ok () := by
    intro d' hd'
    obtain ⟨d, hd, rfl⟩ := List.mem_map.mp hd'
    rw [Decl.checkNames_sign hsigns]
    exact hpasses.checked d hd
  -- in the scopes of the signed program its variables have their signatures
  obtain ⟨u, hu⟩ := hT.exists_reads ht
  obtain ⟨v, hv⟩ := Reads.exists_sign (q := q) hp hu
  obtain ⟨_, hrooted⟩ := Program.exists_rooted (p := p.sign q t) hv
    (Program.buildScopes_eq hds'.symm)
  have hannotated := Node.annotatesSigned_decls q t S' ds none (.start hsigns T)
  simp only [Node.annotate, hpasses.typed] at hannotated
  obtain ⟨htyped, hdone⟩ := hannotated hpasses.working hrooted.placed.owned hinfers
  obtain ⟨c', hc', hdecls⟩ := Program.exists_analyse_of_annotateAll hds'.symm hchecked rfl
    hdone.failure
  exact ⟨c', hc', hdecls.trans (Node.decls.inj htyped)⟩

/-- The passes leave the variables without a signature where they are. -/
theorem Program.Passes.unsignedAt (h : p.Passes T ds₁ r c) (q : Position) :
    (Node.decls c.program.decls).unsignedAt q = (Node.decls p.decls).unsignedAt q := by
  have htyped := Decl.unsignedAt_annotateAll q none ds₁
    { context := { scopes := c.scopes, types := T } }
  have hstamped := Decl.unstamped_stampAll T ⟨0⟩ true p.decls .start
  rw [h.typed] at htyped
  rw [h.stamped] at hstamped
  rw [htyped, ← Decl.unsignedAt_unstamped q ds₁, hstamped, Decl.unsignedAt_unstamped]

end Stages

section Sources

variable {source : String} {c : Compilation} {q : Position} {s : Site} {n : Token} {e : Expr}
  {p : Position}

theorem exists_parse_of_compile (h : compile source = .ok c) :
    ∃ p, Program.parse source .initial = (.ok p, c.types) ∧ p.analyse c.types = .ok c := by
  unfold compile at h
  split at h
  next => exact nomatch h
  next p T hp =>
    obtain ⟨_, _, hpasses⟩ := Program.exists_passes h
    obtain rfl := hpasses.types
    exact ⟨p, hp, h⟩

theorem eq_of_countP_le_one {α : Type} {l : List α} {f : α → Bool} (h : l.countP f ≤ 1) {a b : α}
    (ha : a ∈ l) (hb : b ∈ l) (hfa : f a = true) (hfb : f b = true) : a = b := by
  have hma := List.mem_filter.mpr ⟨ha, hfa⟩
  have hmb := List.mem_filter.mpr ⟨hb, hfb⟩
  rw [List.countP_eq_length_filter] at h
  match hl : l.filter f, h with
  | [], _ => simp [hl] at hma
  | [x], _ =>
    rw [hl, List.mem_singleton] at hma hmb
    rw [hma, hmb]

theorem Ascending.countP_place_le {w : List Token} (h : Ascending w) (q : Position) :
    w.countP (fun k => k.place = q) ≤ 1 := by
  have hcount := List.nodup_iff_count_le_one.mp h.nodup_places q
  rw [List.count, List.countP_map] at hcount
  exact hcount

/-- The initial value of the variable is typed with a type of the table. -/
theorem Compilation.Consistent.initial {g : Option TypeId} (h : c.Consistent)
    (hd : .decl (.var s n g e p) ∈ c.program.nodes) : ∃ t, e.type = some t ∧ c.types.Holds t := by
  obtain ⟨d, hdecl, hmem⟩ := List.mem_flatMap.mp hd
  have hinner : .expr e ∈ (Node.decl (.var s n g e p)).nodes :=
    List.mem_append_left _ e.mem_nodes
  have hnode : .expr e ∈ c.program.nodes :=
    List.mem_flatMap.mpr ⟨d, hdecl, (Node.hereditary_embeds.decl d _ hmem).1 hinner⟩
  obtain ⟨t, ht⟩ := Option.isSome_iff_exists.mp (h.typed hnode)
  exact ⟨t, ht, (h.nodes _ hnode).2 t ht⟩

/-- An inferred type is as good as a written one. With the signature in front of the variable the
text is accepted, too. Its program is the old one with the variable signed: the places are in the
same order, and every expression has a type that matches the one it had. -/
theorem compile_signed (hc : compile source = .ok c)
    (hd : .decl (.var s n none e p) ∈ c.program.nodes) :
    ∃ t source' c', e.type = some t ∧
      insertAt? source s.place.offset ("of " ++ c.types.shown t ++ " ") = some source' ∧
      compile source' = .ok c' ∧ ∃ R, KeepsOrder R ∧
        (Node.decls (c.program.sign s.place t).decls).Like R (c.types.Matches c'.types)
          (.decls c'.program.decls) := by
  obtain ⟨t, ht, hheld⟩ := ((ids_in_range source).compiled hc).initial hd
  obtain ⟨p₀, hparse, hanalyse⟩ := exists_parse_of_compile hc
  obtain ⟨-, hreads, -, hreachable⟩ := Program.reads_of_parse hparse
  have hT := hreachable .initial
  obtain ⟨ds, r, hpasses⟩ := Program.exists_passes hanalyse
  have hposition := hpasses.unsignedAt s.place
  -- no other variable without a signature stands there
  have hone : c.program.nodes.countP (Node.isUnsignedAt s.place) ≤ 1 := by
    have hascending := (Ascending.tokenize source).sublist (List.dropLast_sublist _)
    exact hposition.trans_le ((hreads.unsignedAt_le _).trans (hascending.countP_place_le _))
  have hinfers : (Node.decls c.program.decls).Everywhere (Node.InfersAt s.place t) := by
    intro b hb
    unfold Node.InfersAt
    split
    next s' n' e' p' =>
      intro hq
      have hother := Node.isUnsignedAt_iff.mpr ⟨s', n', e', p', rfl, hq⟩
      have hself := Node.isUnsignedAt_iff.mpr ⟨s, n, e, p, rfl, rfl⟩
      cases eq_of_countP_le_one hone hb hd hother hself
      exact ht
    next => trivial
  have hunsigned : 0 < (Node.decls p₀.decls).unsignedAt s.place := by
    rw [← hposition]
    exact List.countP_pos_iff.mpr ⟨_, hd, Node.isUnsignedAt_iff.mpr ⟨s, n, e, p, rfl, rfl⟩⟩
  obtain ⟨u, k, v, htokens, hkind, hplace, -⟩ := hreads.beginsAt hunsigned
  have hk : k ∈ tokenize source := List.dropLast_subset _ (htokens ▸ by simp)
  obtain ⟨source', hinsert, P, rfl⟩ := exists_signaturePut hk hkind c.types t
  rw [hplace] at hinsert
  rw [← hplace] at hunsigned hinfers ⊢
  obtain ⟨p', T', hparse', R, hR, hlike⟩ :=
    Program.exists_parse_signed hparse hheld P hunsigned
  obtain ⟨-, hreads', -, hreachable'⟩ := Program.reads_of_parse hparse'
  obtain ⟨x, hx⟩ := hT.exists_reads hheld
  obtain ⟨y, hy⟩ := Reads.exists_sign (q := P.word.place) hreads hx
  obtain ⟨c₁, hc₁, hdecls⟩ := Program.exists_analyse_sign hT hreads hheld hanalyse hinfers
  obtain ⟨c', hc', hlike'⟩ := Program.exists_analyse_of_like hR hT (hreachable' .initial) hy
    hreads' hlike hc₁
  obtain ⟨_, _, hpasses'⟩ := Program.exists_passes hc'
  rw [hdecls, ← hpasses'.types] at hlike'
  exact ⟨t, source', c', ht, hplace ▸ hinsert, (compile_of_parse hparse').trans hc', R, hR, hlike'⟩

/-- A variable that stands for a function and is called. -/
theorem compile_signed_of_function : ∃ c s n e p,
    compile "of [Int] -> Int fun f(n) = \x7b var g = f; var m = g(n); return m; \x7d;" = .ok c ∧
    .decl (.var s n none e p) ∈ c.program.nodes ∧ s.place.offset = 29 ∧ ∃ t source' c',
      e.type = some t ∧
      insertAt? "of [Int] -> Int fun f(n) = \x7b var g = f; var m = g(n); return m; \x7d;"
        s.place.offset ("of " ++ c.types.shown t ++ " ") = some source' ∧
      compile source' = .ok c' ∧ ∃ R, KeepsOrder R ∧
        (Node.decls (c.program.sign s.place t).decls).Like R (c.types.Matches c'.types)
          (.decls c'.program.decls) := by
  have h : (compile
      "of [Int] -> Int fun f(n) = \x7b var g = f; var m = g(n); return m; \x7d;").map
        (fun c => c.program.nodes.any (Node.isUnsignedAt ⟨29, 0, 29⟩)) = .ok true := by cbv
  obtain ⟨c, hc, hany⟩ := except_map_eq_ok.mp h
  obtain ⟨b, hb, hunsigned⟩ := List.any_eq_true.mp hany
  obtain ⟨s, n, e, p, rfl, hplace⟩ := Node.isUnsignedAt_iff.mp hunsigned
  exact ⟨c, s, n, e, p, hc, hb, congrArg Position.offset hplace, compile_signed hc hb⟩

end Sources

end FrontEnd
