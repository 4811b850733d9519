import Mathlib
import FrontEnd.Proofs.Compilation.Rearranged
import FrontEnd.Proofs.Compilation.Relayout
import FrontEnd.Proofs.Compilation.Signed
import FrontEnd.Proofs.Grammar.Carrying
import FrontEnd.Proofs.Scope.Mentions
import FrontEnd.Proofs.Syntax.Rewording
import FrontEnd.Proofs.Typing.Respelling

/-! A symbol under another name. Where its name is replaced at its declaration and at the uses that
mean it, the text is accepted as before, and every name means what it meant. -/

namespace FrontEnd

/-- The tokens of the program with the name `n` where it mentions the symbol `s`. -/
def Compilation.respell (s : SymbolId) (n : String) (c : Compilation) : Token → Token :=
  Token.respell (c.program.placesOf c.scopes s) (c.scopes.nameOf s) n

/-- The compilation with the name `n` for the symbol `s`, in its scopes and wherever the program
mentions the symbol. -/
def Compilation.rename (s : SymbolId) (n : String) (c : Compilation) : Compilation where
  program := c.program.map (.ofToken (c.respell s n))
  types := c.types
  scopes := c.scopes.rename s n

theorem Token.rewords_respell (places : List Position) (old n : String) :
    Rewords old n (Token.respell places old n) := by
  intro k
  unfold Token.respell
  split
  next h => exact .inr ⟨h.1, rfl⟩
  next => exact .inl rfl

section Stages

variable {T : TypeTable} {p : Program} {w : List Token} {c : Compilation} {s : SymbolId}
  {n : String} {ds : List Decl} {r : Annotating}

theorem Stamping.rename_start (s : SymbolId) (n : String) : start.rename s n = start := by
  have hempty : ScopeTree.empty.rename s n = .empty := by
    simp [ScopeTree.rename, ScopeTree.empty]
  have hpush := congrArg Prod.snd (ScopeTree.empty.push_rename s n .origin none)
  rw [hempty] at hpush
  exact congrArg (Stamping.mk · none) hpush.symm

theorem Stamping.wellNamed_start : start.tree.WellNamed :=
  (ScopeTree.extends_push _ _ _).wellNamed ScopeTree.wellNamed_empty

theorem Program.Passes.wellNamed (h : p.Passes T ds r c) : c.scopes.WellNamed := by
  have hextends := Decl.extends_stampAll T ⟨0⟩ true p.decls .start
  rw [h.stamped] at hextends
  exact hextends.wellNamed Stamping.wellNamed_start

theorem Program.Passes.scoped (h : p.Passes T ds r c) (hp : Reads T w (.decls p.decls)) :
    p.Scoped T w ⟨ds, some ⟨0⟩⟩ c.scopes :=
  scoped_of_reads hp (Program.buildScopes_eq h.stamped)

theorem Program.Passes.program_eq (h : p.Passes T ds r c) (hc : p.analyse T = .ok c) :
    c.program = ((⟨ds, some ⟨0⟩⟩ : Program).annotate c.scopes T).1 := by
  have hself := congrArg Compilation.program (Except.ok.inj (hc.symm.trans h.analyse_eq))
  rw [hself, Program.annotate, h.typed]

theorem Program.Passes.mentions_eq (h : p.Passes T ds r c) (hc : p.analyse T = .ok c) :
    c.program.mentions = (⟨ds, some ⟨0⟩⟩ : Program).mentions := by
  rw [h.program_eq hc, mentions_annotate]

theorem Program.Passes.placesOf_eq (h : p.Passes T ds r c) (hc : p.analyse T = .ok c)
    (s : SymbolId) : c.program.placesOf c.scopes s =
      (⟨ds, some ⟨0⟩⟩ : Program).placesOf c.scopes s := by
  rw [placesOf, placesOf, h.mentions_eq hc]

variable (hp : Reads T w (.decls p.decls)) (hw : (w.map Token.place).Nodup)
  (hc : p.analyse T = .ok c)
include hp hw hc

theorem Program.exists_name_of_placesOf {a : Symbol} (ha : c.scopes.symbol? s = some a)
    {q : Position} (hq : q ∈ c.program.placesOf c.scopes s) :
    ∃ t ∈ w, t.place = q ∧ t.kind = .identifier ∧ t.text = a.name := by
  obtain ⟨ds, r, hpasses⟩ := Program.exists_passes hc
  have hscoped := hpasses.scoped hp
  obtain ⟨m, hm, rfl⟩ := List.mem_map.mp hq
  obtain ⟨hm, hmeans⟩ := List.mem_filter.mp hm
  rw [hpasses.mentions_eq hc] at hm
  obtain ⟨hkind, hmem⟩ := hscoped.of_mention hm
  have htext := hscoped.text_of_means hw hpasses.wellNamed hm (of_decide_eq_true hmeans)
  exact ⟨m.name, hmem, rfl, hkind, htext.trans (ScopeTree.nameOf_eq ha)⟩

variable (hn : ∀ k ∈ w, k.kind = .identifier → k.text ≠ n)
  (hnames : ∀ k ∈ w, k.kind = .identifier → k.text ≠ "")
include hn hnames

theorem Program.means_renamed {m : Mention} (hm : m ∈ c.program.mentions) (i : SymbolId) :
    (m.map (c.respell s n)).Means (c.scopes.rename s n) i ↔ m.Means c.scopes i := by
  obtain ⟨ds, r, hpasses⟩ := Program.exists_passes hc
  rw [hpasses.mentions_eq hc] at hm
  rw [Compilation.respell, hpasses.placesOf_eq hc s]
  exact (hpasses.scoped hp).means_respelled hw hpasses.wellNamed hn hnames hm i

/-- The program with its tokens respelled is accepted, in the scopes with the new name. -/
theorem Program.analyse_renamed :
    (p.map (.ofToken (c.respell s n))).analyse T = .ok (c.rename s n) := by
  obtain ⟨ds, r, hpasses⟩ := Program.exists_passes hc
  have hscoped := hpasses.scoped hp
  have hf := hscoped.respells hw hpasses.wellNamed hn hnames (s := s)
  have hkeeps := hscoped.keepsMeaning hw hpasses.wellNamed hn hnames (s := s)
  rw [← hpasses.placesOf_eq hc s] at hf hkeeps
  have hscope : c.program.scope = some ⟨0⟩ := congrArg Program.scope (hpasses.program_eq hc)
  unfold Compilation.rename Program.map
  rw [hscope, hpasses.types, Compilation.respell]
  generalize Token.respell (c.program.placesOf c.scopes s) _ n = f at hf hkeeps
  have hwithin : c.scopes.Within c.scopes := fun _ _ ha => ha
  have hstamped := Decl.stampAll_respelled hf T ⟨0⟩ true p.decls (r := .start)
    Stamping.wellNamed_start (by rw [hpasses.stamped]) (by rw [hpasses.stamped]; exact hwithin)
  rw [hpasses.stamped, Stamping.rename_start] at hstamped
  have htyped := Node.annotatesRespelled_decls hf.toRelabels
    (ScopeTree.sameSymbols_rename c.scopes s n) ds none
    { context := { scopes := c.scopes, types := T } } rfl
  simp only [Node.annotate, Node.map, Node.decls.injEq, hpasses.typed] at htyped
  obtain ⟨hdecls, hdone, -⟩ := htyped hpasses.working hkeeps
  refine Program.analyse_eq (q := r.inScopes (c.scopes.rename s n)) hstamped (fun d' hd' => ?_)
    (Prod.ext hdecls hdone) hpasses.working
  obtain ⟨d, hd, rfl⟩ := List.mem_map.mp hd'
  have hnode : (Node.decl d).Everywhere (Node.KeepsMeaning c.scopes (c.scopes.rename s n) f) :=
    fun b hb => hkeeps b (List.mem_flatMap.mpr ⟨d, hd, hb⟩)
  have halike := (Node.hereditary_checksRespelled hf.toRelabels).decl d hnode []
  simp only [Node.checkNames, hpasses.checked d hd] at halike
  exact halike.eq_ok

end Stages

section Sources

variable {source : String} {c : Compilation} {s : SymbolId} {a : Symbol} {n : String}

theorem text_ne_of_mem_tokenize {k : Token} (hk : k ∈ tokenize source)
    (hkind : k.kind = .identifier) : k.text ≠ "" := by
  have hk : k ∈ tokensFrom (.behind []) source.toList := hk
  obtain ⟨N⟩ := exists_nameIn hk hkind
  exact N.text_ne

theorem ParserState.relabel_ofTokens {f : Token → Token} (hf : Relabels f) (ts : List Token)
    (T : TypeTable) : (ofTokens ts T).relabel f = ofTokens (ts.map f) T := by
  have hfinish : ((ts.map f).getLastD (.endAt .origin)).place =
      (ts.getLastD (.endAt .origin)).place := by
    rw [List.getLastD_eq_getLast?, List.getLastD_eq_getLast?, List.getLast?_map]
    cases ts.getLast? with
    | none => rfl
    | some t => exact hf.place t
  simp only [relabel, ofTokens, List.map_dropLast, hfinish]

theorem Program.parse_respelled {source' : String} {f : Token → Token} (hf : Relabels f)
    {p : Program} {T : TypeTable} (hp : parse source .initial = (.ok p, T))
    (h : (tokenize source).map (fun t => (f t).letter) = (tokenize source').map Token.letter) :
    ∃ p', parse source' .initial = (.ok p', T) ∧
      (p.map (.ofToken f)).Like (AtSameToken source source') Eq p' := by
  have hne : (tokenize source).map f ≠ [] := by
    simpa [tokenize] using tokensFrom_ne_nil .origin source.toList
  have hrespelled := ofState_relabel hf hp
  rw [ParserState.ofSource, ParserState.relabel_ofTokens hf] at hrespelled
  obtain ⟨halike, htypes⟩ := ofState_alike hne (forall₂_respelled hf h) .initial
  rw [hrespelled] at halike htypes
  obtain ⟨p', hp', hlike⟩ := halike.exists_ok
  exact ⟨p', Prod.ext hp' htypes.symm, hlike⟩

/-- A symbol can be renamed. Its name is replaced where it is declared and where a use means it, by
a name that the text does not use. The text is still accepted. Its program is the old one with these
names respelled, in scopes that only differ in the name of the symbol, with the same types, and each
name in it means the symbol that it meant. What is printed differs in nothing but the name. -/
theorem compile_renamed (hc : compile source = .ok c) (ha : c.scopes.symbol? s = some a)
    (hn : IsName n) (hfree : ∀ k ∈ tokenize source, k.kind = .identifier → k.text ≠ n) :
    ∃ source' c', replaceAt (c.program.placesOf c.scopes s) a.name n source = source' ∧
      compile source' = .ok c' ∧ (c.rename s n).Like (AtSameToken source source') c' ∧
      c'.program.dump c'.types = (c.rename s n).program.dump c.types ∧
      Reworded a.name n (c.program.dump c.types) (c'.program.dump c'.types) ∧
      List.Forall₂ (fun m m' => ∀ i, m.Means c.scopes i ↔ m'.Means c'.scopes i)
        c.program.mentions c'.program.mentions := by
  obtain ⟨p, hparse, hanalyse⟩ := exists_parse_of_compile hc
  obtain ⟨-, hreads, -, -⟩ := Program.reads_of_parse hparse
  have htokens : (tokenize source).dropLast ⊆ tokenize source := List.dropLast_subset _
  have hw := ((Ascending.tokenize source).sublist (List.dropLast_sublist _)).nodup_places
  have hn' : ∀ k ∈ (tokenize source).dropLast, k.kind = .identifier → k.text ≠ n :=
    fun k hk => hfree k (htokens hk)
  have hnames : ∀ k ∈ (tokenize source).dropLast, k.kind = .identifier → k.text ≠ "" :=
    fun k hk => text_ne_of_mem_tokenize (htokens hk)
  have hplaces : ∀ q ∈ c.program.placesOf c.scopes s, ∃ t ∈ tokenize source,
      t.place = q ∧ t.kind = .identifier ∧ t.text = a.name := by
    intro q hq
    obtain ⟨t, ht, hname⟩ := Program.exists_name_of_placesOf hreads hw hanalyse ha hq
    exact ⟨t, htokens ht, hname⟩
  have hname := ScopeTree.nameOf_eq ha
  have hf : Relabels (c.respell s n) := Token.relabels_respell _ _ n
  have hletters := map_letter_tokenize_replaceAt hn hplaces
  rw [← hname] at hletters
  obtain ⟨p', hparse', hlike⟩ := Program.parse_respelled hf hparse hletters.symm
  have hrenamed := Program.analyse_renamed (s := s) hreads hw hanalyse hn' hnames
  have hR := keepsOrder_atSameToken source
    (replaceAt (c.program.placesOf c.scopes s) (c.scopes.nameOf s) n source)
  have hanalysed := hlike.analyse hR c.types
  rw [hrenamed] at hanalysed
  obtain ⟨c', hc', hlike'⟩ := hanalysed.exists_ok
  have hdump : c'.program.dump c'.types = (c.rename s n).program.dump c.types := by
    rw [← hlike'.types]
    exact (hlike'.program.dump_eq _).symm
  refine ⟨_, c', by rw [hname], (compile_of_parse hparse').trans hc', hlike', hdump, ?_, ?_⟩
  · rw [hdump, ← hname]
    exact c.program.reworded_dump (Token.rewords_respell _ _ n)
  · have hlists := hlike'.program.decls.mentions
    have hmap : (c.rename s n).program.mentions = _ := Program.mentions_map_ofToken hf c.program
    change List.Forall₂ _ (c.rename s n).program.mentions c'.program.mentions at hlists
    rw [hmap, List.forall₂_map_left_iff] at hlists
    have hmeans (m : Mention) (hm : m ∈ c.program.mentions) := fun i =>
      Program.means_renamed (s := s) hreads hw hanalyse hn' hnames hm i
    refine ((List.forall₂_and_left _ _).mpr ⟨hmeans, hlists⟩).imp fun m m' h i => ?_
    exact (h.1 i).symm.trans (h.2.means_iff hR hlike'.scopes i)

/-- A parameter with the name of a global variable. -/
theorem compile_renamed_parameter : ∃ c a source' c',
    compile "var a = 1; of [Int] -> Int fun f(a) = \x7b var b = a; return b; \x7d;" = .ok c ∧
    c.scopes.symbol? ⟨2⟩ = some a ∧ IsName "xy" ∧
    (∀ k ∈ tokenize "var a = 1; of [Int] -> Int fun f(a) = \x7b var b = a; return b; \x7d;",
      k.kind = .identifier → k.text ≠ "xy") ∧
    source' = "var a = 1; of [Int] -> Int fun f(xy) = \x7b var b = xy; return b; \x7d;" ∧
    compile source' = .ok c' ∧
    (c.rename ⟨2⟩ "xy").Like (AtSameToken
      "var a = 1; of [Int] -> Int fun f(a) = \x7b var b = a; return b; \x7d;" source') c' ∧
    c'.program.dump c'.types = (c.rename ⟨2⟩ "xy").program.dump c.types ∧
    Reworded a.name "xy" (c.program.dump c.types) (c'.program.dump c'.types) ∧
    List.Forall₂ (fun m m' => ∀ i, m.Means c.scopes i ↔ m'.Means c'.scopes i)
      c.program.mentions c'.program.mentions := by
  have h : (compile
      "var a = 1; of [Int] -> Int fun f(a) = \x7b var b = a; return b; \x7d;").map (fun c =>
        ((c.scopes.symbol? ⟨2⟩).map Symbol.name,
          replaceAt (c.program.placesOf c.scopes ⟨2⟩) "a" "xy"
            "var a = 1; of [Int] -> Int fun f(a) = \x7b var b = a; return b; \x7d;")) =
      .ok (some "a",
        "var a = 1; of [Int] -> Int fun f(xy) = \x7b var b = xy; return b; \x7d;") := by cbv
  have hn : IsName "xy" := by decide +kernel
  have hfree : ∀ k ∈ tokenize
      "var a = 1; of [Int] -> Int fun f(a) = \x7b var b = a; return b; \x7d;",
      k.kind = .identifier → k.text ≠ "xy" := by decide +kernel
  obtain ⟨c, hc, he⟩ := except_map_eq_ok.mp h
  obtain ⟨hname, hreplaced⟩ := Prod.mk.inj he
  obtain ⟨a, ha, hname⟩ := Option.map_eq_some_iff.mp hname
  obtain ⟨source', c', hsource, hrest⟩ := compile_renamed hc ha hn hfree
  rw [hname, hreplaced] at hsource
  exact ⟨c, a, source', c', hc, ha, hn, hfree, hsource.symm, hrest⟩

end Sources

end FrontEnd
