import FrontEnd.Compilation
import FrontEnd.Proofs.Grammar.Comparison
import FrontEnd.Proofs.Syntax.Mapping
import FrontEnd.Proofs.Syntax.Outlines
import FrontEnd.Proofs.Typing.Likeness

/-! Compiling depends on the tokens of a source only. Two layouts of the same tokens give the same
result, in which every place is the one of the same token. -/

namespace FrontEnd

/-- The tokens agree in their kinds and in what they carry. -/
def SameTokens (source source' : String) : Prop :=
  (tokenize source).map (fun t => (t.kind, t.payload)) =
    (tokenize source').map fun t => (t.kind, t.payload)

instance (source source' : String) : Decidable (SameTokens source source') :=
  inferInstanceAs (Decidable (_ = _))

/-- Both places are those of the token at one index. -/
def AtSameToken (source source' : String) (p p' : Position) : Prop :=
  ∃ (i : Nat) (t t' : Token), (tokenize source)[i]? = some t ∧ (tokenize source')[i]? = some t' ∧
    t.place = p ∧ t'.place = p'

theorem place_lt_iff {source : String} {i j : Nat} {t u : Token}
    (ht : (tokenize source)[i]? = some t) (hu : (tokenize source)[j]? = some u) :
    t.place < u.place ↔ i < j := (Ascending.tokenize source).place_lt_iff ht hu

theorem keepsOrder_atSameToken (source source' : String) :
    KeepsOrder (AtSameToken source source') := by
  rintro p p' q q' ⟨i, t, t', ht, ht', rfl, rfl⟩ ⟨j, u, u', hu, hu', rfl, rfl⟩
  rw [place_lt_iff ht hu, place_lt_iff ht' hu']

theorem forall₂_respelled {source source' : String} {f : Token → Token} (hf : Relabels f)
    (h : (tokenize source).map (fun t => ((f t).kind, (f t).payload)) =
      (tokenize source').map fun t => (t.kind, t.payload)) :
    List.Forall₂ (Token.Like (AtSameToken source source')) ((tokenize source).map f)
      (tokenize source') := by
  have hlength : (tokenize source).length = (tokenize source').length := by
    simpa using congrArg List.length h
  refine List.forall₂_iff_get.mpr ⟨by rw [List.length_map, hlength], fun i hi hi' => ?_⟩
  have hi : i < (tokenize source).length := by rwa [List.length_map] at hi
  have hi? := congrArg (fun l => l[i]?) h
  simp only [List.getElem?_map, List.getElem?_eq_getElem hi, List.getElem?_eq_getElem hi',
    Option.map_some, Option.some.injEq, Prod.mk.injEq] at hi?
  simp only [List.get_eq_getElem, List.getElem_map]
  exact ⟨hi?.1, hi?.2, i, _, _, List.getElem?_eq_getElem hi, List.getElem?_eq_getElem hi',
    (hf.place _).symm, rfl⟩

theorem SameTokens.forall₂ {source source' : String} (h : SameTokens source source') :
    List.Forall₂ (Token.Like (AtSameToken source source')) (tokenize source)
      (tokenize source') := by
  have hid : Relabels id := ⟨fun _ => rfl, fun _ => rfl, fun _ => rfl⟩
  have hsame := forall₂_respelled hid h
  rwa [List.map_id] at hsame

theorem forall₂_getLastD {α β : Type} {R : α → β → Prop} {as : List α} {bs : List β}
    (h : List.Forall₂ R as bs) {a : α} {b : β} (hab : R a b) :
    R (as.getLastD a) (bs.getLastD b) := by
  induction h generalizing a b with
  | nil => exact hab
  | cons h _ ih =>
    rw [List.getLastD_cons, List.getLastD_cons]
    exact ih h

theorem abreast_ofTokens {R : Position → Position → Prop} {ts ts' : List Token} (hne : ts ≠ [])
    (h : List.Forall₂ (Token.Like R) ts ts') {T : TypeTable} (hT : T.Reachable) :
    (ParserState.ofTokens ts T).Abreast ⟨R, T.size, 0, .whole, [], []⟩ T 0 ts.dropLast
      ts'.dropLast (.ofTokens ts' T) where
  tokens := (List.append_nil _).symm
  tokens' := (List.append_nil _).symm
  window := by
    rw [List.dropLast_eq_take, List.dropLast_eq_take, h.length_eq]
    exact List.forall₂_take _ h
  finish := by
    intro _
    cases h with
    | nil => exact absurd rfl hne
    | cons ht hts =>
      simp only [ParserState.ofTokens, List.getLastD_cons]
      exact (forall₂_getLastD hts ht).place
  openBlocks := rfl
  openBlocks' := rfl
  grows := .refl T
  types := by
    have hself := TypeTable.Shifted.of_grows hT (.refl T)
    rwa [Nat.sub_self] at hself
  reported := ⟨[], [], rfl, rfl, .nil⟩

theorem Program.ofState_alike {R : Position → Position → Prop} {ts ts' : List Token} (hne : ts ≠ [])
    (h : List.Forall₂ (Token.Like R) ts ts') {T : TypeTable} (hT : T.Reachable) :
    Alike (List.Forall₂ (Diagnostic.Like R)) (Program.Like R Eq) (ofState (.ofTokens ts T)).1
        (ofState (.ofTokens ts' T)).1 ∧
      (ofState (.ofTokens ts T)).2 = (ofState (.ofTokens ts' T)).2 := by
  have hstart := abreast_ofTokens hne h hT
  obtain ⟨hdecls, v, v', hend⟩ := Rule.declarationsWithin_abreast rfl hstart.length_le
    hstart.length_le' hstart (Nat.le_refl _)
  rw [Frame.type_eq rfl] at hdecls
  have hfinal := (hend.current (Frame.ahead_of_whole rfl 0 v)).place
  obtain ⟨ds, ds', hds, hds', hlike⟩ := hend.reported
  have htypes := hend.types.eq_of_zero
  unfold ofState Rule.declarations
  dsimp only [List.nil_append] at hds hds' ⊢
  rw [hds, hds', htypes]
  cases hlike with
  | nil => exact ⟨.ok ⟨hdecls, rfl⟩, rfl⟩
  | cons hd hlike =>
    refine ⟨.error (List.rel_append (.cons hd hlike) (.cons ⟨?_, hfinal⟩ .nil)), rfl⟩
    exact congrArg Fault.brokenProgram (List.Forall₂.cons hd hlike).length_eq

theorem Program.parse_alike {source source' : String} (h : SameTokens source source')
    {T : TypeTable} (hT : T.Reachable) :
    Alike (List.Forall₂ (Diagnostic.Like (AtSameToken source source')))
      (Program.Like (AtSameToken source source') Eq) (parse source T).1 (parse source' T).1 ∧
      (parse source T).2 = (parse source' T).2 :=
  ofState_alike (tokensFrom_ne_nil _ _) h.forall₂ hT

section Outline

variable {R : Position → Position → Prop}

theorem Node.Like.outline_eq {a a' : Node} (h : a.Like R Eq a') (T : TypeTable) (depth n : Nat) :
    a.outline T depth n = a'.outline T depth n :=
  h.corresponds.outline_eq (fun _ _ he => congrArg _ he) depth n

theorem Program.Like.dump_eq {p p' : Program} (h : p.Like R Eq p') (T : TypeTable) :
    p.dump T = p'.dump T := by
  have hdecls : p.decls.flatMap (Decl.outline T 1) = p'.decls.flatMap (Decl.outline T 1) :=
    h.decls.outline_eq T 1 0
  simp only [Program.dump, Program.outline, hdecls]

end Outline

/-- Like programs, in like scopes and with the same types. -/
structure Compilation.Like (R : Position → Position → Prop) (C C' : Compilation) : Prop where
  program : C.program.Like R Eq C'.program
  types : C.types = C'.types
  scopes : C.scopes.Like R C'.scopes

theorem Program.Like.annotate {R : Position → Position → Prop} (hR : KeepsOrder R)
    {p p' : Program} (h : p.Like R Eq p') {S S' : ScopeTree} (hS : S.Like R S') (T : TypeTable) :
    (p.annotate S T).1.Like R Eq (p'.annotate S' T).1 ∧
      Option.Rel (Diagnostic.Like R) (p.annotate S T).2 (p'.annotate S' T).2 := by
  have hcontext : Annotating.Like R { context := { scopes := S, types := T } }
      { context := { scopes := S', types := T } } := ⟨⟨hS, rfl, rfl⟩, .none⟩
  obtain ⟨hdecls, hfailure⟩ := h.decls.annotate hR none hcontext
  exact ⟨⟨hdecls, h.scope⟩, hfailure⟩

theorem Program.Like.analyse {R : Position → Position → Prop} (hR : KeepsOrder R)
    {p p' : Program} (h : p.Like R Eq p') (T : TypeTable) :
    Alike (List.Forall₂ (Diagnostic.Like R)) (Compilation.Like R) (p.analyse T)
      (p'.analyse T) := by
  obtain ⟨hp, hr⟩ := h.buildScopes T
  unfold Program.analyse
  generalize p.buildScopes T .empty = x, p'.buildScopes T .empty = x' at hp hr
  obtain ⟨q, tree, failure⟩ := x
  obtain ⟨q', tree', failure'⟩ := x'
  obtain ⟨htree, hfailure⟩ := hr
  dsimp only at hp htree hfailure ⊢
  cases hfailure with
  | some hd => exact .error (.cons hd .nil)
  | none =>
    have hchecked : Alike (Diagnostic.Like R) Eq (q.checkDefinitions tree)
        (q'.checkDefinitions tree') := hp.decls.checkNames hR htree []
    obtain ⟨hq, hfault⟩ := hp.annotate hR htree T
    dsimp only
    generalize q.checkDefinitions tree = y, q'.checkDefinitions tree' = y' at hchecked
    generalize q.annotate tree T = z, q'.annotate tree' T = z' at hq hfault
    obtain ⟨q, fault⟩ := z
    obtain ⟨q', fault'⟩ := z'
    dsimp only at hq hfault
    cases hchecked with
    | error hd => exact .error (.cons hd .nil)
    | ok _ =>
      cases hfault with
      | some hd => exact .error (.cons hd .nil)
      | none => exact .ok ⟨hq, rfl, htree⟩

/-- Two layouts of the same tokens compile alike. Corresponding places are those of the same token;
all else is equal, and so is the text that shows the program. -/
theorem compile_alike {source source' : String} (h : SameTokens source source') :
    Alike (List.Forall₂ (Diagnostic.Like (AtSameToken source source')))
      (fun C C' => C.Like (AtSameToken source source') C' ∧
        C.program.dump C.types = C'.program.dump C'.types)
      (compile source) (compile source') := by
  have hR := keepsOrder_atSameToken source source'
  obtain ⟨hparsed, htypes⟩ := Program.parse_alike h .initial
  unfold compile
  generalize Program.parse source .initial = x, Program.parse source' .initial = x'
    at hparsed htypes
  obtain ⟨parsed, T⟩ := x
  obtain ⟨parsed', T'⟩ := x'
  obtain rfl : T = T' := htypes
  cases hparsed with
  | error hds => exact .error hds
  | @ok p p' hp =>
    have hcompiled := hp.analyse hR T
    dsimp only
    generalize p.analyse T = y, p'.analyse T = y' at hcompiled
    cases hcompiled with
    | error hds => exact .error hds
    | ok hC => exact .ok ⟨hC, by rw [hC.types, hC.program.dump_eq]⟩

theorem compile_alike_of_comment_between :
    SameTokens "var a = 01; var b = a;" "var a # one\n = 1 ;var b=a;" ∧
      Alike (List.Forall₂ (Diagnostic.Like
          (AtSameToken "var a = 01; var b = a;" "var a # one\n = 1 ;var b=a;")))
        (fun C C' => C.Like (AtSameToken "var a = 01; var b = a;" "var a # one\n = 1 ;var b=a;") C' ∧
          C.program.dump C.types = C'.program.dump C'.types)
        (compile "var a = 01; var b = a;") (compile "var a # one\n = 1 ;var b=a;") := by
  have h : SameTokens "var a = 01; var b = a;" "var a # one\n = 1 ;var b=a;" := by
    decide +kernel
  exact ⟨h, compile_alike h⟩

end FrontEnd
