import Mathlib
import FrontEnd.Proofs.Scope.Respelling
import FrontEnd.Proofs.Syntax.Marks
import FrontEnd.Proofs.Syntax.Sources
import FrontEnd.Proofs.Token.Replacing

/-! Where a program mentions its symbols. A name stands where the symbol is declared or where it is
used, and no two names stand at one place. -/

namespace FrontEnd

/-- A name in a program. A use is looked up in the scope that the expression is stamped with. -/
inductive Mention where
  | declares (name : Token)
  | uses (name : Token) (scope : Option ScopeId)
deriving DecidableEq, Repr, Inhabited

namespace Mention

def name : Mention → Token
  | declares k => k
  | uses k _ => k

def place (m : Mention) : Position := m.name.place

def declared? : Mention → Option Token
  | declares k => some k
  | uses _ _ => none

/-- The mention is one of the symbol `s`: it declares the symbol, or it is looked up and `s` is
found. -/
def Means (S : ScopeTree) (s : SymbolId) : Mention → Prop
  | declares k => (S.symbol? s).map Symbol.place = some k.place
  | uses k c => c.bind (fun c => S.lookup c k.text k.place) = some s

instance (S : ScopeTree) (s : SymbolId) : (m : Mention) → Decidable (m.Means S s)
  | declares k => inferInstanceAs (Decidable ((S.symbol? s).map Symbol.place = some k.place))
  | uses k c => inferInstanceAs (Decidable (c.bind (fun c => S.lookup c k.text k.place) = some s))

/-- The mention with its name respelled. -/
def map (f : Token → Token) : Mention → Mention
  | declares k => declares (f k)
  | uses k c => uses (f k) c

end Mention

theorem Token.relabels_respell (places : List Position) (old n : String) :
    Relabels (Token.respell places old n) where
  kind k := by unfold respell; split <;> rfl
  place k := by unfold respell; split <;> rfl
  endAt p := if_neg fun h => nomatch h.1

def ScopeTree.nameOf (S : ScopeTree) (s : SymbolId) : String :=
  ((S.symbol? s).map Symbol.name).getD ""

theorem ScopeTree.nameOf_eq {S : ScopeTree} {s : SymbolId} {a : Symbol}
    (ha : S.symbol? s = some a) : S.nameOf s = a.name := by
  rw [nameOf, ha]
  rfl

namespace Node

/-- The names at the node itself. -/
def mentions : Node → List Mention
  | expr e => e.name?.toList.map (.uses · e.scope)
  | decl (.var _ n _ _ _) => [.declares n]
  | decl (.fn _ n _ ps _) => (n :: ps).map .declares
  | _ => []

variable {M : NodeMap} {f : Token → Token} {w : List Token}

theorem mentions_map_ofToken (hf : Relabels f) (b : Node) :
    (b.map (.ofToken f)).mentions = b.mentions.map (Mention.map f) := by
  cases b with
  | expr e =>
    have hscope : (e.map (.ofToken f)).scope = e.scope :=
      congrArg (fun s : ExprSite => s.scope) e.site_map_ofToken
    simp only [Node.map, mentions, Expr.name?_map_ofToken hf, hscope]
    cases e.name? <;> rfl
  | decl d =>
    cases d with
    | var => rfl
    | fn =>
      simp only [Node.map, Decl.map, mentions, List.map_cons, List.map_map]
      rfl
  | _ => rfl

theorem names_mentions_map (htoken : M.token = id) (b : Node) :
    (b.map M).mentions.map Mention.name = b.mentions.map Mention.name := by
  cases b with
  | expr e =>
    cases e with
    | leaf s form k =>
      have hname : (Expr.leaf (M.exprSite s) form k).name? = (Expr.leaf s form k).name? := by
        cases form <;> rfl
      simp only [Node.map, Expr.map, mentions, htoken, id_eq, hname, List.map_map]
      rfl
    | _ => rfl
  | decl d => cases d <;> simp [Node.map, Decl.map, mentions, htoken]
  | _ => rfl

/-- One that leaves the scopes alone, too, leaves the mentions alone. -/
theorem mentions_map (htoken : M.token = id) (hscope : ∀ s, (M.exprSite s).scope = s.scope)
    (b : Node) : (b.map M).mentions = b.mentions := by
  cases b with
  | expr e =>
    cases e with
    | leaf s form k =>
      have hname : (Expr.leaf (M.exprSite s) form k).name? = (Expr.leaf s form k).name? := by
        cases form <;> rfl
      simp only [Node.map, Expr.map, mentions, htoken, id_eq, hname, Expr.scope, Expr.site, hscope]
    | _ => rfl
  | decl d => cases d <;> simp [Node.map, Decl.map, mentions, htoken]
  | _ => rfl

theorem MadeOf.of_mention {b : Node} (h : b.MadeOf w) {m : Mention} (hm : m ∈ b.mentions) :
    m.name.kind = .identifier ∧ m.name ∈ w := by
  cases b with
  | expr e =>
    obtain ⟨k, hk, rfl⟩ := List.mem_map.mp hm
    exact h.of_name (Option.mem_toList.mp hk)
  | decl d =>
    cases d with
    | var =>
      obtain rfl := List.mem_singleton.mp hm
      exact h
    | fn =>
      obtain ⟨k, hk, rfl⟩ := List.mem_map.mp hm
      exact h k hk
  | _ => exact nomatch hm

end Node

theorem Reads.mentions_le {T : TypeTable} {w : List Token} {a : Node} (h : Reads T w a)
    (q : Position) : ((a.nodes.flatMap Node.mentions).map Mention.place).count q ≤
      (w.map Token.place).count q := by
  have hdeclares (ks : List Token) : (ks.map Mention.declares).map Mention.place =
      ks.map Token.place := by
    rw [List.map_map]
    rfl
  induction h with
  | @literal t _ =>
    by_cases hk : t.kind = .identifier
    · have hone : (Node.expr (.leaf (Rule.exprSite t.place) .literal t)).nodes.flatMap
          Node.mentions = [.uses t none] := by
        simp [Node.nodes, Expr.nodes, Node.mentions, Expr.name?, hk, Expr.scope, Expr.site,
          Rule.exprSite]
      rw [hone]
      exact Nat.le_refl _
    · simp [Node.nodes, Expr.nodes, Node.mentions, Expr.name?, hk]
  | fn _ _ _ _ _ _ _ _ hps _ _ ih =>
    have hparams := (hps.sublist.map Token.place).count_le q
    simp only [Node.nodes, Decl.nodes, List.flatMap_cons, List.map_append, List.count_append,
      Node.mentions, hdeclares, List.map_cons (f := Token.place), List.count_cons, List.map_nil,
      List.count_nil] at ih ⊢
    omega
  | @var _ n _ _ _ _ _ _ _ _ _ _ _ _ _ ih =>
    have hname : [Mention.declares n].map Mention.place = [n.place] := rfl
    simp only [Node.nodes, Decl.nodes, List.flatMap_cons, List.flatMap_append, List.flatMap_nil,
      List.map_append, List.count_append, List.map_cons, List.count_cons, Node.mentions, hname,
      List.append_nil, List.map_nil, List.count_nil] at ih ⊢
    omega
  | _ =>
    simp only [Node.nodes, Expr.nodes, Expr.nodesOfAll, Stmt.nodes, Stmt.nodesOfAll,
      List.flatMap_nil, List.flatMap_cons, List.flatMap_append, List.map_append, List.map_cons,
      List.map_nil, List.count_append, List.count_cons, List.count_nil, Node.mentions, Expr.name?,
      Option.toList_none] at *
    omega

namespace Program

/-- All names in a program. -/
def mentions (p : Program) : List Mention := p.nodes.flatMap Node.mentions

/-- The places at which the program mentions the symbol. -/
def placesOf (p : Program) (S : ScopeTree) (s : SymbolId) : List Position :=
  (p.mentions.filter fun m => m.Means S s).map Mention.place

variable {T : TypeTable} {p q : Program} {S : ScopeTree} {w : List Token} {s i : SymbolId}
  {a : Symbol} {f : Token → Token} {m : Mention}

theorem nodes_map (M : NodeMap) (p : Program) : (p.map M).nodes = p.nodes.map (Node.map M) :=
  Node.nodes_map_decls M p.decls

theorem mentions_map_ofToken (hf : Relabels f) (p : Program) :
    (p.map (.ofToken f)).mentions = p.mentions.map (Mention.map f) := by
  rw [mentions, mentions, nodes_map, List.flatMap_map, List.map_flatMap]
  exact List.flatMap_congr fun b _ => b.mentions_map_ofToken hf

theorem mentions_annotate (q : Program) (S : ScopeTree) (T : TypeTable) :
    (q.annotate S T).1.mentions = q.mentions := by
  have huntyped (p : Program) : p.untyped.mentions = p.mentions := by
    have hnodes := nodes_map .untyped p
    rw [mentions, mentions, show p.untyped.nodes = _ from hnodes, List.flatMap_map]
    exact List.flatMap_congr fun b _ => Node.mentions_map rfl (fun _ => rfl) b
  rw [← huntyped, q.untyped_annotate S T, huntyped]

namespace Scoped

variable (h : Scoped T w p q S)
include h

theorem of_mention (hm : m ∈ q.mentions) : m.name.kind = .identifier ∧ m.name ∈ w := by
  obtain ⟨b, hb, hm⟩ := List.mem_flatMap.mp hm
  exact (h.madeOf b hb).of_mention hm

theorem nodup_mentions (hw : (w.map Token.place).Nodup) :
    (q.mentions.map Mention.place).Nodup := by
  have hnodes : p.nodes = q.nodes.map (Node.map .unstamped) := by
    have hp : Node.decls p.decls = (Node.decls q.decls).map .unstamped := by
      rw [← Node.unstamped_decls, Node.unstamped, h.nodes]
    exact (congrArg Node.nodes hp).trans (Node.nodes_map_decls .unstamped q.decls)
  have hnames : p.mentions.map Mention.name = q.mentions.map Mention.name := by
    rw [mentions, mentions, hnodes, List.flatMap_map, List.map_flatMap, List.map_flatMap]
    exact List.flatMap_congr fun b _ => Node.names_mentions_map rfl b
  have hplaces : q.mentions.map Mention.place = p.mentions.map Mention.place := by
    have hmap := congrArg (List.map Token.place) hnames
    simp only [List.map_map] at hmap
    exact hmap.symm
  rw [hplaces, List.nodup_iff_count_le_one]
  exact fun q => (h.reads.mentions_le q).trans (List.nodup_iff_count_le_one.mp hw q)

/-- A symbol is mentioned at a place if the name at this place means it. -/
theorem mem_placesOf (hw : (w.map Token.place).Nodup) (hm : m ∈ q.mentions) :
    m.place ∈ q.placesOf S s ↔ m.Means S s := by
  constructor
  · intro hplace
    obtain ⟨m', hm', he⟩ := List.mem_map.mp hplace
    obtain ⟨hmem, hmeans⟩ := List.mem_filter.mp hm'
    obtain rfl := List.inj_on_of_nodup_map (h.nodup_mentions hw) hmem hm he
    exact of_decide_eq_true hmeans
  · exact fun hmeans => List.mem_map.mpr ⟨m, List.mem_filter.mpr ⟨hm, decide_eq_true hmeans⟩, rfl⟩

/-- The symbols are those that are declared, in the order in which they stand. -/
theorem symbols_declared : S.symbols.toList.map (fun a => (a.name, a.place)) =
    (q.mentions.filterMap Mention.declared?).map fun k => (k.text, k.place) := by
  have hvisit (v : Visit) : (v.binds T).map (fun b => (b.2.name, b.2.place)) =
      (v.node.mentions.filterMap Mention.declared?).map fun k => (k.text, k.place) := by
    obtain ⟨k, a⟩ := v
    cases a with
    | expr e =>
      rw [Node.mentions, List.filterMap_map]
      simp [Visit.binds, Mention.declared?, Function.comp_def]
    | decl d =>
      cases d with
      | var => rfl
      | fn _ n _ ps _ =>
        have hnames : ((n :: ps).map Mention.declares).filterMap Mention.declared? = n :: ps := by
          rw [List.filterMap_map]
          exact List.filterMap_some
        rw [Node.mentions, hnames, Visit.binds, List.map_cons, List.map_cons]
        exact congrArg _ (List.ext_getElem (by simp) (by simp))
    | _ => rfl
  rw [h.symbols, List.map_map, List.map_flatMap, mentions, ← q.map_node_visits, List.flatMap_map,
    List.filterMap_flatMap, List.map_flatMap]
  exact List.flatMap_congr fun v _ => hvisit v

theorem exists_declares (ha : S.symbol? i = some a) :
    ∃ k, .declares k ∈ q.mentions ∧ k.text = a.name ∧ k.place = a.place := by
  have hmem : (a.name, a.place) ∈ S.symbols.toList.map fun a => (a.name, a.place) :=
    List.mem_map.mpr ⟨a, Array.mem_toList_iff.mpr (Array.mem_of_getElem? ha), rfl⟩
  rw [h.symbols_declared] at hmem
  obtain ⟨k, hk, he⟩ := List.mem_map.mp hmem
  obtain ⟨m, hm, hdeclared⟩ := List.mem_filterMap.mp hk
  cases m with
  | declares =>
    obtain rfl := Option.some.inj hdeclared
    exact ⟨_, hm, (Prod.mk.inj he).1, (Prod.mk.inj he).2⟩
  | uses => exact nomatch hdeclared

theorem exists_symbol? {k : Token} (hk : .declares k ∈ q.mentions) :
    ∃ i a, S.symbol? i = some a ∧ a.name = k.text ∧ a.place = k.place := by
  have hmem : (k.text, k.place) ∈ (q.mentions.filterMap Mention.declared?).map
      fun k => (k.text, k.place) :=
    List.mem_map.mpr ⟨k, List.mem_filterMap.mpr ⟨_, hk, rfl⟩, rfl⟩
  rw [← h.symbols_declared] at hmem
  obtain ⟨a, ha, he⟩ := List.mem_map.mp hmem
  obtain ⟨i, hi⟩ := List.mem_iff_getElem?.mp ha
  rw [Array.getElem?_toList] at hi
  exact ⟨⟨i⟩, a, hi, (Prod.mk.inj he).1, (Prod.mk.inj he).2⟩

theorem exists_own {site : Site} {k : Token} {g : Option TypeId} {e : Expr} {finish : Position}
    (hd : .decl (.var site k g e finish) ∈ q.nodes) : ∃ c i b, site.scope = some c ∧
      S.local? c k.text = some i ∧ S.symbol? i = some b ∧ k.text = b.name ∧ k.place = b.place := by
  obtain ⟨v, hv, hnode⟩ := Program.exists_visit hd
  have hplaced := h.inPlace v hv
  rw [Visit.InPlace, hnode] at hplaced
  have hbound : (v.around.scope, ⟨.var, k.text, k.place, finish, v.around.isGlobal, g⟩) ∈
      q.visits.flatMap (Visit.binds T) := by
    refine List.mem_flatMap.mpr ⟨v, hv, ?_⟩
    rw [Visit.binds, hnode]
    exact List.mem_cons_self
  obtain ⟨i, hi⟩ := List.mem_iff_getElem?.mp hbound
  have hsymbol : S.symbol? ⟨i⟩ = some ⟨.var, k.text, k.place, finish, v.around.isGlobal, g⟩ := by
    rw [ScopeTree.symbol?, ← Array.getElem?_toList, h.symbols, List.getElem?_map, hi]
    rfl
  exact ⟨_, ⟨i⟩, _, hplaced.1, (h.names _ _ _).mpr ⟨_, hi, rfl⟩, hsymbol, rfl, rfl⟩

variable (hw : (w.map Token.place).Nodup)
include hw

theorem eq_of_place_eq {j : SymbolId} {b : Symbol} (ha : S.symbol? i = some a)
    (hb : S.symbol? j = some b) (hplace : a.place = b.place) : i = j := by
  have hsublist (ms : List Mention) : ((ms.filterMap Mention.declared?).map Token.place).Sublist
      (ms.map Mention.place) := by
    induction ms with
    | nil => exact .refl _
    | cons m ms ih =>
      cases m with
      | declares => exact ih.cons_cons _
      | uses => exact ih.cons _
  have hplaces : S.symbols.toList.map Symbol.place =
      (q.mentions.filterMap Mention.declared?).map Token.place := by
    have hmap := congrArg (List.map Prod.snd) h.symbols_declared
    rwa [List.map_map, List.map_map] at hmap
  have hnodup : (S.symbols.toList.map Symbol.place).Nodup :=
    hplaces ▸ (h.nodup_mentions hw).sublist (hsublist _)
  rw [ScopeTree.symbol?, ← Array.getElem?_toList] at ha hb
  have hindex : i.index = j.index := by
    obtain ⟨hi, -⟩ := List.getElem?_eq_some_iff.mp ha
    refine (List.getElem?_inj (by rwa [List.length_map]) hnodup).mp ?_
    rw [List.getElem?_map, List.getElem?_map, ha, hb, Option.map_some, Option.map_some, hplace]
  cases i
  cases j
  exact congrArg SymbolId.mk hindex

variable (hS : S.WellNamed)
include hS

theorem text_of_means (hm : m ∈ q.mentions) (hmeans : m.Means S s) :
    m.name.text = S.nameOf s := by
  cases m with
  | declares k =>
    obtain ⟨i, b, hb, hname, hplace⟩ := h.exists_symbol? hm
    obtain ⟨a, ha, hplace'⟩ := Option.map_eq_some_iff.mp hmeans
    obtain rfl := h.eq_of_place_eq hw ha hb (hplace'.trans hplace.symm)
    rw [Mention.name, ← hname, ScopeTree.nameOf_eq hb]
  | uses k c =>
    obtain ⟨c, -, hlookup⟩ := Option.bind_eq_some_iff.mp hmeans
    obtain ⟨d, hd⟩ := ScopeTree.exists_visible?_of_lookup hlookup
    obtain ⟨a, ha, hname⟩ := hS.name_of_local? (ScopeTree.visible?_eq_some.mp hd).1
    rw [Mention.name, ← hname, ScopeTree.nameOf_eq ha]

variable {n : String} (hn : ∀ k ∈ w, k.kind = .identifier → k.text ≠ n)
  (hnames : ∀ k ∈ w, k.kind = .identifier → k.text ≠ "")
include hn

omit hw hS in
theorem isFree : S.IsFree n := by
  intro i a ha hname
  obtain ⟨k, hk, htext, -⟩ := h.exists_declares ha
  obtain ⟨hkind, hmem⟩ := h.of_mention hk
  exact hn k hmem hkind (htext.trans hname)

include hnames

omit hn in
theorem text_respell {k : Token} (hm : m ∈ q.mentions) (hmeans : m.Means S s)
    (htext : k.text = m.name.text) (hplace : k.place = m.place) :
    (k.respell (q.placesOf S s) (S.nameOf s) n).text = n := by
  obtain ⟨hkind, hmem⟩ := h.of_mention hm
  have hpayload := Token.payload_of_text_ne (htext ▸ hnames m.name hmem hkind)
  rw [htext, h.text_of_means hw hS hm hmeans] at hpayload
  rw [Token.respell_of_mem hpayload (hplace ▸ (h.mem_placesOf hw hm).mpr hmeans)]
  rfl

/-- Respelling the tokens at which a symbol is mentioned respells its declaration and no other
one. -/
theorem respells : S.Respells s n (Token.respell (q.placesOf S s) (S.nameOf s) n) where
  toRelabels := Token.relabels_respell _ _ n
  free := h.isFree hn
  text {i b k} hb htext hplace := by
    obtain ⟨k', hk', htext', hplace'⟩ := h.exists_declares hb
    split
    next hi =>
      have hmeans : (Mention.declares k').Means S s := by
        rw [Mention.Means, ← hi, hb, Option.map_some, hplace']
      exact h.text_respell hw hS hnames hk' hmeans (htext.trans htext'.symm)
        (hplace.trans hplace'.symm)
    next hi =>
      rw [Token.respell_of_not_mem]
      intro hchosen
      have hmentioned := h.mem_placesOf hw (s := s) hk'
      rw [Mention.place, Mention.name, hplace', ← hplace] at hmentioned
      obtain ⟨a, ha, ha'⟩ := Option.map_eq_some_iff.mp (hmentioned.mp hchosen)
      exact hi (h.eq_of_place_eq hw hb ha (hplace'.symm.trans ha'.symm))

theorem lookup_respelled {k : Token} {c : Option ScopeId} (hm : .uses k c ∈ q.mentions)
    {d : ScopeId} (hd : c = some d) :
    (S.rename s n).lookup d (k.respell (q.placesOf S s) (S.nameOf s) n).text k.place =
      S.lookup d k.text k.place := by
  have hfree := h.isFree hn
  obtain ⟨hkind, hmem⟩ := h.of_mention hm
  have hmeans : (Mention.uses k c).Means S s ↔ S.lookup d k.text k.place = some s := by
    rw [Mention.Means, hd, Option.bind_some]
  by_cases hlookup : S.lookup d k.text k.place = some s
  · rw [h.text_respell (k := k) hw hS hnames hm (hmeans.mpr hlookup) rfl rfl, hlookup]
    exact ScopeTree.lookup_rename_self hS hfree hlookup
  · have hkept : k.place ∉ q.placesOf S s := fun hchosen =>
      hlookup (hmeans.mp ((h.mem_placesOf hw hm).mp hchosen))
    rw [Token.respell_of_not_mem hkept]
    exact ScopeTree.lookup_rename_of_ne hS hfree (hn k hmem hkind) hlookup

theorem keepsMeaning : (Node.decls q.decls).Everywhere
    (Node.KeepsMeaning S (S.rename s n) (Token.respell (q.placesOf S s) (S.nameOf s) n)) := by
  intro b hb
  unfold Node.KeepsMeaning
  split
  next e =>
    intro k hk c hc
    have hm : .uses k e.scope ∈ q.mentions :=
      List.mem_flatMap.mpr ⟨_, hb, List.mem_map.mpr ⟨k, Option.mem_toList.mpr hk, rfl⟩⟩
    exact h.lookup_respelled hw hS hn hnames hm hc
  next site k g e finish =>
    have hrespells := h.respells hw hS hn hnames (s := s)
    obtain ⟨c, i, b, hc, hi, hb, htext, hplace⟩ := h.exists_own hb
    rw [Site.ownSymbol?, Site.ownSymbol?, hc, Option.bind_some, Option.bind_some, hi]
    exact (ScopeTree.local?_rename hS hrespells.free).mpr
      ⟨k.text, hi, hrespells.text hb htext hplace⟩
  next => trivial

theorem means_respelled (hm : m ∈ q.mentions) (i : SymbolId) :
    (m.map (Token.respell (q.placesOf S s) (S.nameOf s) n)).Means (S.rename s n) i ↔
      m.Means S i := by
  have hf := Token.relabels_respell (q.placesOf S s) (S.nameOf s) n
  cases m with
  | declares k =>
    simp only [Mention.map, Mention.Means, hf.place, ScopeTree.symbol?_rename, Option.map_map]
    cases S.symbol? i with
    | none => exact Iff.rfl
    | some b => by_cases hi : i = s <;> simp [hi, Symbol.rename]
  | uses k c =>
    cases c with
    | none => exact Iff.rfl
    | some d =>
      simp only [Mention.map, Mention.Means, Option.bind_some, hf.place,
        h.lookup_respelled hw hS hn hnames hm rfl]

end Scoped

end Program

section Likeness

variable {R : Position → Position → Prop} {M : TypeId → TypeId → Prop} {S S' : ScopeTree}
  {m m' : Mention}

/-- Mentions of like names in the same scope. -/
inductive Mention.Like (R : Position → Position → Prop) : Mention → Mention → Prop
  | declares {k k' : Token} : k.Like R k' → Like R (.declares k) (.declares k')
  | uses {k k' : Token} (c : Option ScopeId) : k.Like R k' → Like R (.uses k c) (.uses k' c)

theorem Node.Like.mentions {a a' : Node} (h : a.Like R M a') :
    List.Forall₂ (Mention.Like R) (a.nodes.flatMap Node.mentions)
      (a'.nodes.flatMap Node.mentions) := by
  have hparams {ks ks' : List Token} (h : List.Forall₂ (Token.Like R) ks ks') :
      List.Forall₂ (Mention.Like R) (ks.map .declares) (ks'.map .declares) :=
    List.rel_map (fun _ _ => .declares) h
  induction h with
  | @leaf s s' form k k' hs hk =>
    have hlike : (Expr.leaf s form k).Like R M (.leaf s' form k') := .leaf hs hk
    have hname := hlike.name?
    have hscope : s.scope = s'.scope := hs.scope
    simp only [Node.nodes, Expr.nodes, List.flatMap_cons, List.flatMap_nil, List.append_nil,
      Node.mentions, Expr.scope, Expr.site, hscope]
    generalize (Expr.leaf s form k).name? = x, (Expr.leaf s' form k').name? = x' at hname
    cases hname with
    | none => exact .nil
    | some hk => exact .cons (.uses _ hk) .nil
  | noExpr | noStmt | noDecl => exact .nil
  | unary _ _ _ ih | block _ _ ih | result _ _ ih | evaluated _ _ ih | declared _ _ ih => exact ih
  | binary _ _ _ _ iha ihb | call _ _ _ iha ihb | ifThen _ _ _ iha ihb
  | moreExprs _ _ iha ihb | assigned _ _ _ iha ihb | moreStmts _ _ iha ihb
  | moreDecls _ _ iha ihb =>
    simp only [Node.nodes, Expr.nodes, Expr.nodesOfAll, Stmt.nodes, Stmt.nodesOfAll,
      List.flatMap_cons, List.flatMap_append, Node.mentions, Expr.name?, Option.toList_none,
      List.map_nil, List.nil_append] at iha ihb ⊢
    exact List.rel_append iha ihb
  | ifElse _ _ _ _ iha ihb ihc =>
    simp only [Node.nodes, Expr.nodes, List.flatMap_cons, List.flatMap_append, Node.mentions,
      Expr.name?, Option.toList_none, List.map_nil, List.nil_append] at iha ihb ihc ⊢
    exact List.rel_append iha (List.rel_append ihb ihc)
  | var _ hn _ _ _ ih =>
    simp only [Node.nodes, Decl.nodes, List.flatMap_append, List.flatMap_singleton,
      Node.mentions] at ih ⊢
    exact List.rel_append ih (.cons (.declares hn) .nil)
  | fn _ hn _ hps _ ih =>
    simp only [Node.nodes, Decl.nodes, List.flatMap_cons, Node.mentions] at ih ⊢
    exact List.rel_append (hparams (.cons hn hps)) ih

theorem Mention.Like.means_iff (h : m.Like R m') (hR : KeepsOrder R) (hS : S.Like R S')
    (s : SymbolId) : m.Means S s ↔ m'.Means S' s := by
  cases h with
  | declares hk =>
    have hs := hS.symbol? s
    simp only [Means]
    generalize S.symbol? s = x, S'.symbol? s = x' at hs
    cases hs with
    | none => simp
    | some ha =>
      simp only [Option.map_some, Option.some.injEq]
      exact hR.eq_iff ha.place hk.place
  | uses c hk =>
    cases c with
    | none => exact Iff.rfl
    | some c => simp only [Means, Option.bind_some, hS.lookup_eq hR c _ hk.place, hk.text]

end Likeness

end FrontEnd
