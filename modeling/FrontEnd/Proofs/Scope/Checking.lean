import FrontEnd.Proofs.Token.Places
import FrontEnd.Proofs.Scope.Visibility

/-! The names that a scope shows at a place are the ones that can be used there. -/

namespace FrontEnd

namespace ScopeTree

/-- At the place the name means a symbol that is not pending. -/
def Shows (F : ScopeTree) (P : List SymbolId) (c : ScopeId) (q : Position) (n : String) : Prop :=
  ∃ s, F.lookup c n q = some s ∧ s ∉ P

/-- What is pending in a scope is bound there or further out. -/
def Pending (F : ScopeTree) (c : ScopeId) (P : List SymbolId) : Prop :=
  ∀ s ∈ P, ∃ d n, F.local? d n = some s ∧ d.index ≤ c.index

/-- The scope has the name, for a symbol that is seen from the place of one of the tokens. -/
def Declares (F : ScopeTree) (c : ScopeId) (g : Bool) (w : List Token) (n : String) : Prop :=
  ∃ s a, F.local? c n = some s ∧ F.symbol? s = some a ∧ a.isGlobal = g ∧
    ∃ t ∈ w, a.visibleFrom = t.place

variable {F : ScopeTree} {P : List SymbolId} {c d : ScopeId} {g : Bool} {w v : List Token}
  {n : String} {q : Position} {s : SymbolId} {a : Symbol}

theorem Declares.mono (h : F.Declares c g w n) (hw : w ⊆ v) : F.Declares c g v n := by
  obtain ⟨s, a, hs, ha, hg, t, ht, hplace⟩ := h
  exact ⟨s, a, hs, ha, hg, t, hw ht, hplace⟩

theorem visible?_isSome (hs : F.local? c n = some s) (ha : F.symbol? s = some a) :
    (F.visible? c n q).isSome ↔ a.visibleAt q = true := by
  rw [Option.isSome_iff_exists]
  constructor
  · rintro ⟨s', h⟩
    obtain ⟨hs', a', ha', hat⟩ := visible?_eq_some.mp h
    obtain rfl := Option.some.inj (hs.symm.trans hs')
    obtain rfl := Option.some.inj (ha.symm.trans ha')
    exact hat
  · exact fun hat => ⟨s, visible?_eq_some.mpr ⟨hs, a, ha, hat⟩⟩

theorem Declares.visible_of_global (h : F.Declares c true w n) : (F.visible? c n q).isSome := by
  obtain ⟨s, a, hs, ha, hg, _⟩ := h
  exact (visible?_isSome hs ha).mpr (by simp [Symbol.visibleAt, hg])

theorem Declares.visible_behind (h : F.Declares c g w n) (hq : ∀ t ∈ w, t.place < q) :
    (F.visible? c n q).isSome := by
  obtain ⟨s, a, hs, ha, _, t, ht, hplace⟩ := h
  have hlt : a.visibleFrom < q := hplace ▸ hq t ht
  exact (visible?_isSome hs ha).mpr (by simp [Symbol.visibleAt, hlt])

theorem Declares.not_visible_before (h : F.Declares c false w n) (hq : ∀ t ∈ w, q < t.place) :
    ¬ (F.visible? c n q).isSome := by
  obtain ⟨s, a, hs, ha, hg, t, ht, hplace⟩ := h
  have hlt : ¬ a.visibleFrom < q := hplace ▸ Position.lt_asymm (hq t ht)
  rw [visible?_isSome hs ha]
  simp [Symbol.visibleAt, hg, hlt]

theorem Pending.mono (h : F.Pending c P) (hd : c.index ≤ d.index) : F.Pending d P := by
  intro s hs
  obtain ⟨a, n, ha, hle⟩ := h s hs
  exact ⟨a, n, ha, Nat.le_trans hle hd⟩

theorem Pending.not_mem (hF : F.WellFormed) (h : F.Pending c P) (hd : F.parent? d = some c)
    (hs : F.local? d n = some s) : s ∉ P := by
  intro hmem
  obtain ⟨a, m, ha, hle⟩ := h s hmem
  have heq := hF.unique hs ha
  have hlt := hF.parent_lt hd
  subst heq
  omega

theorem shows_child (hF : F.WellFormed) (hP : F.Pending c P) (hd : F.parent? d = some c) :
    F.Shows P d q n ↔ (F.visible? d n q).isSome ∨ F.Shows P c q n := by
  cases hv : F.visible? d n q with
  | none =>
    have hlookup := lookup_of_parent hF hd hv
    simp [Shows, hlookup]
  | some s =>
    have hmem := hP.not_mem hF hd (visible?_eq_some.mp hv).1
    have hshows : F.Shows P d q n := ⟨s, lookup_of_visible hv, hmem⟩
    simp [hshows]

theorem shows_root (hc : F.parent? c = none) : F.Shows [] c q n ↔ (F.visible? c n q).isSome := by
  simp [Shows, lookup_of_root hc, Option.isSome_iff_exists]

theorem shows_cons : F.Shows (s :: P) c q n ↔ F.Shows P c q n ∧ F.lookup c n q ≠ some s := by
  constructor
  · rintro ⟨s', hs', hmem⟩
    obtain ⟨hne, hmem⟩ := not_or.mp (mt List.mem_cons.mpr hmem)
    refine ⟨⟨s', hs', hmem⟩, fun h => hne ?_⟩
    exact Option.some.inj (hs'.symm.trans h)
  · rintro ⟨⟨s', hs', hmem⟩, hne⟩
    refine ⟨s', hs', fun h => ?_⟩
    rcases List.mem_cons.mp h with rfl | h
    · exact hne hs'
    · exact hmem h

/-- What the scope shows at the tokens `w`: the names `Γ`, and with them, unless they are global,
the names `ns` from the place on where they are seen. -/
def Sees (F : ScopeTree) (P : List SymbolId) (c : ScopeId) (g : Bool) (w : List Token)
    (ns Γ : List String) : Prop :=
  ∀ t ∈ w, ∀ n, F.Shows P c t.place n ↔
    n ∈ Γ ∨ g = false ∧ n ∈ ns ∧ (F.visible? c n t.place).isSome

variable {ns ms Γ : List String}

theorem Sees.mono (h : F.Sees P c g w ns Γ) (hv : v ⊆ w) : F.Sees P c g v ns Γ :=
  fun t ht => h t (hv ht)

theorem sees_nil : F.Sees P c g w [] Γ ↔ ∀ t ∈ w, ∀ n, F.Shows P c t.place n ↔ n ∈ Γ := by
  simp [Sees]

theorem sees_global : F.Sees P c true w ns Γ ↔ F.Sees P c true w [] Γ := by
  simp [Sees]

theorem Sees.before (h : F.Sees P c g w (ns ++ ms) Γ)
    (hms : ∀ m ∈ ms, F.Declares c g v m) (hwv : ∀ t ∈ w, ∀ u ∈ v, t.place < u.place) :
    F.Sees P c g w ns Γ := by
  cases g with
  | true => exact sees_global.mpr (sees_global.mp h)
  | false =>
    intro t ht n
    have hiff := h t ht n
    have hms : n ∈ ms → ¬ (F.visible? c n t.place).isSome :=
      fun hn => (hms n hn).not_visible_before (hwv t ht)
    by_cases hn : n ∈ ms
    · simp [hiff, hms hn]
    · simp [hiff, hn]

theorem Sees.behind (h : F.Sees P c g v (ns ++ ms) Γ)
    (hns : ∀ n ∈ ns, F.Declares c g w n) (hwv : ∀ t ∈ w, ∀ u ∈ v, t.place < u.place) :
    F.Sees P c g v ms (if g then Γ else ns ++ Γ) := by
  cases g with
  | true => exact sees_global.mpr (sees_global.mp h)
  | false =>
    intro t ht n
    have hiff := h t ht n
    have hns : n ∈ ns → (F.visible? c n t.place).isSome :=
      fun hn => (hns n hn).visible_behind fun u hu => hwv u hu t ht
    by_cases hn : n ∈ ns
    · simp [hiff, hn, hns hn]
    · simp [hiff, hn]

end ScopeTree

def Node.names : Node → List String
  | .stmt s => s.declared
  | .stmts ss => ss.flatMap Stmt.declared
  | .decl d => [d.name.text]
  | .decls ds => ds.map fun d => d.name.text
  | _ => []

theorem Placed.declares {F : ScopeTree} {T : TypeTable} {c : ScopeId} {g : Bool} {w : List Token}
    {a : Node} (h : Placed F T c g w a) : ∀ n ∈ a.names, F.Declares c g w n := by
  induction h with
  | among hw _ ih => exact fun n hn => (ih n hn).mono hw.subset
  | literal | binary | unary | call | block | ifThen | ifElse | result | noExpr | moreExprs
  | evaluated | assigned | noStmt | noDecl => exact fun n hn => nomatch hn
  | declared _ ih => exact ih
  | moreStmts _ _ ih ih' =>
    intro n hn
    rcases List.mem_append.mp hn with hn | hn
    · exact (ih n hn).mono (List.subset_append_left _ _)
    · exact (ih' n hn).mono (List.subset_append_right _ _)
  | moreDecls _ _ ih ih' =>
    intro n hn
    rcases List.mem_cons.mp hn with rfl | hn
    · exact (ih _ (List.mem_singleton_self _)).mono (List.subset_append_left _ _)
    · exact (ih' n hn).mono (List.subset_append_right _ _)
  | @var c g site n f t w e hs hn _ _ =>
    intro m hm
    obtain rfl := List.mem_singleton.mp hm
    obtain ⟨s, hs, ha⟩ := hn
    exact ⟨s, _, hs, ha, rfl, f, by simp, rfl⟩
  | @fn c d g site n t ps w e hn _ _ _ _ _ =>
    intro m hm
    obtain rfl := List.mem_singleton.mp hm
    obtain ⟨s, hs, ha⟩ := hn
    exact ⟨s, _, hs, ha, rfl, n, by simp, rfl⟩

def Node.Found (F : ScopeTree) (P : List SymbolId) : Node → Prop
  | .expr e => e.checkNames F P = .ok ()
  | .exprs es => Expr.checkAllNames F P es = .ok ()
  | .stmt s => s.checkNames F P = .ok ()
  | .stmts ss => Stmt.checkAllNames F P ss = .ok ()
  | .decl d => d.checkNames F P = .ok ()
  | _ => True

def Node.Resolves (g : Bool) (Γ : List String) : Node → Prop
  | .expr e => e.Resolves g Γ
  | .exprs es => Expr.AllResolve g Γ es
  | .stmt s => s.Resolves g Γ
  | .stmts ss => Stmt.AllResolve g Γ ss
  | .decl d => d.Resolves g Γ
  | _ => True

section Found

open ScopeTree

variable {F : ScopeTree} {T : TypeTable} {c : ScopeId} {g : Bool} {w : List Token} {a : Node}

/-- A block opens a scope that sees what its parent sees and, sooner or later, its own names. -/
theorem ScopeTree.Sees.block (hF : F.WellFormed) {P : List SymbolId} {d : ScopeId}
    {ns Γ : List String} (hP : F.Pending c P) (hd : F.Inside d c ns)
    (hns : ∀ n ∈ ns, F.Declares d g w n) (h : F.Sees P c g w [] Γ) :
    F.Sees P d g w ns (if g then ns ++ Γ else Γ) := by
  intro t ht n
  have houter := sees_nil.mp h t ht n
  have hmem : (F.visible? d n t.place).isSome → n ∈ ns := by
    intro hv
    refine Decidable.byContradiction fun hn => ?_
    rw [visible?_eq_none_of_local? (hd.2 n hn)] at hv
    exact nomatch hv
  rw [shows_child hF hP hd.1, houter]
  cases g with
  | true =>
    have hvisible : n ∈ ns → (F.visible? d n t.place).isSome :=
      fun hn => (hns n hn).visible_of_global
    simp only [if_true, List.mem_append]
    constructor
    · rintro (hv | hn)
      · exact .inl (.inl (hmem hv))
      · exact .inl (.inr hn)
    · rintro ((hn | hn) | ⟨hfalse, _⟩)
      · exact .inl (hvisible hn)
      · exact .inr hn
      · exact nomatch hfalse
  | false =>
    simp only [Bool.false_eq_true, if_false]
    constructor
    · rintro (hv | hn)
      · exact .inr ⟨trivial, hmem hv, hv⟩
      · exact .inl hn
    · rintro (hn | ⟨_, _, hv⟩)
      · exact .inr hn
      · exact .inl hv

/-- In its own initial value a variable that is seen nowhere yet changes nothing; one that is seen
everywhere hides its name. -/
theorem ScopeTree.Sees.initial (hF : F.WellFormed) {P : List SymbolId} {n f : Token} {b : Symbol}
    {s : SymbolId} {Γ : List String} (hs : F.local? c n.text = some s)
    (hb : F.symbol? s = some b) (hg : b.isGlobal = g) (hf : b.visibleFrom = f.place)
    (hw : ∀ t ∈ w, t.place < f.place) (h : F.Sees P c g w [n.text] Γ) :
    F.Sees (s :: P) c g w [] (if g then Γ.filter (· ≠ n.text) else Γ) := by
  refine sees_nil.mpr fun t ht m => ?_
  rw [shows_cons]
  cases g with
  | true =>
    have hlookup : F.lookup c m t.place ≠ some s ↔ m ≠ n.text := by
      refine not_congr ⟨fun hm => ?_, fun hm => ?_⟩
      · obtain ⟨d, hd⟩ := exists_visible?_of_lookup hm
        exact hF.name_eq (visible?_eq_some.mp hd).1 hs
      · subst hm
        exact lookup_of_visible (visible?_eq_some.mpr ⟨hs, b, hb, by simp [Symbol.visibleAt, hg]⟩)
    have hiff := sees_nil.mp (sees_global.mp h) t ht m
    rw [hlookup, hiff]
    simp [List.mem_filter]
  | false =>
    have hbefore : ¬ b.visibleAt t.place = true := by
      have hlt : ¬ b.visibleFrom < t.place := hf ▸ Position.lt_asymm (hw t ht)
      simp [Symbol.visibleAt, hg, hlt]
    have hlookup : F.lookup c m t.place ≠ some s := by
      intro hm
      obtain ⟨d, hd⟩ := exists_visible?_of_lookup hm
      obtain ⟨_, b', hb', hat⟩ := visible?_eq_some.mp hd
      obtain rfl := Option.some.inj (hb.symm.trans hb')
      exact hbefore hat
    have hiff := h t ht m
    have hown : m ∈ [n.text] → ¬ (F.visible? c m t.place).isSome := by
      intro hm
      obtain rfl := List.mem_singleton.mp hm
      rwa [visible?_isSome hs hb]
    simp only [Bool.false_eq_true, if_false]
    constructor
    · rintro ⟨hshows, _⟩
      rcases hiff.mp hshows with hm | ⟨_, hm, hv⟩
      · exact hm
      · exact absurd hv (hown hm)
    · exact fun hm => ⟨hiff.mpr (.inl hm), hlookup⟩

/-- The body of a function sees the parameters, the function, and what is seen around it. -/
theorem ScopeTree.Sees.body (hF : F.WellFormed) {P : List SymbolId} {d : ScopeId} {n : Token}
    {ps : List Token} {Γ : List String} (hP : F.Pending c P)
    (hn : F.Declares c g [n] n.text) (hd : F.Inside d c (ps.map Token.text))
    (hps : ∀ p ∈ ps, F.Declares d false [p] p.text) (hnw : ∀ t ∈ w, n.place < t.place)
    (hpw : ∀ p ∈ ps, ∀ t ∈ w, p.place < t.place) (h : F.Sees P c g w [n.text] Γ) :
    F.Sees P d false w [] (ps.map Token.text ++ if g then Γ else n.text :: Γ) := by
  refine sees_nil.mpr fun t ht m => ?_
  have hsplit : F.Sees P c g w ([n.text] ++ []) Γ := h
  have hfn : F.Sees P c g w [] (if g then Γ else [n.text] ++ Γ) := by
    refine hsplit.behind (w := [n]) ?_ ?_
    · intro m hm
      obtain rfl := List.mem_singleton.mp hm
      exact hn
    · intro u hu t ht
      obtain rfl := List.mem_singleton.mp hu
      exact hnw t ht
  have hparam : (F.visible? d m t.place).isSome ↔ m ∈ ps.map Token.text := by
    constructor
    · intro hv
      refine Decidable.byContradiction fun hm => ?_
      rw [visible?_eq_none_of_local? (hd.2 m hm)] at hv
      exact nomatch hv
    · intro hm
      obtain ⟨p, hp, rfl⟩ := List.mem_map.mp hm
      refine (hps p hp).visible_behind fun u hu => ?_
      obtain rfl := List.mem_singleton.mp hu
      exact hpw u hp t ht
  rw [shows_child hF hP hd.1, hparam, sees_nil.mp hfn t ht m, List.mem_append]
  rfl

/-- The checks find the names of a node exactly if they can be used where they stand. -/
theorem Placed.found_iff (hF : F.WellFormed) (h : Placed F T c g w a) :
    w.Pairwise (fun t u => t.place < u.place) → ∀ P Γ, F.Pending c P → F.Sees P c g w a.names Γ →
      (a.Found F P ↔ a.Resolves g Γ) := by
  induction h with
  | among hv _ ih =>
    exact fun hw P Γ hP hs => ih (hw.sublist hv) P Γ hP (hs.mono hv.subset)
  | @literal c g site t hsite _ =>
    intro _ P Γ _ hs
    have hseen := sees_nil.mp hs t (List.mem_singleton_self t)
    have hname : ∀ k ∈ (Expr.leaf site .literal t).name?,
        ((∃ s, F.Names site.toSite k s ∧ s ∉ P) ↔ k.text ∈ Γ) := by
      intro k hk
      obtain rfl : k = t := by
        by_cases hkind : t.kind = .identifier
        · simpa [Expr.name?, hkind, eq_comm] using hk
        · simp [Expr.name?, hkind] at hk
      rw [← hseen]
      simp [Shows, Names, hsite]
    simp only [Node.Found, Expr.checkNames, Node.Resolves, Expr.Resolves, bind_eq_ok, pure_eq_ok,
      Expr.checkName_eq_ok]
    simpa [Expr.site] using forall₂_congr hname
  | binary _ _ iha ihb | ifThen _ _ iha ihb | call _ _ iha ihb =>
    intro hw P Γ hP hs
    obtain ⟨hwa, hwb, _⟩ := List.pairwise_append.mp hw
    have ha := iha hwa P Γ hP (hs.mono (List.subset_append_left _ _))
    have hb := ihb hwb P Γ hP (hs.mono (List.subset_append_right _ _))
    simp only [Node.Found, Node.Resolves] at ha hb ⊢
    simp [Expr.checkNames, Expr.Resolves, bind_eq_ok, Expr.checkName, Expr.name?, ha, hb]
  | ifElse _ _ _ iha ihb ihe =>
    intro hw P Γ hP hs
    obtain ⟨hwa, hwbe, _⟩ := List.pairwise_append.mp hw
    obtain ⟨hwb, hwe, _⟩ := List.pairwise_append.mp hwbe
    have hsbe := hs.mono (List.subset_append_right _ _)
    have ha := iha hwa P Γ hP (hs.mono (List.subset_append_left _ _))
    have hb := ihb hwb P Γ hP (hsbe.mono (List.subset_append_left _ _))
    have he := ihe hwe P Γ hP (hsbe.mono (List.subset_append_right _ _))
    simp only [Node.Found, Node.Resolves] at ha hb he ⊢
    simp [Expr.checkNames, Expr.Resolves, bind_eq_ok, Expr.checkName, Expr.name?, ha, hb, he]
  | unary _ ih | result _ ih =>
    intro hw P Γ hP hs
    have he := ih hw P Γ hP hs
    simp only [Node.Found, Node.Resolves] at he ⊢
    simp [Expr.checkNames, Expr.Resolves, bind_eq_ok, Expr.checkName, Expr.name?, he]
  | block hd h ih =>
    intro hw P Γ hP hs
    have hinner := ih hw P _ (hP.mono (Nat.le_of_lt (hF.parent_lt hd.1)))
      (hs.block hF hP hd h.declares)
    simp only [Node.Found, Node.Resolves, Node.names] at hinner ⊢
    simp [Expr.checkNames, Expr.Resolves, bind_eq_ok, Expr.checkName, Expr.name?, hinner]
  | noExpr =>
    intro _ P Γ _ _
    simp [Node.Found, Node.Resolves, Expr.checkAllNames, Expr.AllResolve, pure_eq_ok]
  | noStmt =>
    intro _ P Γ _ _
    simp [Node.Found, Node.Resolves, Stmt.checkAllNames, Stmt.AllResolve, pure_eq_ok]
  | noDecl | moreDecls => exact fun _ P Γ _ _ => Iff.rfl
  | moreExprs _ _ ih ih' =>
    intro hw P Γ hP hs
    obtain ⟨hwe, hwes, _⟩ := List.pairwise_append.mp hw
    have he := ih hwe P Γ hP (hs.mono (List.subset_append_left _ _))
    have hes := ih' hwes P Γ hP (hs.mono (List.subset_append_right _ _))
    simp only [Node.Found, Node.Resolves] at he hes ⊢
    simp [Expr.checkAllNames, Expr.AllResolve, bind_eq_ok, he, hes]
  | evaluated _ ih | declared _ ih =>
    intro hw P Γ hP hs
    have he := ih hw P Γ hP hs
    simp only [Node.Found, Node.Resolves] at he ⊢
    simp [Stmt.checkNames, Stmt.Resolves, he]
  | assigned _ _ _ ihl ihe =>
    intro hw P Γ hP hs
    obtain ⟨hwl, hwe, _⟩ := List.pairwise_append.mp hw
    have hl := ihl hwl P Γ hP (hs.mono (List.subset_append_left _ _))
    have he := ihe hwe P Γ hP (hs.mono (List.subset_append_right _ _))
    simp only [Node.Found, Node.Resolves] at hl he ⊢
    simp [Stmt.checkNames, Stmt.Resolves, bind_eq_ok, hl, he]
  | moreStmts h h' ih ih' =>
    -- what the later statements declare is seen from places behind the first one only
    intro hw P Γ hP hs
    obtain ⟨hws, hwss, hlt⟩ := List.pairwise_append.mp hw
    have hfirst := ih hws P Γ hP ((hs.mono (List.subset_append_left _ _)).before h'.declares hlt)
    have hrest := ih' hwss P _ hP
      ((hs.mono (List.subset_append_right _ _)).behind h.declares hlt)
    simp only [Node.Found, Node.Resolves] at hfirst hrest ⊢
    simp [Stmt.checkAllNames, Stmt.AllResolve, bind_eq_ok, hfirst, hrest]
  | @var c g site n f t w e hsite hn h ih =>
    intro hw P Γ hP hs
    obtain ⟨s, hs', ha⟩ := hn
    obtain ⟨_, hw⟩ := List.pairwise_cons.mp hw
    obtain ⟨hwe, _, hlt⟩ := List.pairwise_append.mp hw
    -- the variable is pending inside, which matters only if it is global
    have hown : site.ownSymbol? F n = some s := by rw [Site.ownSymbol?, hsite]; exact hs'
    have hpending : F.Pending c (s :: P) :=
      List.forall_mem_cons.mpr ⟨⟨c, n.text, hs', Nat.le_refl _⟩, hP⟩
    have hsub : w ⊆ n :: (w ++ [f]) := fun t ht => by simp [ht]
    have hinitial := (hs.mono hsub).initial hF hs' ha rfl rfl fun t ht => hlt t ht f (by simp)
    have he := ih hwe (s :: P) _ hpending hinitial
    simp only [Node.Found, Node.Resolves] at he ⊢
    simp [Decl.checkNames, Decl.Resolves, hown, he]
  | @fn c d g site n t ps w e hn ht hd hps h ih =>
    intro hw P Γ hP hs
    obtain ⟨hnlt, hw⟩ := List.pairwise_cons.mp hw
    obtain ⟨_, hwe, hlt⟩ := List.pairwise_append.mp hw
    obtain ⟨s, hs', ha⟩ := hn
    have hdeclares : F.Declares c g [n] n.text := ⟨s, _, hs', ha, rfl, n, by simp, rfl⟩
    have hparams : ∀ p ∈ ps, F.Declares d false [p] p.text := by
      intro p hp
      obtain ⟨u, s, hs, hb⟩ := hps p hp
      exact ⟨s, _, hs, hb, rfl, p, by simp, rfl⟩
    have hsub : w ⊆ n :: (ps ++ w) := fun t ht => by simp [ht]
    have hbody := (hs.mono hsub).body hF hP hdeclares hd hparams
      (fun t ht => hnlt t (by simp [ht])) hlt
    have he := ih hwe P _ (hP.mono (Nat.le_of_lt (hF.parent_lt hd.1))) hbody
    simp only [Node.Found, Node.Resolves] at he ⊢
    simp [Decl.checkNames, Decl.Resolves, he]

end Found

end FrontEnd
