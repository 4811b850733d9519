import FrontEnd.Proofs.Scope.Appending
import FrontEnd.Proofs.Scope.InRange
import FrontEnd.Proofs.Syntax.Headings
import FrontEnd.Proofs.Syntax.Outlines

/-! The text of an outline tells the tree. The text is read from its front: the lines of a node end
where the text is indented less than they are, and until then every line tells itself, whatever a
string in it looks like. -/

namespace FrontEnd

def OutlineLine.spelled (ls : List OutlineLine) : List Char := ls.flatMap fun l => l.shown.toList

def Dedented (k : Nat) (cs : List Char) : Prop := ¬ List.replicate k '\t' <+: cs

/-- Where less than `k` tabs follow, the text of the lines `ls` and `ls'` with all that stands
behind them can only be the same if `Q` holds, and if what stands behind them is the same. -/
def LinesTell (k : Nat) (ls ls' : List OutlineLine) (Q : Prop) : Prop :=
  ∀ cs cs', Dedented k cs → Dedented k cs' →
    OutlineLine.spelled ls ++ cs = OutlineLine.spelled ls' ++ cs' → Q ∧ cs = cs'

/-- Behind these lines or in them the text is indented by less than `k` tabs if behind them it is
indented by less than `m`. -/
def Follows (k m : Nat) (ls : List OutlineLine) : Prop :=
  ∀ cs, Dedented m cs → Dedented k (OutlineLine.spelled ls ++ cs)

section Text

variable {k m d : Nat} {l : OutlineLine} {ls ls' us us' : List OutlineLine} {t t' : String}
  {P Q : Prop} {cs : List Char}

open OutlineLine (spelled)

theorem spelled_cons (l : OutlineLine) (ls : List OutlineLine) (cs : List Char) :
    spelled (l :: ls) ++ cs =
      List.replicate l.depth '\t' ++ (l.text.toList ++ '\n' :: (spelled ls ++ cs)) := by
  simp [spelled, OutlineLine.shown, String.toList_append]

theorem spelled_append (ls us : List OutlineLine) : spelled (ls ++ us) = spelled ls ++ spelled us :=
  List.flatMap_append

theorem replicate_prefix_replicate (h : k ≤ m) :
    List.replicate k '\t' <+: List.replicate m '\t' :=
  ⟨List.replicate (m - k) '\t', by rw [← List.replicate_add, Nat.add_sub_cancel' h]⟩

theorem Dedented.mono (h : Dedented k cs) (hkm : k ≤ m) : Dedented m cs :=
  fun hm => h ((replicate_prefix_replicate hkm).trans hm)

theorem dedented_nil (k : Nat) : Dedented (k + 1) [] := by
  simp [Dedented, List.replicate_succ]

theorem not_dedented (h : k ≤ d) (cs : List Char) :
    ¬ Dedented k (List.replicate d '\t' ++ cs) :=
  fun hd => hd ((replicate_prefix_replicate h).trans (List.prefix_append _ _))

theorem not_dedented_cons (h : k ≤ l.depth) : ¬ Dedented k (spelled (l :: ls) ++ cs) := by
  rw [spelled_cons]
  exact not_dedented h _

theorem head?_append_ne_tab {w : String} {c : Char} {cs : List Char} (hw : w.toList = c :: cs)
    (hc : c ≠ '\t') (u : String) : (w ++ u).toList.head? ≠ some '\t' := by
  rw [String.toList_append, hw]
  exact fun he => hc (Option.some.inj he)

theorem follows_nil (h : m ≤ k) : Follows k m [] := fun _ hcs => hcs.mono h

/-- A line under less than `k` tabs ends what stands under `k` of them. -/
theorem follows_cons (ht : t.toList.head? ≠ some '\t') (hd : d < k) :
    Follows k m (⟨d, t⟩ :: ls) := by
  intro cs _ hp
  rw [spelled_cons] at hp
  obtain ⟨n, rfl⟩ : ∃ n, k = d + (n + 1) := ⟨k - d - 1, by omega⟩
  rw [List.replicate_add, List.prefix_append_right_inj, List.replicate_succ] at hp
  cases hl : t.toList with
  | nil =>
    rw [hl] at hp
    exact absurd (List.cons_prefix_cons.mp hp).1 (by decide)
  | cons c ds =>
    rw [hl] at hp ht
    exact ht (congrArg some (List.cons_prefix_cons.mp hp).1.symm)

namespace LinesTell

theorem nil (k : Nat) : LinesTell k [] [] True := fun _ _ _ _ h => ⟨trivial, h⟩

theorem weaken (h : LinesTell m ls ls' Q) (hk : k ≤ m) : LinesTell k ls ls' Q :=
  fun cs cs' hcs hcs' => h cs cs' (hcs.mono hk) (hcs'.mono hk)

theorem imp (h : LinesTell k ls ls' P) (hPQ : P → Q) : LinesTell k ls ls' Q :=
  fun cs cs' hcs hcs' he => (h cs cs' hcs hcs' he).imp_left hPQ

theorem cons (hl : LineTells t t' P) (h : P → LinesTell k ls ls' Q) :
    LinesTell k (⟨d, t⟩ :: ls) (⟨d, t'⟩ :: ls') (P ∧ Q) := by
  intro cs cs' hcs hcs' he
  rw [spelled_cons, spelled_cons] at he
  obtain ⟨hP, hrest⟩ := hl _ _ (List.append_cancel_left he)
  obtain ⟨hQ, heq⟩ := h hP cs cs' hcs hcs' hrest
  exact ⟨⟨hP, hQ⟩, heq⟩

theorem labelled (l : OutlineLine) (h : LinesTell k ls ls' Q) :
    LinesTell k (l :: ls) (l :: ls') Q :=
  (cons (lineTells_self l.text) fun _ => h).imp And.right

theorem append (h : LinesTell k ls ls' P) (hu : Follows k m us) (hu' : Follows k m us')
    (h' : LinesTell m us us' Q) : LinesTell m (ls ++ us) (ls' ++ us') (P ∧ Q) := by
  intro cs cs' hcs hcs' he
  rw [spelled_append, spelled_append, List.append_assoc, List.append_assoc] at he
  obtain ⟨hP, hrest⟩ := h _ _ (hu cs hcs) (hu' cs' hcs') he
  obtain ⟨hQ, heq⟩ := h' cs cs' hcs hcs' hrest
  exact ⟨⟨hP, hQ⟩, heq⟩

theorem parts (t u : String) (hu : u.toList.head? ≠ some '\t')
    (h : LinesTell (d + 2) ls ls' P) (h' : LinesTell (d + 2) us us' Q) :
    LinesTell (d + 2) (⟨d, t⟩ :: ls ++ ⟨d, u⟩ :: us) (⟨d, t⟩ :: ls' ++ ⟨d, u⟩ :: us') (P ∧ Q) :=
  (h.labelled _).append (follows_cons hu (Nat.lt_add_of_pos_right Nat.two_pos))
    (follows_cons hu (Nat.lt_add_of_pos_right Nat.two_pos)) (h'.labelled _)

theorem nil_cons (hd : k ≤ l.depth) : LinesTell k [] (l :: ls) Q := by
  rintro cs cs' hcs - rfl
  exact absurd hcs (not_dedented_cons hd)

theorem cons_nil (hd : k ≤ l.depth) : LinesTell k (l :: ls) [] Q := by
  rintro cs cs' - hcs' rfl
  exact absurd hcs' (not_dedented_cons hd)

end LinesTell

/-- The first of the lines stands under `d` tabs and has the heading. -/
def Begins (h : Heading) (d : Nat) (ls : List OutlineLine) : Prop :=
  ∃ s us, ls = ⟨d, h.words ++ s⟩ :: us

theorem Heading.head?_words (h : Heading) (s : String) :
    (h.words ++ s).toList.head? ≠ some '\t' := by
  have hall : ∀ h ∈ all, ∃ c cs, h.words.toList = c :: cs ∧ c ≠ '\t' := by
    intro h hh
    fin_cases hh <;> exact ⟨_, _, rfl, by decide⟩
  obtain ⟨c, cs, hwords, hc⟩ := hall h h.mem_all
  exact head?_append_ne_tab hwords hc s

theorem Begins.follows {h : Heading} (hb : Begins h d ls) (hd : d < k) : Follows k m ls := by
  obtain ⟨s, us, rfl⟩ := hb
  exact follows_cons (h.head?_words s) hd

/-- Where less than `d` tabs follow, no lines differ from lines that begin under `d` tabs. -/
theorem LinesTell.nil_begins {h : Heading} (hb : Begins h d ls) : LinesTell d [] ls Q := by
  obtain ⟨s, us, rfl⟩ := hb
  exact nil_cons (Nat.le_refl d)

theorem LinesTell.begins_nil {h : Heading} (hb : Begins h d ls) : LinesTell d ls [] Q := by
  obtain ⟨s, us, rfl⟩ := hb
  exact cons_nil (Nat.le_refl d)

theorem LinesTell.of_ne {h h' : Heading} (hb : Begins h d ls) (hb' : Begins h' d ls')
    (hne : h ≠ h') : LinesTell k ls ls' Q := by
  obtain ⟨s, us, rfl⟩ := hb
  obtain ⟨s', us', rfl⟩ := hb'
  intro cs cs' _ _ he
  simp only [spelled_cons, String.toList_append, List.append_assoc] at he
  exact absurd (Heading.append_inj (List.append_cancel_left he)).1 hne

end Text

section Trees

variable {T T' : TypeTable} {e e' : Expr} {d k : Nat} {Q : Prop}

def Expr.heading : Expr → Heading
  | .leaf _ form _ => .leaf form
  | .binary _ form _ _ _ => .binary form
  | .unary _ _ _ => .unary
  | .call _ _ _ => .call
  | .block _ _ => .block
  | .ifThen _ _ _ | .ifElse _ _ _ _ => .conditional
  | .result _ form _ => .result form

def Expr.token? : Expr → Option Token
  | .leaf _ _ k | .binary _ _ k _ _ | .unary _ k _ => some k
  | _ => none

def Decl.heading : Decl → Heading
  | .var _ _ _ _ _ => .var
  | .fn _ _ _ _ _ => .fn

def Stmt.heading : Stmt → Heading
  | .expr _ _ => .evaluated
  | .assign _ _ _ => .assigned
  | .decl _ d => d.heading

/-- The lines below the first line of an expression. -/
def Expr.detail (T : TypeTable) (d : Nat) : Expr → List OutlineLine
  | .leaf _ _ _ => []
  | .binary _ _ _ l r =>
    (⟨d + 1, "LHS:"⟩ :: l.outline T (d + 2)) ++ (⟨d + 1, "RHS:"⟩ :: r.outline T (d + 2))
  | .unary _ _ e => e.outline T (d + 1)
  | .call _ callee args =>
    (⟨d + 1, "Callable:"⟩ :: callee.outline T (d + 2)) ++ Expr.outlineArguments T (d + 1) 0 args
  | .block _ body => Stmt.outlineBody T (d + 1) 0 body
  | .ifThen _ c t =>
    (⟨d + 1, "Condition:"⟩ :: c.outline T (d + 2)) ++
      (⟨d + 1, "Then branch:"⟩ :: t.outline T (d + 2))
  | .ifElse _ c t e =>
    ((⟨d + 1, "Condition:"⟩ :: c.outline T (d + 2)) ++
      (⟨d + 1, "Then branch:"⟩ :: t.outline T (d + 2))) ++
      (⟨d + 1, "Else branch:"⟩ :: e.outline T (d + 2))
  | .result _ _ v => ⟨d + 1, "Value:"⟩ :: v.outline T (d + 2)

/-- The tokens that the lines of a node show are read again from there. -/
def Node.Worded : Node → Prop
  | .expr e => e.heading ≠ .leaf .access ∧ ∀ k ∈ e.token?, k.IsLegible
  | .decl (.var _ n _ _ _) => n.IsName
  | .decl (.fn _ n _ ps _) => n.IsName ∧ ∀ p ∈ ps, p.IsName
  | _ => True

/-- What the lines of a node show can be told: the tokens are legible and the types are there. -/
def Node.Told (T : TypeTable) (a : Node) : Prop := a.Worded ∧ a.Refers (fun _ => True) T

/-- The trees are the same up to places, scopes and the numbers of types. -/
abbrev Node.Agrees (T T' : TypeTable) (a a' : Node) : Prop :=
  a.unstamped.Like (fun _ _ => True) (T.Matches T') a'.unstamped

theorem Expr.outline_eq (he : e.heading ≠ .leaf .access) : e.outline T d =
    ⟨d, e.heading.words ++ ((e.token?.elim "" Token.shown) ++ T.suffix e.type)⟩ ::
      e.detail T d := by
  have hline (s : ExprSite) (text : String) :
      s.line T d text = ⟨d, text ++ T.suffix s.type⟩ := by
    unfold ExprSite.line TypeTable.suffix
    cases s.type <;> simp [String.append_assoc]
  cases e with
  | leaf s form k =>
    cases form with
    | literal =>
      unfold Expr.outline
      rw [hline]
      unfold LeafForm.title
      rw [String.append_assoc]
      exact rfl
    | access => exact absurd rfl he
  | binary s form k l r =>
    rw [Expr.outline, hline, String.append_assoc]
    rfl
  | unary s k e =>
    rw [Expr.outline, hline, String.append_assoc]
    rfl
  | _ =>
    rw [Expr.outline, hline]
    simp only [token?, Option.elim_none, String.empty_append]
    rfl

theorem Expr.isSome_token? (h : e.heading = e'.heading) : e.token?.isSome = e'.token?.isSome := by
  cases e <;> cases e' <;> first | rfl | exact nomatch h

theorem Decl.begins (x : Decl) : Begins x.heading d (x.outline T d) := by
  cases x <;> exact ⟨_, _, by rw [Decl.outline]; rfl⟩

theorem Stmt.begins (s : Stmt) : Begins s.heading d (s.outline T d) := by
  cases s with
  | expr s e => exact ⟨"", _, by rw [Stmt.outline, String.append_empty]; rfl⟩
  | assign s l e => exact ⟨"", _, by rw [Stmt.outline, String.append_empty]; rfl⟩
  | decl s x => exact x.begins

/-- The first line of an expression tells its form, its token and its type. -/
theorem Expr.lineTells_head (hT : T.Reachable) (hT' : T'.Reachable) (he : Node.Told T (.expr e))
    (he' : Node.Told T' (.expr e')) :
    LineTells (e.heading.words ++ ((e.token?.elim "" Token.shown) ++ T.suffix e.type))
      (e'.heading.words ++ ((e'.token?.elim "" Token.shown) ++ T'.suffix e'.type))
      (e.heading = e'.heading ∧ Option.Rel (Token.Like fun _ _ => True) e.token? e'.token? ∧
        Option.Rel (T.Matches T') e.type e'.type) := by
  intro cs cs' h
  obtain ⟨⟨-, hk⟩, -, ht⟩ := he
  obtain ⟨⟨-, hk'⟩, -, ht'⟩ := he'
  simp only [String.toList_append, List.append_assoc] at h
  obtain ⟨hheading, hrest⟩ := Heading.append_inj h
  have hsome := Expr.isSome_token? hheading
  obtain ⟨b, ds, hds, hb⟩ := T.exists_break_of_suffix e.type cs
  obtain ⟨b', ds', hds', hb'⟩ := T'.exists_break_of_suffix e'.type cs'
  generalize e.token? = o, e'.token? = o' at hk hk' hrest hsome
  cases o with
  | none =>
    obtain rfl : o' = none := Option.not_isSome_iff_eq_none.mp (by simp [← hsome])
    obtain ⟨htype, hcs⟩ := TypeTable.lineTells_suffix hT hT' ht ht' _ _ hrest
    exact ⟨⟨hheading, .none, htype⟩, hcs⟩
  | some k =>
    obtain ⟨k', rfl⟩ := Option.isSome_iff_exists.mp (hsome.symm.trans rfl)
    simp only [Option.elim_some, hds, hds'] at hrest
    obtain ⟨hlike, hrest⟩ := (hk k rfl).append_inj (hk' k' rfl) hb hb' hrest
    rw [← hds, ← hds'] at hrest
    obtain ⟨htype, hcs⟩ := TypeTable.lineTells_suffix hT hT' ht ht' _ _ hrest
    exact ⟨⟨hheading, .some hlike, htype⟩, hcs⟩

theorem follows_arguments (T : TypeTable) (d n : Nat) (es : List Expr) :
    Follows (d + 2) d (Expr.outlineArguments T d n es) := by
  cases es with
  | nil =>
    rw [Expr.outlineArguments]
    exact follows_nil (Nat.le_add_right d 2)
  | cons e es =>
    rw [Expr.outlineArguments, String.append_assoc]
    exact follows_cons (head?_append_ne_tab rfl (by decide) _) (Nat.lt_add_of_pos_right Nat.two_pos)

theorem follows_body (T : TypeTable) (d n : Nat) (ss : List Stmt) :
    Follows (d + 2) d (Stmt.outlineBody T d n ss) := by
  cases ss with
  | nil =>
    rw [Stmt.outlineBody]
    exact follows_nil (Nat.le_add_right d 2)
  | cons s ss =>
    rw [Stmt.outlineBody, String.append_assoc]
    exact follows_cons (head?_append_ne_tab rfl (by decide) _) (Nat.lt_add_of_pos_right Nat.two_pos)

section Induction

variable (hT : T.Reachable) (hT' : T'.Reachable)
include hT hT'

theorem Expr.linesTell (he : Node.Told T (.expr e)) (he' : Node.Told T' (.expr e'))
    (h : e.heading = e'.heading → Option.Rel (Token.Like fun _ _ => True) e.token? e'.token? →
      e.site.unstamped.Like (fun _ _ => True) (T.Matches T') e'.site.unstamped →
      LinesTell k (e.detail T d) (e'.detail T' d) Q) :
    LinesTell k (e.outline T d) (e'.outline T' d) Q := by
  rw [Expr.outline_eq he.1.1, Expr.outline_eq he'.1.1]
  exact (LinesTell.cons (Expr.lineTells_head hT hT' he he') fun ⟨hheading, hk, ht⟩ =>
    h hheading hk ⟨⟨trivial, rfl⟩, ht⟩).imp And.right

/-- A signature stands in front of a line with another heading, or it is missing. -/
theorem linesTell_signature {g g' : Option TypeId} (hg : ∀ t ∈ g, T.Holds t)
    (hg' : ∀ t ∈ g', T'.Holds t) {us us' : List OutlineLine} {h : Heading} (hb : Begins h d us)
    (hb' : Begins h d us') (hne : h ≠ .signature) (hu : LinesTell k us us' Q) :
    LinesTell k (signatureLines T d g ++ us) (signatureLines T' d g' ++ us')
      (Option.Rel (T.Matches T') g g' ∧ Q) := by
  cases g with
  | none =>
    cases g' with
    | none => exact hu.imp fun hQ => ⟨.none, hQ⟩
    | some t' => exact .of_ne hb ⟨T'.shown t', us', rfl⟩ hne
  | some t =>
    cases g' with
    | none => exact .of_ne ⟨T.shown t, us, rfl⟩ hb' hne.symm
    | some t' =>
      have hline := (TypeTable.lineTells_shown hT hT' (hg t rfl) (hg' t' rfl)).behind "Signature: "
      exact (LinesTell.cons hline fun _ => hu).imp fun ⟨ht, hQ⟩ => ⟨.some ht, hQ⟩

end Induction

/-- The text of a node, with less indented text behind it, tells the node. -/
def Node.Tells (T T' : TypeTable) : Node → Prop
  | .expr e => ∀ e' d, (Node.expr e).Everywhere (Told T) → (Node.expr e').Everywhere (Told T') →
    LinesTell (d + 1) (e.outline T d) (e'.outline T' d) (Agrees T T' (.expr e) (.expr e'))
  | .exprs es => ∀ es' d n, (Node.exprs es).Everywhere (Told T) →
    (Node.exprs es').Everywhere (Told T') → LinesTell d (Expr.outlineArguments T d n es)
      (Expr.outlineArguments T' d n es') (Agrees T T' (.exprs es) (.exprs es'))
  | .stmt s => ∀ s' d, (Node.stmt s).Everywhere (Told T) → (Node.stmt s').Everywhere (Told T') →
    LinesTell (d + 1) (s.outline T d) (s'.outline T' d) (Agrees T T' (.stmt s) (.stmt s'))
  | .stmts ss => ∀ ss' d n, (Node.stmts ss).Everywhere (Told T) →
    (Node.stmts ss').Everywhere (Told T') → LinesTell d (Stmt.outlineBody T d n ss)
      (Stmt.outlineBody T' d n ss') (Agrees T T' (.stmts ss) (.stmts ss'))
  | .decl x => ∀ x' d, (Node.decl x).Everywhere (Told T) → (Node.decl x').Everywhere (Told T') →
    LinesTell (d + 1) (x.outline T d) (x'.outline T' d) (Agrees T T' (.decl x) (.decl x'))
  | _ => True

theorem Node.hereditary_tells (hT : T.Reachable) (hT' : T'.Reachable) :
    Node.Hereditary (Node.Tells T T') where
  leaf {s form k} := by
    intro e' d he he'
    refine Expr.linesTell hT hT' he.self he'.self fun hheading hk hs => ?_
    cases e' with
    | leaf s' form' k' =>
      cases hheading
      cases hk with
      | some hk => exact (LinesTell.nil _).imp fun _ => .leaf hs hk
    | _ => exact nomatch hheading
  binary {s form k a b} iha ihb := by
    intro e' d he he'
    refine Expr.linesTell hT hT' he.self he'.self fun hheading hk hs => ?_
    cases e' with
    | binary s' form' k' a' b' =>
      cases hheading
      cases hk with
      | some hk =>
        obtain ⟨-, ha, hb⟩ := everywhere_binary.mp he
        obtain ⟨-, ha', hb'⟩ := everywhere_binary.mp he'
        exact ((LinesTell.parts "LHS:" "RHS:" (by decide) (iha a' (d + 2) ha ha')
          (ihb b' (d + 2) hb hb')).weaken (by omega)).imp fun ⟨h, h'⟩ => .binary hs hk h h'
    | _ => exact nomatch hheading
  unary {s k a} iha := by
    intro e' d he he'
    refine Expr.linesTell hT hT' he.self he'.self fun hheading hk hs => ?_
    cases e' with
    | unary s' k' a' =>
      cases hk with
      | some hk =>
        have ha := (everywhere_unary.mp he).2
        have ha' := (everywhere_unary.mp he').2
        exact ((iha a' (d + 1) ha ha').weaken (by omega)).imp (.unary hs hk)
    | _ => exact nomatch hheading
  call {s f as} ihf ihas := by
    intro e' d he he'
    refine Expr.linesTell hT hT' he.self he'.self fun hheading _ hs => ?_
    cases e' with
    | call s' f' as' =>
      obtain ⟨-, hf, has⟩ := everywhere_call.mp he
      obtain ⟨-, hf', has'⟩ := everywhere_call.mp he'
      exact (((ihf f' (d + 2) hf hf').labelled _).append (follows_arguments T (d + 1) 0 as)
        (follows_arguments T' (d + 1) 0 as') (ihas as' (d + 1) 0 has has')).imp
          fun ⟨h, h'⟩ => .call hs h h'
    | _ => exact nomatch hheading
  block {s ss} ih := by
    intro e' d he he'
    refine Expr.linesTell hT hT' he.self he'.self fun hheading _ hs => ?_
    cases e' with
    | block s' ss' =>
      have hss := (everywhere_block.mp he).2
      have hss' := (everywhere_block.mp he').2
      exact (ih ss' (d + 1) 0 hss hss').imp (.block hs)
    | _ => exact nomatch hheading
  ifThen {s c a} ihc iha := by
    intro e' d he he'
    refine Expr.linesTell hT hT' he.self he'.self fun hheading _ hs => ?_
    obtain ⟨-, hc, ha⟩ := everywhere_ifThen.mp he
    cases e' with
    | ifThen s' c' a' =>
      obtain ⟨-, hc', ha'⟩ := everywhere_ifThen.mp he'
      exact ((LinesTell.parts "Condition:" "Then branch:" (by decide) (ihc c' (d + 2) hc hc')
        (iha a' (d + 2) ha ha')).weaken (by omega)).imp fun ⟨h, h'⟩ => .ifThen hs h h'
    | ifElse s' c' a' b' =>
      -- behind the first branch the text is indented enough for a second one
      obtain ⟨-, hc', ha', -⟩ := everywhere_ifElse.mp he'
      have hparts := LinesTell.parts "Condition:" "Then branch:" (by decide) (ihc c' (d + 2) hc hc')
        (iha a' (d + 2) ha ha')
      rw [← List.append_nil ((Expr.ifThen s c a).detail T d)]
      exact (hparts.append (follows_nil (by omega)) (follows_cons (by decide) (by omega))
        (.nil_cons (Nat.le_refl (d + 1)))).imp And.right
    | _ => exact nomatch hheading
  ifElse {s c a b} ihc iha ihb := by
    intro e' d he he'
    refine Expr.linesTell hT hT' he.self he'.self fun hheading _ hs => ?_
    obtain ⟨-, hc, ha, hb⟩ := everywhere_ifElse.mp he
    cases e' with
    | ifThen s' c' a' =>
      obtain ⟨-, hc', ha'⟩ := everywhere_ifThen.mp he'
      have hparts := LinesTell.parts "Condition:" "Then branch:" (by decide) (ihc c' (d + 2) hc hc')
        (iha a' (d + 2) ha ha')
      rw [← List.append_nil ((Expr.ifThen s' c' a').detail T' d)]
      exact (hparts.append (follows_cons (by decide) (by omega)) (follows_nil (by omega))
        (.cons_nil (Nat.le_refl (d + 1)))).imp And.right
    | ifElse s' c' a' b' =>
      obtain ⟨-, hc', ha', hb'⟩ := everywhere_ifElse.mp he'
      have hparts := LinesTell.parts "Condition:" "Then branch:" (by decide) (ihc c' (d + 2) hc hc')
        (iha a' (d + 2) ha ha')
      exact (hparts.append (follows_cons (by decide) (by omega))
        (follows_cons (by decide) (by omega))
        (((ihb b' (d + 2) hb hb').labelled _).weaken (by omega))).imp
          fun ⟨⟨h, h'⟩, h''⟩ => .ifElse hs h h' h''
    | _ => exact nomatch hheading
  result {s form a} ih := by
    intro e' d he he'
    refine Expr.linesTell hT hT' he.self he'.self fun hheading _ hs => ?_
    cases e' with
    | result s' form' a' =>
      cases hheading
      have ha := (everywhere_result.mp he).2
      have ha' := (everywhere_result.mp he').2
      exact (((ih a' (d + 2) ha ha').labelled _).weaken (by omega)).imp (.result hs)
    | _ => exact nomatch hheading
  noExpr := by
    intro es' d n _ _
    cases es' with
    | nil => exact (LinesTell.nil d).imp fun _ => .noExpr
    | cons e' es' => exact .nil_cons (Nat.le_refl d)
  moreExprs {e es} ihe ihes := by
    intro es' d n he he'
    cases es' with
    | nil => exact .cons_nil (Nat.le_refl d)
    | cons e' es' =>
      obtain ⟨he, hes⟩ := everywhere_moreExprs.mp he
      obtain ⟨he', hes'⟩ := everywhere_moreExprs.mp he'
      exact (((ihe e' (d + 1) he he').labelled _).append (follows_arguments T d (n + 1) es)
        (follows_arguments T' d (n + 1) es') (ihes es' d (n + 1) hes hes')).imp
          fun ⟨h, h'⟩ => .moreExprs h h'
  evaluated {s e} ih := by
    intro s' d he he'
    cases s' with
    | expr s' e' =>
      have he := (everywhere_evaluated.mp he).2
      have he' := (everywhere_evaluated.mp he').2
      exact (((ih e' (d + 1) he he').labelled _).weaken (by omega)).imp (.evaluated ⟨trivial, rfl⟩)
    | assign s' l' e' => exact .of_ne (Stmt.begins _) (Stmt.begins _) nofun
    | decl s' x' =>
      refine .of_ne (Stmt.begins (.expr s e)) (Stmt.begins (.decl s' x')) ?_
      cases x' <;> exact nofun
  assigned {s l e} ihl ihe := by
    intro s' d he he'
    cases s' with
    | expr s' e' => exact .of_ne (Stmt.begins _) (Stmt.begins _) nofun
    | assign s' l' e' =>
      obtain ⟨-, hl, he⟩ := everywhere_assigned.mp he
      obtain ⟨-, hl', he'⟩ := everywhere_assigned.mp he'
      have hparts := LinesTell.parts "Lvalue:" "Assigned expression:" (by decide)
        (ihl l' (d + 2) hl hl') (ihe e' (d + 2) he he')
      exact ((hparts.weaken (by omega)).labelled _).imp
        fun ⟨h, h'⟩ => .assigned ⟨trivial, rfl⟩ h h'
    | decl s' x' =>
      refine .of_ne (Stmt.begins (.assign s l e)) (Stmt.begins (.decl s' x')) ?_
      cases x' <;> exact nofun
  declared {s x} ih := by
    intro s' d he he'
    cases s' with
    | expr s' e' =>
      refine .of_ne (Stmt.begins (.decl s x)) (Stmt.begins (.expr s' e')) ?_
      cases x <;> exact nofun
    | assign s' l' e' =>
      refine .of_ne (Stmt.begins (.decl s x)) (Stmt.begins (.assign s' l' e')) ?_
      cases x <;> exact nofun
    | decl s' x' =>
      have hx := (everywhere_declared.mp he).2
      have hx' := (everywhere_declared.mp he').2
      exact (ih x' d hx hx').imp (.declared ⟨trivial, rfl⟩)
  noStmt := by
    intro ss' d n _ _
    cases ss' with
    | nil => exact (LinesTell.nil d).imp fun _ => .noStmt
    | cons s' ss' => exact .nil_cons (Nat.le_refl d)
  moreStmts {s ss} ihs ihss := by
    intro ss' d n he he'
    cases ss' with
    | nil => exact .cons_nil (Nat.le_refl d)
    | cons s' ss' =>
      obtain ⟨hs, hss⟩ := everywhere_moreStmts.mp he
      obtain ⟨hs', hss'⟩ := everywhere_moreStmts.mp he'
      exact (((ihs s' (d + 1) hs hs').labelled _).append (follows_body T d (n + 1) ss)
        (follows_body T' d (n + 1) ss') (ihss ss' d (n + 1) hss hss')).imp
          fun ⟨h, h'⟩ => .moreStmts h h'
  var {s n g e p} ih := by
    intro x' d he he'
    cases x' with
    | var s' n' g' e' p' =>
      obtain ⟨⟨hn, -, hg⟩, he⟩ := everywhere_var.mp he
      obtain ⟨⟨hn', -, hg'⟩, he'⟩ := everywhere_var.mp he'
      have hinitial := ((ih e' (d + 2) he he').labelled ⟨d + 1, "Initializer:"⟩).weaken
        (k := d + 1) (by omega)
      have hname := (Token.lineTells_name hn hn').behind "Variable declaration: "
      refine (LinesTell.cons hname fun _ => linesTell_signature hT hT' hg hg' (h := .initial)
        ⟨"", _, rfl⟩ ⟨"", _, rfl⟩ nofun hinitial).imp ?_
      exact fun ⟨hname, hsig, h⟩ => .var ⟨trivial, rfl⟩ hname hsig trivial h
    | fn s' n' g' ps' e' => exact .of_ne (Decl.begins _) (Decl.begins _) nofun
  fn {s n g ps e} ih := by
    intro x' d he he'
    cases x' with
    | var s' n' g' e' p' => exact .of_ne (Decl.begins _) (Decl.begins _) nofun
    | fn s' n' g' ps' e' =>
      obtain ⟨⟨⟨hn, hps⟩, -, hg⟩, he⟩ := everywhere_fn.mp he
      obtain ⟨⟨⟨hn', hps'⟩, -, hg'⟩, he'⟩ := everywhere_fn.mp he'
      have hbody := ((ih e' (d + 2) he he').labelled ⟨d + 1, "Body:"⟩).weaken
        (k := d + 1) (by omega)
      have hparams := (Token.lineTells_listed hps hps').behind "Params:"
      have hname := (Token.lineTells_name hn hn').behind "Function declaration: "
      refine (LinesTell.cons hname fun _ => LinesTell.cons hparams fun _ =>
        linesTell_signature hT hT' hg hg' (h := .body) ⟨"", _, rfl⟩ ⟨"", _, rfl⟩ nofun hbody).imp ?_
      exact fun ⟨hname, hnames, hsig, h⟩ => .fn ⟨trivial, rfl⟩ hname hsig hnames h

theorem linesTell_decls (hT : T.Reachable) (hT' : T'.Reachable) {ds ds' : List Decl}
    (hds : (Node.decls ds).Everywhere (Node.Told T))
    (hds' : (Node.decls ds').Everywhere (Node.Told T')) :
    LinesTell d (ds.flatMap (Decl.outline T d)) (ds'.flatMap (Decl.outline T' d))
      (Node.Agrees T T' (.decls ds) (.decls ds')) := by
  have hbegins (T : TypeTable) (x : Decl) (xs : List Decl) :
      Begins x.heading d ((x :: xs).flatMap (Decl.outline T d)) := by
    obtain ⟨s, us, hx⟩ := x.begins (T := T) (d := d)
    exact ⟨s, us ++ xs.flatMap (Decl.outline T d), by rw [List.flatMap_cons, hx, List.cons_append]⟩
  have hfollows (T : TypeTable) (ds : List Decl) :
      Follows (d + 1) d (ds.flatMap (Decl.outline T d)) := by
    cases ds with
    | nil => exact follows_nil (Nat.le_succ d)
    | cons x xs => exact (hbegins T x xs).follows (Nat.lt_succ_self d)
  induction ds generalizing ds' with
  | nil =>
    cases ds' with
    | nil => exact (LinesTell.nil d).imp fun _ => .noDecl
    | cons x' xs' => exact .nil_begins (hbegins T' x' xs')
  | cons x xs ih =>
    cases ds' with
    | nil => exact .begins_nil (hbegins T x xs)
    | cons x' xs' =>
      obtain ⟨hx, hxs⟩ := Node.everywhere_moreDecls.mp hds
      obtain ⟨hx', hxs'⟩ := Node.everywhere_moreDecls.mp hds'
      have hdecl := (Node.hereditary_tells hT hT').decl x x' d hx hx'
      exact (hdecl.append (hfollows T xs) (hfollows T' xs') (ih hxs hxs')).imp
        fun ⟨h, h'⟩ => .moreDecls h h'

end Trees

namespace Program

variable {T T' : TypeTable} {p p' : Program}

theorem toList_dump (p : Program) (T : TypeTable) :
    (p.dump T).toList = OutlineLine.spelled (p.outline T) := by
  rw [dump, String.toList_join, List.flatMap_map, OutlineLine.spelled]

/-- The text of a program tells all of it but places, scopes and the numbers of types. -/
theorem like_of_dump_eq (hT : T.Reachable) (hT' : T'.Reachable)
    (hp : (Node.decls p.decls).Everywhere (Node.Told T))
    (hp' : (Node.decls p'.decls).Everywhere (Node.Told T')) (h : p.dump T = p'.dump T') :
    p.unstamped.Like (fun _ _ => True) (T.Matches T') p'.unstamped := by
  have htext := congrArg String.toList h
  rw [toList_dump, toList_dump, ← List.append_nil (OutlineLine.spelled _),
    ← List.append_nil (OutlineLine.spelled (p'.outline T'))] at htext
  have hlines := (linesTell_decls (d := 1) hT hT' hp hp').labelled ⟨0, "Program"⟩
  exact ⟨(hlines [] [] (dedented_nil 0) (dedented_nil 0) htext).1, rfl⟩

theorem dump_eq_of_like {R : Position → Position → Prop} (hT : T.Reachable) (hT' : T'.Reachable)
    (h : p.Like R (T.Matches T') p') : p.dump T = p'.dump T' := by
  have hdecls : p.decls.flatMap (Decl.outline T 1) = p'.decls.flatMap (Decl.outline T' 1) :=
    h.decls.corresponds.outline_eq (fun t t' (ht : T.Matches T' t t') => ht.shown_eq hT hT') 1 0
  simp only [dump, outline, hdecls]

theorem dump_unstamped (p : Program) (T : TypeTable) : p.unstamped.dump T = p.dump T := by
  have hline (s : ExprSite) (d : Nat) (text : String) :
      s.unstamped.line T d text = s.line T d text := rfl
  have hnode : Node.Hereditary fun a => ∀ d n, a.unstamped.outline T d n = a.outline T d n := by
    constructor
    all_goals
      intros
      simp_all only [Node.unstamped, Node.outline, Expr.unstamped, Expr.unstampedAll,
        Stmt.unstamped, Stmt.unstampedAll, Decl.unstamped, Expr.outline, Expr.outlineArguments,
        Stmt.outline, Stmt.outlineBody, Decl.outline, forall_const]
  have hdecl (d : Decl) : d.unstamped.outline T 1 = d.outline T 1 := hnode.decl d 1 0
  simp only [dump, outline, unstamped, List.flatMap_map, hdecl]

/-- Two texts are the same just for programs that are the same up to places, scopes and the numbers
of types. -/
theorem dump_eq_iff (hT : T.Reachable) (hT' : T'.Reachable)
    (hp : (Node.decls p.decls).Everywhere (Node.Told T))
    (hp' : (Node.decls p'.decls).Everywhere (Node.Told T')) : p.dump T = p'.dump T' ↔
      p.unstamped.Like (fun _ _ => True) (T.Matches T') p'.unstamped := by
  refine ⟨like_of_dump_eq hT hT' hp hp', fun h => ?_⟩
  rw [← dump_unstamped, ← p'.dump_unstamped]
  exact dump_eq_of_like hT hT' h

end Program

end FrontEnd
