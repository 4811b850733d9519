import FrontEnd.Proofs.Grammar.Comparison
import FrontEnd.Proofs.Grammar.Continuation

/-! What stands behind a stretch of tokens is not looked at before the stretch is read. A stretch
that closes its blocks is read to its last token, or what went wrong in it is skipped up to there.
-/

namespace FrontEnd

/-- The state with more tokens behind those that are left, and an end behind them. -/
def ParserState.followedBy (s : ParserState) (rest : List Token) (p : Position) : ParserState :=
  { s with tokens := s.tokens ++ rest, finish := p }

/-- A stretch read alone and with other tokens behind it. -/
def Frame.followedBy (s : ParserState) (rest : List Token) : Frame :=
  ⟨Eq, s.types.size, 0, .stretch s.openBlocks [] rest, s.reported, s.reported⟩

namespace ParserState

variable {s u u' : ParserState} {T : TypeTable} {v v' rest : List Token} {p : Position}

theorem followedBy_nil (s : ParserState) : s.followedBy [] s.finish = s := by
  simp [followedBy]

theorem abreast_followedBy (hT : s.types.Reachable) :
    s.Abreast (.followedBy s rest) s.types s.openBlocks s.tokens s.tokens
      (s.followedBy rest p) where
  tokens := (List.append_nil _).symm
  tokens' := rfl
  window := List.forall₂_same.mpr fun _ _ => ⟨rfl, rfl, rfl⟩
  finish := nofun
  openBlocks := rfl
  openBlocks' := rfl
  grows := .refl _
  types := by
    have hself := TypeTable.Shifted.of_grows hT (.refl s.types)
    rwa [Nat.sub_self] at hself
  reported := ⟨[], [], (List.append_nil _).symm, (List.append_nil _).symm, .nil⟩

theorem Abreast.eq_followedBy (h : u.Abreast (.followedBy s rest) T s.openBlocks v v' u') :
    u.tokens = v ∧ u' = u.followedBy rest u'.finish := by
  have hwindow := eq_of_forall₂ (fun _ _ => Token.Like.eq) h.window
  have htokens : u.tokens = v := h.tokens.trans (List.append_nil v)
  have htokens' : u'.tokens = v' ++ rest := h.tokens'
  have htypes : u'.types = u.types := h.types.eq_of_zero
  have hblocks := h.openBlocks'.trans h.openBlocks.symm
  obtain ⟨ds, ds', hr, hr', hlike⟩ := h.reported
  have hreported : u'.reported = u.reported := by
    rw [hr, hr', eq_of_forall₂ (fun _ _ => Diagnostic.Like.eq) hlike]
    rfl
  refine ⟨htokens, ?_⟩
  cases u'
  simp_all [followedBy]

theorem synchronize_followedBy (hs : ClosedBy 0 s.tokens) (rest : List Token) (p : Position) :
    s.synchronize.tokens = [] ∧
      (s.followedBy rest p).synchronize = s.synchronize.followedBy rest p := by
  have hend := hs.recover_eq (0 < s.openBlocks) []
  rw [List.append_nil] at hend
  refine ⟨hend, ?_⟩
  simp only [synchronize, followedBy, hs.recover_eq, hend, List.nil_append]

theorem kind_followedBy (hs : ClosedBy 0 s.tokens) (rest : List Token) (p : Position) :
    (s.followedBy rest p).kind = s.kind ∧ s.kind ≠ .eof ∧ s.kind ≠ .closeCurly := by
  obtain ⟨t, v, hv⟩ := List.exists_cons_of_ne_nil hs.ne_nil
  rw [hv] at hs
  have hk : s.kind = t.kind := congrArg Token.kind (by simp [current, hv])
  have hk' : (s.followedBy rest p).kind = t.kind :=
    congrArg Token.kind (by simp [current, followedBy, hv])
  refine ⟨hk'.trans hk.symm, hk ▸ hs.kind_ne_eof, fun hclose => ?_⟩
  exact absurd (hs.close (hk ▸ hclose)).1 (Nat.lt_irrefl 0)

end ParserState

namespace Rule

variable {s : ParserState}

/-- A rule that reads to the semicolon reads a whole stretch or fails in it, whatever stands behind
it. -/
theorem apply_followedBy {α : Type} {r : Rule α} {node : α → Node} {k : Nat}
    (hnode : ∀ a a', node a = node a' → a = a') (hsteady : r.Steady)
    (hr : ∀ F n, InStep F F.Behind n k (fun a a' => Node.Like F.place F.type (node a) (node a'))
      r r)
    (hT : s.types.Reachable) (hs : ClosedBy 0 s.tokens) :
    (∃ a u, s.Continues u ∧ u.tokens = [] ∧
      ∀ rest p, r (s.followedBy rest p) = .done a (u.followedBy rest p)) ∨
    ∃ d u, s.Continues u ∧ s.Blames d.fault ∧ ClosedBy 0 u.tokens ∧
      ∀ rest p, r (s.followedBy rest p) = .failed d (u.followedBy rest p) := by
  have hstep (rest : List Token) (p : Position) :=
    hr (.followedBy s rest) _ s.types (s.abreast_followedBy (p := p) hT)
      (fun _ _ _ hspan => by
        obtain ⟨rfl, _⟩ := Span.stretch.inj hspan
        exact ⟨Nat.le_refl _, by rwa [Nat.sub_self]⟩) (Nat.le_refl _)
  have hfinish (rest : List Token) (p : Position) := (hsteady (s.followedBy rest p)).next.finish
  have hcontinues := hsteady s
  generalize r s = x at hstep hcontinues
  cases x with
  | done a u =>
    have hboth (rest : List Token) (p : Position) :
        u.tokens = [] ∧ r (s.followedBy rest p) = .done a (u.followedBy rest p) := by
      have hx := hstep rest p
      have hp := hfinish rest p
      generalize r (s.followedBy rest p) = x' at hx hp
      cases hx with
      | @done _ a' _ u' v v' ha hu _ _ hbehind =>
        rw [Frame.type_eq rfl] at ha
        obtain ⟨hv, hu'⟩ := hu.eq_followedBy
        obtain rfl : v = [] := by
          rcases hbehind _ _ _ rfl with ⟨_, hnil⟩ | ⟨hlt, _⟩
          · exact hnil
          · exact absurd hlt (Nat.lt_irrefl _)
        refine ⟨hv, ?_⟩
        rw [hu', show u'.finish = p from hp, hnode _ _ (Node.Like.eq ha)]
    exact .inl ⟨a, u, hcontinues, (hboth [] s.finish).1, fun rest p => (hboth rest p).2⟩
  | failed d u =>
    have hboth (rest : List Token) (p : Position) :
        ClosedBy 0 u.tokens ∧ r (s.followedBy rest p) = .failed d (u.followedBy rest p) := by
      have hx := hstep rest p
      have hp := hfinish rest p
      generalize r (s.followedBy rest p) = x' at hx hp
      cases hx with
      | @failed _ d' _ u' v v' hd hu _ hahead =>
        obtain ⟨hv, hu'⟩ := hu.eq_followedBy
        have hclosed := (hahead _ _ _ rfl).2
        rw [Nat.sub_self] at hclosed
        refine ⟨hv ▸ hclosed, ?_⟩
        rw [hu', show u'.finish = p from hp, Diagnostic.Like.eq hd]
    exact .inr ⟨d, u, hcontinues.1, hcontinues.2, (hboth [] s.finish).1,
      fun rest p => (hboth rest p).2⟩

theorem declarationsWithin_followedBy (hT : s.types.Reachable) (hs : ClosedBy 0 s.tokens) :
    ∃ ds u, s.Continues u ∧ u.tokens = [] ∧ ∀ rest p i,
      declarationsWithin .full (i + 1) (s.followedBy rest p) =
        (ds ++ (declarationsWithin .full i (u.followedBy rest p)).1,
          (declarationsWithin .full i (u.followedBy rest p)).2) := by
  have hmore (rest : List Token) (p : Position) : (s.followedBy rest p).hasTokens = true := by
    obtain ⟨hk, he, _⟩ := ParserState.kind_followedBy hs rest p
    simpa [ParserState.hasTokens, hk] using he
  rcases apply_followedBy (fun _ _ => Node.decl.inj) (.topLevel .full)
    (fun _ _ => topLevel_inStep) hT hs with ⟨d, u, hu, hnil, hr⟩ | ⟨d, u, hu, hd, hclosed, hr⟩
  · refine ⟨[d], u, hu, hnil, fun rest p i => ?_⟩
    simp only [declarationsWithin, hmore, if_true, hr, List.singleton_append]
  · obtain ⟨hnil, _⟩ := ParserState.synchronize_followedBy (s := u.report d) hclosed [] s.finish
    refine ⟨[], _, (hu.report hd).trans (.synchronize _), hnil, fun rest p i => ?_⟩
    have hsync := (ParserState.synchronize_followedBy (s := u.report d) hclosed rest p).2
    simp only [declarationsWithin, hmore, if_true, hr, List.nil_append, ← hsync]
    rfl

/-- A stretch is read as if it were the whole text; behind it the reading goes on. -/
theorem declarations_followedBy (hT : s.types.Reachable) (hs : ClosedBy 0 s.tokens) :
    (declarations .full s).2.tokens = [] ∧ s.Continues (declarations .full s).2 ∧
      ∀ rest p, ∃ i, rest.length ≤ i ∧ declarations .full (s.followedBy rest p) =
        ((declarations .full s).1 ++
            (declarationsWithin .full i ((declarations .full s).2.followedBy rest p)).1,
          (declarationsWithin .full i ((declarations .full s).2.followedBy rest p)).2) := by
  obtain ⟨ds, u, hu, hnil, hread⟩ := declarationsWithin_followedBy hT hs
  obtain ⟨n, hn⟩ : ∃ n, s.tokens.length = n + 1 :=
    Nat.exists_eq_succ_of_ne_zero fun hzero => hs.ne_nil (List.eq_nil_of_length_eq_zero hzero)
  have hend (i : Nat) : declarationsWithin .full i u = ([], u) := by
    cases i with
    | zero => rfl
    | succ i => simp [declarationsWithin, ParserState.hasTokens, ParserState.kind,
        ParserState.current, hnil]
  have halone : declarations .full s = (ds, u) := by
    have hself := hread [] s.finish n
    rw [ParserState.followedBy_nil, ← hu.finish, ParserState.followedBy_nil, hend,
      List.append_nil] at hself
    rw [declarations, hn, hself]
  rw [halone]
  refine ⟨hnil, hu, fun rest p => ⟨n + rest.length, Nat.le_add_left _ _, ?_⟩⟩
  have hfuel : (s.followedBy rest p).tokens.length = n + rest.length + 1 := by
    simp only [ParserState.followedBy, List.length_append, hn]
    omega
  rw [declarations, hfuel, hread]

theorem itemsWithin_succ (item : Rule Stmt) (he : s.kind ≠ .eof) (hc : s.kind ≠ .closeCurly)
    (i : Nat) : itemsWithin item (i + 1) s =
      match item s with
      | .done a t => (itemsWithin item i t).map fun r => (a :: r.1, r.2)
      | .failed d t => (itemsWithin item i (t.report d).synchronize).map fun r => (r.1, true) := by
  generalize hk : s.kind = k at he hc
  rw [itemsWithin]
  dsimp only
  rw [hk]
  cases k <;> first | contradiction | rfl

theorem itemsWithin_followedBy {operand : Operand}
    (hsteady : ∀ bp, (operand bp).Steady)
    (h : ∀ F n bp, InStep F F.Ahead n 1 (Expr.Like F.place F.type) (operand bp) (operand bp))
    (hT : s.types.Reachable) (hs : ClosedBy 0 s.tokens) :
    ∃ ss failed u, s.Continues u ∧ u.tokens = [] ∧ ∀ rest p i,
      itemsWithin (blockItem .full operand) (i + 1) (s.followedBy rest p) =
        (itemsWithin (blockItem .full operand) i (u.followedBy rest p)).map fun r =>
          (ss ++ r.1, failed || r.2) := by
  have hsucc (rest : List Token) (p : Position) (i : Nat) := by
    obtain ⟨hk, he, hc⟩ := ParserState.kind_followedBy hs rest p
    rw [← hk] at he hc
    exact itemsWithin_succ (blockItem .full operand) he hc i
  rcases apply_followedBy (fun _ _ => Node.stmt.inj) (.blockItem hsteady)
    (fun F n => blockItem_inStep (h F n)) hT hs with
    ⟨a, u, hu, hnil, hr⟩ | ⟨d, u, hu, hd, hclosed, hr⟩
  · refine ⟨[a], false, u, hu, hnil, fun rest p i => ?_⟩
    simp only [hsucc, hr, List.singleton_append, Bool.false_or]
  · obtain ⟨hnil, _⟩ := ParserState.synchronize_followedBy (s := u.report d) hclosed [] s.finish
    refine ⟨[], true, _, (hu.report hd).trans (.synchronize _), hnil, fun rest p i => ?_⟩
    have hsync := (ParserState.synchronize_followedBy (s := u.report d) hclosed rest p).2
    simp only [hsucc, hr, List.nil_append, Bool.true_or, ← hsync]
    rfl

end Rule

end FrontEnd
