import FrontEnd.Proofs.Grammar.Recursion
import Mathlib.Logic.Relation
import Mathlib.Order.WellFounded

/-! Reading comes to an end on every text. A procedure that is called again below itself stands in
front of fewer tokens, and so does every further round of a loop. -/

namespace FrontEnd

open Rule

variable {v : Vocabulary}

/-- In front of the same tokens a procedure calls only procedures of a lower level. -/
def ProcedureName.level : ProcedureName → Nat
  | name | typeOf _ | tail _ | block | varDecl | fnDecl => 1
  | type | lead _ | tails | declaration => 2
  | expr => 3
  | statement => 4
  | items => 5
  | list item => item.level + 1

theorem ProcedureName.level_pos (n : ProcedureName) : 0 < n.level := by
  cases n <;> simp [level]

/-- A procedure called in a state. -/
structure Call where
  {Result : Type}
  procedure : Procedure Result
  state : ParserState

namespace Call

variable {e e' e'' : Call}

def called (e : Call) : ProcedureName := e.procedure.called

/-- The call `e` makes the call `e'`: what it does changes with the answer that it gets there. -/
def Makes (v : Vocabulary) (e e' : Call) : Prop :=
  ∃ R : Rules, (∀ α (c : Procedure α) s, Call.mk c s ≠ e' → R α c s = v.rules α c s) ∧
    e.procedure.body v R e.state ≠ e.procedure.body v v.rules e.state

/-- The call fails and leaves the state as it was. -/
def FailsAtOnce (v : Vocabulary) (e : Call) : Prop :=
  ∃ d, v.rules _ e.procedure e.state = .failed d e.state

/-- Without a token no expression begins, so nothing is called. -/
def level (e : Call) : Nat :=
  match e.called, e.state.tokens with
  | .expr, [] => 0
  | n, _ => n.level

theorem level_le (e : Call) : e.level ≤ e.called.level := by
  unfold level
  split
  · exact Nat.zero_le _
  · exact Nat.le_refl _

theorem level_of_ne (h : e.called ≠ .expr ∨ e.state.tokens ≠ []) : e.level = e.called.level := by
  unfold level
  split
  next hcalled htokens => exact absurd hcalled (h.resolve_right fun hne => hne htokens)
  next => rfl

/-- The call `e'` has fewer tokens in front of it than `e` has, or it is of a lower level. -/
structure Below (e' e : Call) : Prop where
  tokens : e'.state.tokens <:+ e.state.tokens
  less : e.state.Consumes e'.state ∨ e'.level < e.level

theorem Below.trans (h : Below e'' e') (h' : Below e' e) : Below e'' e := by
  refine ⟨h.tokens.trans h'.tokens, ?_⟩
  rcases h.less with hc | hl
  · have hlength := hc.length_lt
    have hle := h'.tokens.length_le
    exact .inl (ParserState.consumes_of_suffix (h.tokens.trans h'.tokens) (by omega))
  · refine h'.less.imp (fun hc => ?_) (Nat.lt_trans hl)
    have hlength := hc.length_lt
    have hle := h.tokens.length_le
    exact ParserState.consumes_of_suffix (h.tokens.trans h'.tokens) (by omega)

theorem wellFounded_below : WellFounded Below := by
  refine Subrelation.wf (r := InvImage (Prod.Lex (· < ·) (· < ·))
    fun e : Call => (e.state.tokens.length, e.level)) (fun {e' e} h => ?_)
    (InvImage.wf _ (Prod.lex Nat.lt_wfRel Nat.lt_wfRel).wf)
  by_cases hlength : e'.state.tokens.length < e.state.tokens.length
  · exact .left _ _ hlength
  · have heq := Nat.le_antisymm h.tokens.length_le (Nat.le_of_not_lt hlength)
    have hlevel := h.less.resolve_left fun hc => hlength hc.length_lt
    simp only [InvImage, heq]
    exact .right _ hlevel

end Call

theorem Procedure.body_congr {α : Type} (c : Procedure α) (s : ParserState) {R : Rules}
    (h : ∀ β (d : Procedure β) t, Call.Below ⟨d, t⟩ ⟨c, s⟩ → R β d t = v.rules β d t) :
    c.body v R s = c.body v v.rules s := by
  have hbehind (hne : s.tokens ≠ []) {β : Type} (d : Procedure β) :
      AgreeOn s.tokens.tail (R β d) (v.rules β d) := by
    intro t ht
    obtain ⟨k, w, hs⟩ := List.exists_cons_of_ne_nil hne
    have hlength : t.tokens.length < s.tokens.length := by
      have hle := ht.length_le
      rw [hs] at hle ⊢
      exact Nat.lt_succ_of_le hle
    have hsuffix := ht.trans (List.tail_suffix s.tokens)
    exact h β d t ⟨hsuffix, .inl (ParserState.consumes_of_suffix hsuffix hlength)⟩
  have hlower {β : Type} {d : Procedure β} (hd : d.called.level < (Call.mk c s).level) :
      AgreeOn s.tokens (R β d) (v.rules β d) := fun t ht =>
    h β d t ⟨ht, .inr (Nat.lt_of_le_of_lt (Call.level_le _) hd)⟩
  -- behind an operator that is missing there is no token either
  have hexpr (hc : c.called ≠ .expr) (bp : BindingPower) :
      AgreeOn s.tokens.tail (R _ (.expr bp)) (v.rules _ (.expr bp)) := by
    by_cases hne : s.tokens = []
    · intro t ht
      rw [hne] at ht
      have htokens : t.tokens = [] := List.suffix_nil.mp ht
      refine h _ _ t ⟨htokens ▸ List.nil_suffix, .inr ?_⟩
      have hzero : (Call.mk (.expr bp) t).level = 0 := by
        simp [Call.level, htokens, Call.called, called]
      rw [hzero, Call.level_of_ne (e := ⟨c, s⟩) (.inl hc)]
      exact ProcedureName.level_pos _
    · exact hbehind hne _
  have hsteady {β : Type} (d : Procedure β) : (v.rules β d).Steady := v.steady_rules d
  have hsteady' (bp : BindingPower) : (v.rules _ (.expr bp)).Steady := hsteady _
  suffices hagree : AgreeOn s.tokens (c.body v R) (c.body v v.rules) from hagree s List.suffix_rfl
  cases c with
  | name => exact .refl _
  | list item =>
    exact .listOf (hlower (Nat.lt_succ_self _)) (hsteady _) (fun hne => hbehind hne _) (hsteady _)
  | type => exact .typeFrom fun _ form => hlower Nat.one_lt_two
  | typeOf form =>
    cases form with
    | primitive => exact .refl _
    | pointer => exact .pointerType (fun hne => hbehind hne _) (hsteady _)
    | function =>
      exact .functionTypeOf (fun hne => hbehind hne _) (hsteady _) (fun hne => hbehind hne _)
        (hsteady _)
  | expr bp =>
    refine .exprOf (fun hne form => hlower ?_) (fun form => hsteady _) fun hne left => hlower ?_
    all_goals
      rw [Call.level_of_ne (.inr hne)]
      exact Nat.lt_succ_self 2
  | lead form =>
    have hoperand := hexpr nofun
    cases form with
    | primary => exact .refl _
    | prefixed => exact .prefixed hsteady' hoperand
    | grouping => exact .grouping hsteady' hoperand
    | block => exact (hlower (d := .block) Nat.one_lt_two).bind (hsteady .block) fun _ => .refl _
    | conditional => exact .conditional hsteady' hoperand
    | returned => exact .returned hsteady' hoperand
    | yielded => exact .yielded hsteady' hoperand
  | tails bp left =>
    exact .tailsOf (fun form next => hlower Nat.one_lt_two)
      (fun _ _ _ _ _ hs ht => Consuming.exprOfTail (.expr v) hs ht) fun hne e => hbehind hne _
  | tail form bp left =>
    have hoperand := hexpr nofun
    cases form with
    | comparison => exact .binaryTail hsteady' hoperand _ _ _
    | arithmetic => exact .binaryTail hsteady' hoperand _ _ _
    | call => exact .callOf (fun hne => hbehind hne _) (hsteady _)
  | block => exact .blockOf fun hne => hbehind hne _
  | items =>
    have hitem : AgreeOn s.tokens (itemOf v (R _ .declaration) (R _ .statement))
        (itemOf v (v.rules _ .declaration) (v.rules _ .statement)) :=
      .itemOf (hlower (by decide : 2 < 5)) (hlower (by decide : 4 < 5))
    exact hitem.itemsFrom (.blockItem (.expr v)) (.blockItem (.expr v)) fun hne => hbehind hne _
  | statement => exact .statement hsteady' fun bp => hlower (Nat.lt_succ_self 3)
  | declaration =>
    exact .declarationOf (fun hne => hbehind hne _) (hsteady _)
      (fun p g => hlower (d := .varDecl p g) Nat.one_lt_two)
      fun p g => hlower (d := .fnDecl p g) Nat.one_lt_two
  | varDecl p g => exact .varDecl hsteady' (hexpr nofun) p g
  | fnDecl p g =>
    exact .fnDeclOf (fun hne => hbehind hne _) (hsteady _) (hexpr nofun _) (hsteady' _)

namespace Call

variable {e e' : Call}

theorem Makes.below (h : e.Makes v e') : Below e' e := by
  obtain ⟨R, hR, hne⟩ := h
  by_contra hnot
  refine hne (e.procedure.body_congr e.state fun β d t ht => hR β d t ?_)
  rintro rfl
  exact hnot ht

theorem below_of_transGen (h : Relation.TransGen (Makes v) e e') : Below e' e := by
  induction h with
  | single h => exact h.below
  | tail _ h ih => exact h.below.trans ih

/-- The same procedure is only met again in front of fewer tokens, but for an expression at the end
of the text. -/
theorem Below.consumes (h : Below e' e) (hcalled : e'.called = e.called) :
    e.state.Consumes e'.state ∨ e'.called = .expr ∧ e'.state.tokens = [] := by
  refine h.less.imp_right fun hlevel => ?_
  by_contra hnot
  have hsame : e'.level = e'.called.level := level_of_ne (Decidable.not_and_iff_or_not.mp hnot)
  have hle := e.level_le
  rw [← hcalled] at hle
  omega

theorem failsAtOnce_of_end (hcalled : e.called = .expr) (hs : e.state.tokens = []) :
    e.FailsAtOnce v := by
  obtain ⟨c, s⟩ := e
  cases c with
  | expr bp =>
    change s.tokens = [] at hs
    refine ⟨s.unexpected (.noExpression s.current.shown), ?_⟩
    change Rule.exprWithin v s.tokens.length bp s = _
    rw [hs]
    rfl
  | _ => exact nomatch hcalled

end Call

/-- The rules are the only answer to the equations that the bodies make. -/
theorem Vocabulary.rules_unique {R : Rules} (h : ∀ α (c : Procedure α), R α c = c.body v R) :
    R = v.rules := by
  have hcall (e : Call) : R _ e.procedure e.state = v.rules _ e.procedure e.state := by
    induction e using Call.wellFounded_below.induction with
    | h e ih =>
      calc R _ e.procedure e.state
          = e.procedure.body v R e.state := by rw [← h]
        _ = e.procedure.body v v.rules e.state :=
            e.procedure.body_congr e.state fun β d t ht => ih ⟨d, t⟩ ht
        _ = v.rules _ e.procedure e.state := by rw [← v.rules_eq_body]
  funext α c s
  exact hcall ⟨c, s⟩

namespace Rule

/-- One round of reading declarations; what comes behind it is left to `more`. -/
def declarationsFrom (v : Vocabulary) (more : ParserState → List Decl × ParserState)
    (s : ParserState) : List Decl × ParserState :=
  if s.hasTokens then
    match topLevel v s with
    | .done d t => (d :: (more t).1, (more t).2)
    | .failed d t => more (t.report d).synchronize
  else ([], s)

variable {s : ParserState}

theorem round_openBlocks {α : Type} {r : Rule α} (h : r.Steady) (s : ParserState) :
    (round r s).openBlocks = s.openBlocks := by
  have hcontinues := h s
  unfold round
  cases hreply : r s with
  | done a t =>
    rw [hreply] at hcontinues
    exact hcontinues.openBlocks
  | failed d t =>
    rw [hreply] at hcontinues
    exact hcontinues.1.openBlocks

theorem consumes_round_topLevel (h : s.openBlocks = 0) (hs : s.hasTokens = true) :
    s.Consumes (round (topLevel v) s) := by
  have hkind : s.kind ≠ .eof := by simpa [ParserState.hasTokens] using hs
  exact (Consuming.topLevel v).round (.topLevel v) hkind (.inr h)

theorem declarationsWithin_succ (v : Vocabulary) (n : Nat) (s : ParserState) :
    declarationsWithin v (n + 1) s = declarationsFrom v (declarationsWithin v n) s := rfl

theorem declarationsFrom_congr {f g : ParserState → List Decl × ParserState}
    (h : s.hasTokens = true → f (round (topLevel v) s) = g (round (topLevel v) s)) :
    declarationsFrom v f s = declarationsFrom v g s := by
  unfold declarationsFrom
  by_cases hs : s.hasTokens = true
  · have hround := h hs
    unfold round at hround
    simp only [if_pos hs]
    cases hreply : topLevel v s with
    | done d t =>
      rw [hreply] at hround
      simp only [hround]
    | failed d t =>
      rw [hreply] at hround
      exact hround
  · simp only [if_neg hs]

theorem declarationsWithin_zero_eq (hs : s.tokens = []) (n : Nat) :
    declarationsWithin v n s = ([], s) := by
  have hnone : s.hasTokens = false := by
    simp [ParserState.hasTokens, ParserState.kind, ParserState.current, hs]
  cases n with
  | zero => rfl
  | succ n => simp [declarationsWithin, hnone]

/-- Outside all blocks a bound that is not less than the number of tokens does not matter. -/
theorem declarationsWithin_eq (h : s.openBlocks = 0) {n m : Nat} (hn : s.tokens.length ≤ n)
    (hm : s.tokens.length ≤ m) : declarationsWithin v n s = declarationsWithin v m s := by
  induction n generalizing s m with
  | zero =>
    have hnil := List.eq_nil_of_length_eq_zero (Nat.le_zero.mp hn)
    rw [declarationsWithin_zero_eq hnil, declarationsWithin_zero_eq hnil]
  | succ n ih =>
    cases m with
    | zero =>
      have hnil := List.eq_nil_of_length_eq_zero (Nat.le_zero.mp hm)
      rw [declarationsWithin_zero_eq hnil, declarationsWithin_zero_eq hnil]
    | succ m =>
      rw [declarationsWithin_succ, declarationsWithin_succ]
      refine declarationsFrom_congr fun hs => ?_
      have hlt := (consumes_round_topLevel (v := v) h hs).length_lt
      exact ih ((round_openBlocks (.topLevel v) s).trans h) (by omega) (by omega)

theorem declarations_eq (h : s.openBlocks = 0) :
    declarations v s = declarationsFrom v (declarations v) s := by
  rw [declarations, declarationsWithin_eq h (Nat.le_refl _) (Nat.le_succ _),
    declarationsWithin_succ]
  refine declarationsFrom_congr fun hs => ?_
  have hlt := (consumes_round_topLevel (v := v) h hs).length_lt
  exact declarationsWithin_eq ((round_openBlocks (.topLevel v) s).trans h) (by omega)
    (Nat.le_refl _)

theorem kind_declarationsWithin (h : s.openBlocks = 0) {n : Nat} (hn : s.tokens.length ≤ n) :
    (declarationsWithin v n s).2.kind = .eof := by
  induction n generalizing s with
  | zero =>
    have hnil := List.eq_nil_of_length_eq_zero (Nat.le_zero.mp hn)
    simp [declarationsWithin, ParserState.kind, ParserState.current, hnil]
  | succ n ih =>
    rw [declarationsWithin_succ]
    unfold declarationsFrom
    by_cases hs : s.hasTokens = true
    · have hlt := (consumes_round_topLevel (v := v) h hs).length_lt
      have hrest := ih ((round_openBlocks (.topLevel v) s).trans h) (by omega)
      unfold round at hrest
      rw [if_pos hs]
      cases hreply : topLevel v s with
      | done d t =>
        rw [hreply] at hrest
        exact hrest
      | failed d t =>
        rw [hreply] at hrest
        exact hrest
    · rw [if_neg hs]
      simpa [ParserState.hasTokens] using hs

theorem tokens_declarations (v : Vocabulary) (source : String) (T : TypeTable) :
    (declarations v (.ofSource source T)).2.tokens = [] := by
  have hkind : (declarations v (.ofSource source T)).2.kind = .eof :=
    kind_declarationsWithin rfl (Nat.le_refl _)
  have hsuffix : (declarations v (.ofSource source T)).2.tokens <:+ (tokenize source).dropLast :=
    (continues_declarationsWithin v _ (.ofSource source T)).tokens
  by_contra hne
  obtain ⟨t, w, ht⟩ := List.exists_cons_of_ne_nil hne
  have hmem : t ∈ (tokenize source).dropLast := by
    refine hsuffix.subset ?_
    rw [ht]
    exact List.mem_cons_self
  refine kind_ne_eof_of_mem_tokenize hmem ?_
  rw [← hkind]
  simp [ParserState.kind, ParserState.current, ht]

end Rule

/-- Whatever the text and whatever the vocabulary, reading ends. A round of one of the two loops
that report what fails consumes a token; a procedure that is called again below itself has consumed
one or fails at once at the end of the text. No chain of calls goes on for ever, so the rules are
all that their own equations allow, and no token is left behind. -/
theorem reading_ends (v : Vocabulary) :
    (∀ s : ParserState, s.openBlocks = 0 → s.hasTokens = true →
      s.Consumes (Rule.round (Rule.topLevel v) s) ∧
        (Rule.round (Rule.topLevel v) s).openBlocks = 0) ∧
    (∀ s : ParserState, s.kind ≠ .eof → s.kind ≠ .closeCurly →
      s.Consumes (Rule.round (Rule.blockItem v (Rule.expr v)) s)) ∧
    (∀ e e', Relation.TransGen (Call.Makes v) e e' → e'.called = e.called →
      e.state.Consumes e'.state ∨ e'.state.kind = .eof ∧ e'.FailsAtOnce v) ∧
    (WellFounded fun e' e => Call.Makes v e e') ∧
    (∀ R : Rules, (∀ α (c : Procedure α), R α c = c.body v R) ↔ R = v.rules) ∧
    (∀ s : ParserState, s.openBlocks = 0 →
      Rule.declarations v s = Rule.declarationsFrom v (Rule.declarations v) s) ∧
    ∀ source T, (Rule.declarations v (.ofSource source T)).2.tokens = [] := by
  refine ⟨fun s h hs => ⟨consumes_round_topLevel h hs, (round_openBlocks (.topLevel v) s).trans h⟩,
    fun s he hc => (Consuming.blockItem (.expr v)).round (.blockItem (.expr v)) he (.inl hc),
    fun e e' h hcalled => ?_, ?_, fun R => ⟨Vocabulary.rules_unique, ?_⟩,
    fun s h => declarations_eq h, tokens_declarations v⟩
  · refine ((Call.below_of_transGen h).consumes hcalled).imp_right fun ⟨hexpr, hnil⟩ => ⟨?_, ?_⟩
    · simp [ParserState.kind, ParserState.current, hnil]
    · exact Call.failsAtOnce_of_end hexpr hnil
  · exact Call.wellFounded_below.mono fun e' e h => h.below
  · rintro rfl α c
    exact v.rules_eq_body c

end FrontEnd
