import FrontEnd.Proofs.Grammar.Contract
import FrontEnd.Proofs.Grammar.Failure
import FrontEnd.Proofs.Grammar.Locality

/-! Syntax faults in the order of the text. A rule that fails tells of the token it stands at or of
one that it has read; recovery goes on behind that token, so no token is told of twice, and only the
end of the text may be told of again. -/

namespace FrontEnd

open Diagnostic (reportable)

variable {α β : Type}

theorem Position.lt_of_not_lt_of_lt {p q r : Position} (h : ¬ q < p) (h' : q < r) : p < r := by
  rw [lt_def] at *
  omega

namespace ParserState

variable {s t u : ParserState} {p : Position} {d : Diagnostic} {ds es : List Diagnostic}

/-- Scanned tokens of which none marks the end. -/
structure Tidy (s : ParserState) : Prop extends Scanned s where
  kinds : ∀ k ∈ s.tokens, k.kind ≠ .eof

/-- All that is left lies behind `p`. -/
def Past (s : ParserState) (p : Position) : Prop := ∀ k ∈ s.tokens, p < k.place

/-- Up to `s` the faults `ds` were told in the order of the text: none lies behind a token that is
left, and only at the end of the text there may be several. -/
structure Climbed (s : ParserState) (ds : List Diagnostic) : Prop where
  reached : ∀ d ∈ ds, ∀ k ∈ s.tokens, ¬ k.place < d.place
  ordered : ds.Pairwise fun d e => d.place < e.place ∨ d.place = s.finish ∧ e.place = s.finish

theorem tidy_ofSource (source : String) (T : TypeTable) : (ofSource source T).Tidy where
  toScanned := scanned_ofSource source T
  kinds _ hk := kind_ne_eof_of_mem_tokenize hk

theorem Tidy.of_suffix (h : s.Tidy) (hts : t.tokens <:+ s.tokens) (hf : t.finish = s.finish) :
    t.Tidy where
  toScanned := h.toScanned.of_suffix hts hf
  kinds k hk := h.kinds k (hts.subset hk)

theorem Quiet.tidy (h : s.Quiet t) (hs : s.Tidy) : t.Tidy := hs.of_suffix h.tokens h.finish

theorem Past.of_suffix (h : s.Past p) (hts : t.tokens <:+ s.tokens) : t.Past p :=
  fun k hk => h k (hts.subset hk)

theorem Scanned.not_lt_current (h : s.Scanned) : ∀ k ∈ s.tokens, ¬ k.place < s.current.place := by
  intro k hk
  have hordered := h.ordered
  unfold current
  cases hs : s.tokens with
  | nil =>
    rw [hs] at hk
    cases hk
  | cons l w =>
    rw [hs] at hk hordered
    rcases List.mem_cons.mp hk with rfl | hk
    · exact Position.lt_irrefl _
    · exact Position.lt_asymm ((List.pairwise_cons.mp hordered).1 k hk)

/-- A place that no token lies before is passed with the next token. -/
theorem Scanned.past_of_tail (h : s.Scanned) (hp : ∀ k ∈ s.tokens, ¬ k.place < p)
    (ht : t.tokens <:+ s.tokens.tail) : t.Past p := by
  intro l hl
  have hordered := h.ordered
  have hmem := ht.subset hl
  cases hs : s.tokens with
  | nil =>
    rw [hs] at hmem
    cases hmem
  | cons k w =>
    rw [hs] at hmem hp hordered
    exact Position.lt_of_not_lt_of_lt (hp k List.mem_cons_self)
      ((List.pairwise_cons.mp hordered).1 l hmem)

theorem Scanned.past_current (h : s.Scanned) (ht : t.tokens <:+ s.tokens.tail) :
    t.Past s.current.place := h.past_of_tail h.not_lt_current ht

namespace Climbed

theorem nil (s : ParserState) : s.Climbed [] := ⟨nofun, .nil⟩

theorem single (h : ∀ k ∈ s.tokens, ¬ k.place < d.place) : s.Climbed [d] :=
  ⟨fun _ he => List.eq_of_mem_singleton he ▸ h, List.pairwise_singleton _ _⟩

theorem filter (h : s.Climbed ds) (P : Diagnostic → Bool) : s.Climbed (ds.filter P) :=
  ⟨fun d hd => h.reached d (List.mem_of_mem_filter hd), h.ordered.sublist List.filter_sublist⟩

theorem of_suffix (h : s.Climbed ds) (ht : t.tokens <:+ s.tokens) (hf : t.finish = s.finish) :
    t.Climbed ds := by
  refine ⟨fun d hd k hk => h.reached d hd k (ht.subset hk), ?_⟩
  rw [hf]
  exact h.ordered

/-- What is told of the text behind `t` comes behind all that has been passed there. -/
theorem append (hs : s.Scanned) (htf : t.finish = s.finish) (ht : t.Climbed ds)
    (hds : ∀ d ∈ ds, s.Has d.place) (hpast : ∀ d ∈ ds, t.Past d.place) (hu : u.Climbed es)
    (hes : ∀ e ∈ es, t.Has e.place) (htokens : u.tokens <:+ t.tokens)
    (hf : u.finish = t.finish) : u.Climbed (ds ++ es) := by
  have hleft := ht.of_suffix htokens hf
  refine ⟨fun d hd => ?_, List.pairwise_append.mpr ⟨hleft.ordered, hu.ordered, ?_⟩⟩
  · exact (List.mem_append.mp hd).elim (hleft.reached d) (hu.reached d)
  · intro d hd e he
    rcases hes e he with hend | ⟨k, hk, hplace⟩
    · rw [hf, htf, hend, htf]
      rcases hds d hd with hend' | ⟨l, hl, hplace'⟩
      · exact .inr ⟨hend', rfl⟩
      · exact .inl (hplace' ▸ hs.finish l hl)
    · exact .inl (hplace ▸ hpast d hd k hk)

end Climbed

/-- Recovery stops at once at a brace that closes the block it is in, or it skips a token. -/
theorem synchronize_cases (h : ∀ k ∈ s.tokens, k.kind ≠ .eof) :
    (0 < s.openBlocks ∧ s.kind = .closeCurly ∧ s.synchronize = s) ∨
      s.synchronize.tokens <:+ s.tokens.tail := by
  unfold synchronize
  cases hs : s.tokens with
  | nil => exact .inr (recover_suffix _ _ _)
  | cons k w =>
    have hk := h k (hs ▸ List.mem_cons_self)
    unfold recover
    split
    next heof => exact absurd heof hk
    next => exact .inr (by simp)
    next => exact .inr (recover_suffix _ _ _)
    next hclose =>
      by_cases hopen : 0 < s.openBlocks
      · refine .inl ⟨hopen, by simpa [kind, current, hs] using hclose, ?_⟩
        simp [hopen, ← hs]
      · simp only [hopen]
        exact .inr (recover_suffix _ _ _)
    next => exact .inr (recover_suffix _ _ _)

end ParserState

open ParserState

namespace Reply

/-- All that has been told when a rule answers, a failure last. -/
def told : Reply α → List Diagnostic
  | done _ t => t.reported
  | failed d t => t.reported ++ [d]

theorem told_map (f : α → β) (x : Reply α) : (x.map f).told = x.told := by cases x <;> rfl

theorem next_map (f : α → β) (x : Reply α) : (x.map f).next = x.next := by cases x <;> rfl

/-- What is worth showing of all that was told since `s` is in the order of the text. -/
def Climbs (s : ParserState) (x : Reply α) : Prop :=
  ∃ ds, x.told = s.reported ++ ds ∧ x.next.Climbed (reportable ds)

/-- Success is quiet, and `P` holds behind it; a failure comes in the order of the text. -/
def ClimbsFrom (s : ParserState) (P : α → ParserState → Prop) : Reply α → Prop
  | done a t => s.Quiet t ∧ P a t
  | failed d t => (failed d t : Reply α).Climbs s

variable {s t : ParserState} {x : Reply α} {P : α → ParserState → Prop} {d : Diagnostic}

theorem Climbs.map (h : x.Climbs s) (f : α → β) : (x.map f).Climbs s := by
  rw [Climbs, told_map, next_map]
  exact h

theorem Climbs.of_quiet (hq : s.Quiet t) (h : x.Climbs t) : x.Climbs s := by
  rw [Climbs, ← hq.reported]
  exact h

theorem ClimbsFrom.of_quiet (hq : s.Quiet t) (h : x.ClimbsFrom t P) : x.ClimbsFrom s P := by
  cases x with
  | done a u => exact ⟨hq.trans h.1, h.2⟩
  | failed d u => exact Climbs.of_quiet hq h

theorem ClimbsFrom.map (h : x.ClimbsFrom s P) (f : α → β) :
    (x.map f).ClimbsFrom s fun _ _ => True := by
  cases x with
  | done a t => exact ⟨h.1, trivial⟩
  | failed d t => exact h

/-- What a rule tells, whether it succeeds or not. -/
def Tells (s : ParserState) (x : Reply α) : Prop :=
  ∃ ds, x.told = s.reported ++ ds ∧ s.Tells x.next ds

theorem TellsFrom.tells {P : α → Prop} (h : (failed d t : Reply α).TellsFrom s P) :
    (failed d t : Reply α).Tells s := by
  obtain ⟨ds, hreported, htells⟩ := h
  exact ⟨ds ++ [d], by rw [told, hreported, List.append_assoc], htells⟩

theorem ReportsFrom.tells {x : Reply (List Stmt × Bool)} (h : x.ReportsFrom s) : x.Tells s := by
  cases x with
  | done a t =>
    obtain ⟨ds, hreported, htells, -⟩ := h
    exact ⟨ds, hreported, htells⟩
  | failed d t =>
    obtain ⟨ds, hreported, htells⟩ := h
    exact ⟨ds ++ [d], by rw [told, hreported, List.append_assoc], htells⟩

theorem climbs_failed (hd : ∀ k ∈ s.tokens, ¬ k.place < d.place) :
    (failed d s : Reply α).Climbs s :=
  ⟨[d], rfl, (Climbed.single hd).filter _⟩

end Reply

/-- From `s` to `t` the faults `ds` were told, and all of them have been passed. -/
structure ParserState.Leaves (s t : ParserState) (ds : List Diagnostic) : Prop where
  reported : t.reported = s.reported ++ ds
  tells : s.Tells t ds
  climbed : t.Climbed (reportable ds)
  past : ∀ d ∈ reportable ds, t.Past d.place

namespace Reply

variable {s t : ParserState} {d : Diagnostic} {ds : List Diagnostic}

theorem Climbs.of_leaves {x : Reply α} (hs : s.Scanned) (h : s.Leaves t ds) (hx : x.Climbs t)
    (htells : x.Tells t) : x.Climbs s := by
  obtain ⟨es, hes, hclimbed⟩ := hx
  obtain ⟨es', hes', htells⟩ := htells
  obtain rfl : es = es' := List.append_cancel_left (hes.symm.trans hes')
  refine ⟨ds ++ es, by rw [hes, h.reported, List.append_assoc], ?_⟩
  rw [reportable, List.filter_append]
  exact h.climbed.append hs h.tells.finish (fun d hd => h.tells.placed (List.mem_of_mem_filter hd))
    h.past hclimbed (fun e he => htells.placed (List.mem_of_mem_filter he)) htells.tokens
    htells.finish

/-- A failure that is reported and skipped has been passed, unless the block that it is in ends
right there. -/
theorem Climbs.synchronize (hs : s.Tidy) (h : (failed d t : Reply α).Climbs s)
    (htells : (failed d t : Reply α).Tells s) :
    (0 < t.openBlocks ∧ (t.report d).synchronize.kind = .closeCurly ∧
      ∃ ds, (t.report d).synchronize.reported = s.reported ++ ds ∧
        (t.report d).synchronize.Climbed (reportable ds)) ∨
    ∃ ds, s.Leaves (t.report d).synchronize ds := by
  obtain ⟨ds, hds, hclimbed⟩ := h
  obtain ⟨ds', hds', htells⟩ := htells
  obtain rfl : ds = ds' := List.append_cancel_left (hds.symm.trans hds')
  have ht : t.Tidy := hs.of_suffix htells.tokens htells.finish
  have hsuffix : (t.report d).synchronize.tokens <:+ t.tokens := recover_suffix _ _ _
  have hskipped : (t.report d).synchronize.Climbed (reportable ds) :=
    hclimbed.of_suffix hsuffix rfl
  rcases synchronize_cases (s := t.report d) ht.kinds with ⟨hopen, hkind, hstop⟩ | hpast
  · exact .inl ⟨hopen, by rw [hstop]; exact hkind, ds, hds, hskipped⟩
  · exact .inr ⟨ds, hds, htells.mono List.suffix_rfl rfl hsuffix rfl, hskipped,
      fun e he => ht.past_of_tail (hclimbed.reached e he) hpast⟩

end Reply

namespace Rule

/-- In the state `s` the rule succeeds quietly, with `P` behind it, or fails in the order of the
text. -/
def Climbing (s : ParserState) (P : α → ParserState → Prop) (r : Rule α) : Prop :=
  (r s).ClimbsFrom s P

/-- What is asked of the rule for operands. -/
structure OperandClimbs (operand : Operand) : Prop where
  steady : ∀ bp, (operand bp).Steady
  telling {s : ParserState} : s.Scanned → ∀ bp, Telling s (fun e => s.Has e.place) (operand bp)
  climbing {s : ParserState} : s.Tidy → ∀ bp,
    Climbing s (fun e t => t.Past e.place) (operand bp)

namespace Climbing

variable {s : ParserState} {P : α → ParserState → Prop} {Q : β → ParserState → Prop} {r : Rule α}
  {f : α → Rule β}

theorem pure {a : α} (h : P a s) : Climbing s P (Pure.pure a) := ⟨.refl s, h⟩

theorem bind (hr : Climbing s P r) (hs : s.Tidy)
    (hf : ∀ a t, t.Tidy → s.Quiet t → P a t → Climbing t Q (f a)) : Climbing s Q (r >>= f) := by
  unfold Climbing at hr ⊢
  rw [bind_apply]
  cases hreply : r s with
  | done a t =>
    rw [hreply] at hr
    exact .of_quiet hr.1 (hf a t (hr.1.tidy hs) hr.1 hr.2)
  | failed d t =>
    rw [hreply] at hr
    exact hr

theorem ite {c : Prop} [Decidable c] {r' : Rule α} (h : Climbing s P r) (h' : Climbing s P r') :
    Climbing s P (if c then r else r') := by
  split
  · exact h
  · exact h'

theorem fail {d : Diagnostic} (h : s.Past d.place) : Climbing s P (Rule.fail d) :=
  Reply.climbs_failed fun k hk => Position.lt_asymm (h k hk)

theorem current : Climbing s (fun _ _ => True) Rule.current := ⟨.refl s, trivial⟩

theorem advanceIf (k : TokenKind) : Climbing s (fun _ _ => True) (Rule.advanceIf k) := by
  unfold Climbing
  by_cases hk : s.kind = k
  · rw [advanceIf_done_true hk]
    exact ⟨.advance s, trivial⟩
  · rw [advanceIf_done_false hk]
    exact ⟨.refl s, trivial⟩

theorem enterType (shape : TypeShape) : Climbing s (fun _ _ => True) (Rule.enterType shape) :=
  ⟨⟨List.suffix_rfl, rfl, rfl⟩, trivial⟩

theorem fitSignature {name : Token} (hn : s.Past name.place) (params : List Token)
    (g : Option TypeId) : Climbing s (fun _ _ => True) (Rule.fitSignature name params g) := by
  cases g with
  | none => exact pure trivial
  | some g =>
    unfold Climbing Rule.fitSignature
    dsimp only
    split
    · exact fail (P := fun _ _ => True) hn
    · split
      · exact ⟨.refl s, trivial⟩
      · exact fail (P := fun _ _ => True) hn

section Tidy

variable (hs : s.Tidy)
include hs

theorem refuse (fault : String → Fault) : Climbing s P (Rule.refuse fault) :=
  Reply.climbs_failed hs.not_lt_current

theorem advance : Climbing s (fun k t => t.Past k.place) Rule.advance :=
  ⟨.advance s, hs.past_current List.suffix_rfl⟩

theorem expect (k : TokenKind) : Climbing s (fun k t => t.Past k.place) (Rule.expect k) := by
  unfold Climbing
  by_cases hk : s.kind = k
  · rw [expect_done hk]
    exact advance hs
  · rw [expect_failed hk]
    exact refuse (P := fun k t => t.Past k.place) hs _

theorem commaSeparated (h : ∀ {t}, t.Tidy → Climbing t P r) (n : Nat) :
    Climbing s (fun _ _ => True) (Rule.commaSeparated r n) := by
  induction n generalizing s with
  | zero => exact (h hs).bind hs fun _ _ _ _ _ => .pure trivial
  | succ n ih =>
    exact (h hs).bind hs fun _ _ ht _ _ => (advanceIf _).bind ht fun _ _ hu _ _ =>
      .ite ((ih hu).bind hu fun _ _ _ _ _ => .pure trivial) (.pure trivial)

theorem itemsBefore (h : ∀ {t}, t.Tidy → Climbing t P r) (close : TokenKind) :
    Climbing s (fun _ _ => True) (Rule.itemsBefore close r) := by
  unfold Climbing Rule.itemsBefore
  by_cases hk : s.kind = close
  · rw [if_pos hk]
    exact ⟨.refl s, trivial⟩
  · rw [if_neg hk]
    exact commaSeparated hs h s.tokens.length

theorem typeWithin (v : Vocabulary) (n : Nat) :
    Climbing s (fun _ _ => True) (Rule.typeWithin v n) := by
  induction n generalizing s with
  | zero => exact refuse hs _
  | succ n ih =>
    unfold Climbing Rule.typeWithin
    cases v.typeForm? s.kind with
    | none => exact refuse (P := fun _ _ => True) hs _
    | some form =>
      cases form with
      | primitive =>
        simp only [Rule.typeOfForm, Rule.primitiveType]
        cases s.kind.primitive? with
        | none => exact refuse (P := fun _ _ => True) hs _
        | some p => exact ⟨.advance s, trivial⟩
      | pointer =>
        exact (expect hs _).bind hs fun _ _ ht _ _ => (ih ht).bind ht fun _ _ _ _ _ => enterType _
      | function =>
        exact (expect hs _).bind hs fun _ _ ht _ _ => (itemsBefore ht ih _).bind ht
          fun _ _ ht _ _ => (expect ht _).bind ht fun _ _ ht _ _ => (expect ht _).bind ht
          fun _ _ ht _ _ => (ih ht).bind ht fun _ _ _ _ _ => enterType _

theorem signature? (v : Vocabulary) : Climbing s (fun _ _ => True) (Rule.signature? v) :=
  (advanceIf _).bind hs fun _ t ht _ _ =>
    .ite (bind (typeWithin ht v t.tokens.length) ht fun _ _ _ _ _ => .pure trivial) (.pure trivial)

theorem primary : Climbing s (fun e t => t.Past e.place) Rule.primary := by
  unfold Climbing Rule.primary
  split
  case h_6 => exact refuse (P := fun e t => t.Past e.place) hs _
  all_goals exact ⟨.advance s, hs.past_current List.suffix_rfl⟩

end Tidy

section Operand

variable (hs : s.Tidy) {v : Vocabulary} {operand : Operand} (h : OperandClimbs operand)
include hs h

theorem statement : Climbing s (fun _ _ => True) (Rule.statement operand) := by
  refine (h.climbing hs _).bind hs fun e t ht _ he => (advanceIf _).bind ht
    fun assigned u hu hq _ => ?_
  cases assigned with
  | false => exact (expect hu _).bind hu fun _ _ _ _ _ => .pure trivial
  | true =>
    cases hname : e.name? with
    | none => exact fail (he.of_suffix hq.tokens)
    | some n =>
      exact (h.climbing hu _).bind hu fun _ _ hw _ _ => (expect hw _).bind hw
        fun _ _ _ _ _ => .pure trivial

theorem varDecl (p : Position) (g : Option TypeId) :
    Climbing s (fun _ _ => True) (Rule.varDecl operand p g) :=
  (expect hs _).bind hs fun _ _ ht _ _ => (expect ht _).bind ht fun _ _ ht _ _ =>
    (expect ht _).bind ht fun _ _ ht _ _ => (h.climbing ht _).bind ht fun _ _ ht _ _ =>
    (expect ht _).bind ht fun _ _ _ _ _ => .pure trivial

/-- The name of a function has been read when its signature is found not to fit. -/
theorem fnDecl (p : Position) (g : Option TypeId) :
    Climbing s (fun _ _ => True) (Rule.fnDecl operand p g) :=
  (expect hs _).bind hs fun _ _ ht _ _ => (expect ht _).bind ht fun _ _ ht _ hname =>
    (expect ht _).bind ht fun _ _ ht hopen _ =>
    (itemsBefore ht (fun hu => expect hu _) _).bind ht fun _ _ ht hparams _ =>
    (expect ht _).bind ht fun _ _ ht hclose _ =>
    (fitSignature (hname.of_suffix
      (hclose.tokens.trans (hparams.tokens.trans hopen.tokens))) _ _).bind ht fun _ _ ht _ _ =>
    (expect ht _).bind ht fun _ _ ht _ _ => (h.climbing ht _).bind ht fun _ _ ht _ _ =>
    (expect ht _).bind ht fun _ _ _ _ _ => .pure trivial

theorem declaration : Climbing s (fun _ _ => True) (Rule.declaration v operand) := by
  refine current.bind hs fun start _ ht _ _ => (signature? ht v).bind ht fun g _ ht _ _ =>
    current.bind ht fun k _ ht _ _ => ?_
  cases k.kind
  case kwVar => exact varDecl ht h _ _
  case kwFun => exact fnDecl ht h _ _
  all_goals exact refuse ht _

theorem blockItem : Climbing s (fun _ _ => True) (Rule.blockItem v operand) := by
  unfold Climbing Rule.blockItem
  by_cases hk : v.declares s.kind
  · rw [if_pos hk]
    exact Reply.ClimbsFrom.map (declaration hs h) _
  · rw [if_neg hk]
    exact statement hs h

/-- Recovery that stops at a closing brace leaves it to the block, which ends there; any other
recovery leaves behind all that was told. -/
theorem itemsWithin {n : Nat} (hn : s.tokens.length ≤ n) :
    (Rule.itemsWithin (Rule.blockItem v operand) n s).Climbs s := by
  induction n generalizing s with
  | zero => exact Reply.climbs_failed hs.not_lt_current
  | succ n ih =>
    unfold Rule.itemsWithin
    split
    next => exact ⟨[], (List.append_nil _).symm, .nil _⟩
    next => exact Reply.climbs_failed hs.not_lt_current
    next hclose heof =>
      have hitem := blockItem (v := v) hs h
      have hround := (Consuming.blockItem (v := v) h.steady).round (.blockItem h.steady) heof
        (.inl hclose)
      unfold Climbing at hitem
      unfold round at hround
      have htelling := Telling.blockItem (v := v) hs.toScanned h.telling (.refl s)
      cases hreply : Rule.blockItem v operand s with
      | done st t =>
        rw [hreply] at hitem hround
        have hlt : t.tokens.length < s.tokens.length := hround.length_lt
        exact .of_quiet hitem.1 ((ih (hitem.1.tidy hs) (by omega)).map _)
      | failed d t =>
        rw [hreply] at hitem hround htelling
        have hlt : (t.report d).synchronize.tokens.length < s.tokens.length := hround.length_lt
        refine Reply.Climbs.map ?_ _
        rcases hitem.synchronize hs htelling.tells with
          ⟨-, hkind, ds, hreported, hclimbed⟩ | ⟨ds, hleaves⟩
        · -- the brace is a token behind the item, so a round is left in which it is read
          have hne := ParserState.tokens_ne_nil (s := (t.report d).synchronize) (by simp [hkind])
          have hpos := List.length_pos_iff.mpr hne
          obtain ⟨m, rfl⟩ : ∃ m, n = m + 1 := ⟨n - 1, by omega⟩
          simp only [Rule.itemsWithin, hkind]
          exact ⟨ds, hreported, hclimbed.of_suffix (List.tail_suffix _) rfl⟩
        · have hu := hs.of_suffix hleaves.tells.tokens hleaves.tells.finish
          exact .of_leaves hs.toScanned hleaves (ih hu (by omega))
            (Telling.itemsWithin hu.toScanned h.telling n).tells

theorem block : Climbing s (fun b t => t.Past b.2) (Rule.block v operand) := by
  have htelling := Telling.block (v := v) hs.toScanned h.telling (.refl s)
  have hconsuming := Consuming.block (v := v) h.steady (s := s)
  unfold Climbing
  by_cases hk : s.kind = .openCurly
  · have hinside : s.advance.enterBlock.Tidy := hs.of_suffix (List.tail_suffix _) rfl
    have hitems := itemsWithin (v := v) (n := s.advance.tokens.length) hinside h (Nat.le_refl _)
    rw [block_of_brace hk] at htelling hconsuming ⊢
    cases hreply : Rule.itemsWithin (Rule.blockItem v operand) s.advance.tokens.length
        s.advance.enterBlock with
    | failed d u =>
      rw [hreply] at hitems
      obtain ⟨ds, htold, hclimbed⟩ := hitems
      exact ⟨ds, htold, hclimbed.of_suffix List.suffix_rfl rfl⟩
    | done a u =>
      obtain ⟨sts, broken⟩ := a
      rw [hreply] at hitems htelling hconsuming
      cases broken with
      | true =>
        obtain ⟨ds, htold, hclimbed⟩ := hitems
        have hshown : reportable (ds ++ [⟨.brokenBlock, s.current.place⟩]) = reportable ds := by
          simp [reportable, Diagnostic.isReportable]
        refine ⟨ds ++ [⟨.brokenBlock, s.current.place⟩], ?_, ?_⟩
        · rw [← List.append_assoc]
          exact congrArg (· ++ [_]) htold
        · rw [hshown]
          exact hclimbed.of_suffix List.suffix_rfl rfl
      | false =>
        exact ⟨htelling.1, hs.past_current (hconsuming rfl).suffix_tail⟩
  · rw [block_of_other hk]
    exact refuse (P := fun b t => t.Past b.2) hs _

theorem exprOfLead (form : LeadForm) :
    Climbing s (fun e t => t.Past e.place) (Rule.exprOfLead v operand form) := by
  cases form with
  | primary => exact primary hs
  | prefixed =>
    exact (advance hs).bind hs fun _ _ ht _ hk => (h.climbing ht _).bind ht fun _ _ _ hq _ =>
      .pure (hk.of_suffix hq.tokens)
  | grouping =>
    exact (expect hs _).bind hs fun _ _ ht _ _ => (h.climbing ht _).bind ht fun _ _ ht _ he =>
      (expect ht _).bind ht fun _ _ _ hq _ => .pure (he.of_suffix hq.tokens)
  | block => exact (block hs h).bind hs fun _ _ _ _ hp => .pure hp
  | conditional =>
    exact (expect hs _).bind hs fun _ _ ht _ hk => (h.climbing ht _).bind ht fun _ _ ht hc _ =>
      (expect ht _).bind ht fun _ _ ht hthen _ => (h.climbing ht _).bind ht fun _ _ ht ha _ =>
      (advanceIf _).bind ht fun _ _ ht helse _ =>
        have hk := hk.of_suffix
          (helse.tokens.trans (ha.tokens.trans (hthen.tokens.trans hc.tokens)))
        .ite ((h.climbing ht _).bind ht fun _ _ _ hb _ => .pure (hk.of_suffix hb.tokens)) (.pure hk)
  | returned =>
    exact (expect hs _).bind hs fun _ _ ht _ hk => (h.climbing ht _).bind ht fun _ _ _ hq _ =>
      .pure (hk.of_suffix hq.tokens)
  | yielded =>
    exact (expect hs _).bind hs fun _ _ ht _ hk => (h.climbing ht _).bind ht fun _ _ _ hq _ =>
      .pure (hk.of_suffix hq.tokens)

theorem exprOfTail {left : Expr} (hl : s.Past left.place) (bp : BindingPower) (form : TailForm) :
    Climbing s (fun e t => t.Past e.place) (Rule.exprOfTail operand left bp form) := by
  cases form with
  | comparison =>
    exact (advance hs).bind hs fun _ _ ht _ hk => (h.climbing ht _).bind ht fun _ _ _ hq _ =>
      .pure (hk.of_suffix hq.tokens)
  | arithmetic =>
    exact (advance hs).bind hs fun _ _ ht _ hk => (h.climbing ht _).bind ht fun _ _ _ hq _ =>
      .pure (hk.of_suffix hq.tokens)
  | call =>
    exact (expect hs _).bind hs fun _ _ ht hopen _ =>
      (itemsBefore ht (fun hu => h.climbing hu _) _).bind ht fun _ _ ht has _ =>
      (expect ht _).bind ht fun _ _ _ hclose _ =>
      .pure (hl.of_suffix (hclose.tokens.trans (has.tokens.trans hopen.tokens)))

theorem tailsWithin (bp : BindingPower) (n : Nat) {left : Expr} (hl : s.Past left.place) :
    Climbing s (fun e t => t.Past e.place) (Rule.tailsWithin v operand bp n left) := by
  induction n generalizing s left with
  | zero => exact .pure hl
  | succ n ih =>
    unfold Climbing Rule.tailsWithin
    cases v.tail? s.kind with
    | none => exact ⟨.refl s, hl⟩
    | some tail =>
      dsimp only
      split
      · exact (exprOfTail hs h hl _ _).bind hs fun _ _ ht _ he => ih ht he
      · exact ⟨.refl s, hl⟩

end Operand

theorem exprWithin (v : Vocabulary) (n : Nat) (hs : s.Tidy) (bp : BindingPower) :
    Climbing s (fun e t => t.Past e.place) (Rule.exprWithin v n bp) := by
  induction n generalizing s bp with
  | zero => exact refuse hs _
  | succ n ih =>
    have hoperand : OperandClimbs (Rule.exprWithin v n) :=
      ⟨Steady.exprWithin v n, fun ht => Telling.exprWithin v n ht, fun ht => ih ht⟩
    unfold Climbing Rule.exprWithin
    cases v.lead? s.kind with
    | none => exact refuse (P := fun e t => t.Past e.place) hs _
    | some form =>
      exact (exprOfLead hs hoperand form).bind hs fun e t ht _ he =>
        tailsWithin ht hoperand bp t.tokens.length he

theorem operandClimbs_expr (v : Vocabulary) : OperandClimbs (Rule.expr v) where
  steady := Steady.expr v
  telling hs := Telling.expr hs v
  climbing hs bp := exprWithin v _ hs bp

theorem topLevel (v : Vocabulary) (hs : s.Tidy) :
    Climbing s (fun _ _ => True) (Rule.topLevel v) := by
  unfold Climbing Rule.topLevel
  by_cases hk : v.declares s.kind
  · rw [if_pos hk]
    exact declaration hs (operandClimbs_expr v)
  · rw [if_neg hk]
    exact refuse (P := fun _ _ => True) hs _

end Climbing

/-- Outside all blocks recovery always goes on behind what was told. -/
theorem climbs_declarationsWithin (v : Vocabulary) (n : Nat) {s : ParserState} (hs : s.Tidy)
    (hopen : s.openBlocks = 0) :
    (Reply.done () (declarationsWithin v n s).2).Climbs s := by
  induction n generalizing s with
  | zero => exact ⟨[], (List.append_nil _).symm, .nil _⟩
  | succ n ih =>
    unfold declarationsWithin
    by_cases hmore : s.hasTokens = true
    · rw [if_pos hmore]
      have hclimbing : (topLevel v s).ClimbsFrom s fun _ _ => True := Climbing.topLevel v hs
      have htelling := Telling.topLevel hs.toScanned v (.refl s)
      have hcontinues := Steady.topLevel v s
      cases hreply : topLevel v s with
      | done d t =>
        rw [hreply] at hclimbing hcontinues
        exact .of_quiet hclimbing.1 (ih (hclimbing.1.tidy hs) (hcontinues.openBlocks.trans hopen))
      | failed d t =>
        rw [hreply] at hclimbing htelling hcontinues
        have htopen : t.openBlocks = 0 := hcontinues.1.openBlocks.trans hopen
        rcases hclimbing.synchronize hs htelling.tells with ⟨hpos, -⟩ | ⟨ds, hleaves⟩
        · omega
        · have hu := hs.of_suffix hleaves.tells.tokens hleaves.tells.finish
          exact .of_leaves hs.toScanned hleaves (ih hu htopen)
            (tells_declarationsWithin v n hu.toScanned)
    · rw [if_neg hmore]
      exact ⟨[], (List.append_nil _).symm, .nil _⟩

end Rule

namespace Program

/-- What is told of a program that cannot be read is told at the places of tokens, and what is worth
showing of it in the order of the text: each at a token behind the one before, or both at the end of
the text. -/
theorem ascending_of_parse_error {source : String} {T : TypeTable} {ds : List Diagnostic}
    (h : (parse source T).1 = .error ds) :
    (∀ d ∈ ds, ∃ k ∈ tokenize source, k.place = d.place) ∧
    ∃ finish, (tokenize source).getLast? = some finish ∧ finish.kind = .eof ∧
      (reportable ds).Pairwise fun d e =>
        d.place < e.place ∨ d.place = finish.place ∧ e.place = finish.place := by
  obtain ⟨front, finish, _, rfl, hlast, hfinish, -, htells⟩ := tells_of_parse_error h
  have htokens : tokenize source = (tokenize source).dropLast ++ [finish] :=
    (List.dropLast_append_getLast? finish hlast).symm
  have hend := ParserState.finish_ofSource htokens T
  have hplaced : ∀ d ∈ front, d.place = finish.place ∨
      ∃ k ∈ (tokenize source).dropLast, k.place = d.place := by
    intro d hd
    exact (htells.placed hd).imp_left (·.trans hend)
  refine ⟨fun d hd => ?_, finish, hlast, hfinish, ?_⟩
  · have hmem : finish ∈ tokenize source := List.mem_of_getLast? hlast
    rcases List.mem_append.mp hd with hd | hd
    · rcases hplaced d hd with hd | ⟨k, hk, hplace⟩
      · exact ⟨finish, hmem, hd.symm⟩
      · exact ⟨k, List.dropLast_subset _ hk, hplace⟩
    · exact ⟨finish, hmem, by rw [List.mem_singleton.mp hd]⟩
  · have htidy := ParserState.tidy_ofSource source T
    have hfront : faults source T = front := by
      unfold faults
      rw [h]
      exact List.dropLast_concat
    obtain ⟨es, hes, hclimbed⟩ :=
      Rule.climbs_declarationsWithin .full (ParserState.ofSource source T).tokens.length htidy rfl
    obtain rfl : es = front := (hes.symm.trans faults_eq.symm).trans hfront
    obtain ⟨_, _, htold⟩ := Rule.tells_declarationsWithin .full
      (ParserState.ofSource source T).tokens.length htidy.toScanned
    have hnext := htold.finish.trans hend
    have hordered := hclimbed.ordered
    rw [Reply.next, hnext] at hordered
    rw [reportable, List.filter_append, List.pairwise_append]
    refine ⟨hordered, (List.pairwise_singleton _ _).sublist List.filter_sublist, ?_⟩
    intro d hd e he
    have he : e.place = finish.place :=
      congrArg Diagnostic.place (List.mem_singleton.mp (List.mem_of_mem_filter he))
    rw [he]
    rcases hplaced d (List.mem_of_mem_filter hd) with hd | ⟨k, hk, hplace⟩
    · exact .inr ⟨hd, rfl⟩
    · refine .inl ?_
      rw [← hplace, ← hend]
      exact htidy.finish k hk

/-- A signature that does not fit, an item that fails at the brace of its block, and in two blocks
that are not closed an assignment to what is no name. -/
theorem ascending_of_unclosed_blocks :
    ∃ ds, ∃ finish : Token, (parse
      "of Int fun f() = 1; fun g() = \x7b 1 + \x7d; fun h() = \x7b \x7b 1 = 2; " .initial).1 =
        .error ds ∧
      (reportable ds).map Diagnostic.place =
        [⟨11, 0, 11⟩, ⟨36, 0, 36⟩, ⟨53, 0, 53⟩, ⟨60, 0, 60⟩, ⟨60, 0, 60⟩, ⟨60, 0, 60⟩] ∧
      finish.kind = .eof ∧ (reportable ds).Pairwise fun d e =>
        d.place < e.place ∨ d.place = finish.place ∧ e.place = finish.place := by
  have h : (parse
      "of Int fun f() = 1; fun g() = \x7b 1 + \x7d; fun h() = \x7b \x7b 1 = 2; " .initial).1 =
      .error [⟨.signatureNotFunction "f" "Int", ⟨11, 0, 11⟩⟩, ⟨.noExpression "\x7d", ⟨36, 0, 36⟩⟩,
        ⟨.brokenBlock, ⟨30, 0, 30⟩⟩, ⟨.notAssignable, ⟨53, 0, 53⟩⟩,
        ⟨.unexpectedToken .closeCurly "EOF", ⟨60, 0, 60⟩⟩,
        ⟨.unexpectedToken .closeCurly "EOF", ⟨60, 0, 60⟩⟩,
        ⟨.brokenProgram 6, ⟨60, 0, 60⟩⟩] := by cbv
  obtain ⟨-, finish, -, hfinish, hordered⟩ := ascending_of_parse_error h
  exact ⟨_, finish, h, rfl, hfinish, hordered⟩

end Program

end FrontEnd
