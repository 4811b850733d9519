import FrontEnd.Proofs.Grammar.Agreement
import FrontEnd.Proofs.Token.Layout
import Mathlib.Data.List.Chain

/-! What a rule that fails has reported. A broken block is told at its opening brace, right behind
the last of the faults that were reported in it. -/

namespace FrontEnd

variable {α β : Type}

/-- A fault that only sums up others. -/
def Fault.sumsUp : Fault → Bool
  | brokenBlock | brokenProgram _ => true
  | _ => false

theorem Fault.sumsUp_eq_false_iff {f : Fault} :
    f.sumsUp = false ↔ f ≠ .brokenBlock ∧ ∀ n, f ≠ .brokenProgram n := by
  cases f <;> simp [sumsUp]

theorem Fault.sumsUp_of_isLexical {f : Fault} (h : f.isLexical = true) : f.sumsUp = false := by
  cases f <;> first | rfl | exact nomatch h

namespace ParserState

variable {s t u : ParserState} {p : Position} {d : Diagnostic} {ds es : List Diagnostic}

/-- The place of a token that is left, or of the end behind them. -/
def Has (s : ParserState) (p : Position) : Prop := p = s.finish ∨ ∃ k ∈ s.tokens, k.place = p

/-- The tokens stand in the order of their places, and a fault that one of them carries is its
own. -/
structure Scanned (s : ParserState) : Prop where
  ordered : s.tokens.Pairwise fun k l => k.place < l.place
  finish : ∀ k ∈ s.tokens, k.place < s.finish
  lexical : ∀ k ∈ s.tokens, ∀ f ∈ k.lexicalFault?, f.sumsUp = false

/-- From `s` to `t` nothing was reported. -/
structure Quiet (s t : ParserState) : Prop where
  tokens : t.tokens <:+ s.tokens
  finish : t.finish = s.finish
  reported : t.reported = s.reported

/-- What is told of the text between `s` and `t`. What sums up others is a broken block that has
been left; it comes right behind what it sums up. -/
structure Tells (s t : ParserState) (ds : List Diagnostic) : Prop where
  tokens : t.tokens <:+ s.tokens
  finish : t.finish = s.finish
  placed {d : Diagnostic} : d ∈ ds → s.Has d.place
  broken {d : Diagnostic} : d ∈ ds → d.fault.sumsUp = true → d.fault = .brokenBlock ∧
    (∃ k ∈ s.tokens, k.kind = .openCurly ∧ k.place = d.place) ∧ ∀ k ∈ t.tokens, d.place < k.place
  first : ∀ d ∈ ds.head?, d.fault.sumsUp = false
  caused : ds.IsChain fun e d => d.fault.sumsUp = true → d.place < e.place
  distinct : ds.Pairwise fun d e =>
    d.fault.sumsUp = true → e.fault.sumsUp = true → d.place ≠ e.place

theorem has_current (s : ParserState) : s.Has s.current.place := by
  unfold current
  cases hs : s.tokens with
  | nil => exact .inl rfl
  | cons k w => exact .inr ⟨k, hs ▸ List.mem_cons_self, rfl⟩

theorem Has.of_suffix (h : t.Has p) (hts : t.tokens <:+ s.tokens) (hf : t.finish = s.finish) :
    s.Has p :=
  h.imp (·.trans hf) fun ⟨k, hk, hp⟩ => ⟨k, hts.subset hk, hp⟩

theorem Scanned.of_suffix (h : s.Scanned) (hts : t.tokens <:+ s.tokens)
    (hf : t.finish = s.finish) : t.Scanned where
  ordered := h.ordered.sublist hts.sublist
  finish k hk := hf ▸ h.finish k (hts.subset hk)
  lexical k hk := h.lexical k (hts.subset hk)

theorem Scanned.lt_of_has (h : s.Scanned) {k : Token} {w : List Token} (hs : s.tokens = k :: w)
    (hp : s.advance.Has p) : k.place < p := by
  have hordered := h.ordered
  rw [hs, List.pairwise_cons] at hordered
  rcases hp with rfl | ⟨l, hl, rfl⟩
  · exact h.finish k (hs ▸ List.mem_cons_self)
  · exact hordered.1 l (by simpa [advance, hs] using hl)

theorem Scanned.sumsUp_unexpected (h : s.Scanned) {f : Fault} (hf : f.sumsUp = false) :
    (s.unexpected f).fault.sumsUp = false := by
  unfold unexpected current
  cases hs : s.tokens with
  | nil => exact hf
  | cons k w =>
    have hk : k ∈ s.tokens := hs ▸ List.mem_cons_self
    simp only [List.headD_cons]
    cases hfault : k.lexicalFault? with
    | none => exact hf
    | some g => exact h.lexical k hk g hfault

namespace Quiet

theorem refl (s : ParserState) : s.Quiet s := ⟨List.suffix_rfl, rfl, rfl⟩

theorem trans (h : s.Quiet t) (h' : t.Quiet u) : s.Quiet u :=
  ⟨h'.tokens.trans h.tokens, h'.finish.trans h.finish, h'.reported.trans h.reported⟩

theorem advance (s : ParserState) : s.Quiet s.advance := ⟨List.tail_suffix s.tokens, rfl, rfl⟩

theorem has (h : s.Quiet t) (hp : t.Has p) : s.Has p :=
  hp.of_suffix h.tokens h.finish

theorem scanned (h : s.Quiet t) (hs : s.Scanned) : t.Scanned :=
  hs.of_suffix h.tokens h.finish

end Quiet

namespace Tells

theorem nil (h : t.tokens <:+ s.tokens) (hf : t.finish = s.finish) : s.Tells t [] :=
  ⟨h, hf, nofun, nofun, nofun, .nil, .nil⟩

theorem singleton (h : t.tokens <:+ s.tokens) (hf : t.finish = s.finish) (hp : s.Has d.place)
    (hd : d.fault.sumsUp = false) : s.Tells t [d] where
  tokens := h
  finish := hf
  placed he := List.eq_of_mem_singleton he ▸ hp
  broken he hsums := by
    rw [List.eq_of_mem_singleton he, hd] at hsums
    exact nomatch hsums
  first e he := by
    rw [← Option.some.inj he]
    exact hd
  caused := .singleton _
  distinct := List.pairwise_singleton _ _

/-- What lies before and what lies behind is all the text that it is told of. -/
theorem mono {s' t' : ParserState} (h : s.Tells t ds) (hs : s.tokens <:+ s'.tokens)
    (hsf : s.finish = s'.finish) (ht : t'.tokens <:+ t.tokens) (htf : t'.finish = t.finish) :
    s'.Tells t' ds where
  tokens := ht.trans (h.tokens.trans hs)
  finish := htf.trans (h.finish.trans hsf)
  placed hd := (h.placed hd).of_suffix hs hsf
  broken hd hsums := by
    obtain ⟨hbroken, ⟨k, hk, hplace⟩, hahead⟩ := h.broken hd hsums
    exact ⟨hbroken, ⟨k, hs.subset hk, hplace⟩, fun l hl => hahead l (ht.subset hl)⟩
  first := h.first
  caused := h.caused
  distinct := h.distinct

/-- Blocks in different stretches of the text are different blocks. -/
theorem append (h : s.Tells t ds) (h' : t.Tells u es) : s.Tells u (ds ++ es) := by
  have hleft := h.mono List.suffix_rfl rfl h'.tokens h'.finish
  have hright := h'.mono h.tokens h.finish List.suffix_rfl rfl
  refine ⟨hleft.tokens, hleft.finish, fun hd => ?_, fun hd => ?_, fun d hd => ?_, ?_, ?_⟩
  · exact (List.mem_append.mp hd).elim hleft.placed hright.placed
  · exact (List.mem_append.mp hd).elim hleft.broken hright.broken
  · cases ds with
    | nil => exact h'.first d hd
    | cons e ds => exact h.first d hd
  · refine List.isChain_append.mpr ⟨h.caused, h'.caused, fun e _ d hd hsums => ?_⟩
    rw [h'.first d hd] at hsums
    exact nomatch hsums
  · refine List.pairwise_append.mpr ⟨h.distinct, h'.distinct, fun d hd e he hdsums hesums heq => ?_⟩
    obtain ⟨_, _, hahead⟩ := h.broken hd hdsums
    obtain ⟨_, ⟨k, hk, _, hplace⟩, _⟩ := h'.broken he hesums
    have hlt := hahead k hk
    rw [heq, hplace] at hlt
    exact Position.lt_irrefl _ hlt

theorem block (hs : s.Scanned) {k : Token} {w : List Token} (hk : s.tokens = k :: w)
    (hkind : k.kind = .openCurly) (h : s.advance.Tells t ds) (hne : ds ≠ []) :
    s.Tells t (ds ++ [⟨.brokenBlock, k.place⟩]) := by
  have hinside {e : Diagnostic} (he : e ∈ ds) : k.place < e.place := hs.lt_of_has hk (h.placed he)
  have hleft := h.mono (List.tail_suffix s.tokens) rfl List.suffix_rfl rfl
  have hmem : k ∈ s.tokens := hk ▸ List.mem_cons_self
  have hahead : ∀ l ∈ t.tokens, k.place < l.place := fun l hl =>
    hs.lt_of_has hk (.inr ⟨l, h.tokens.subset hl, rfl⟩)
  refine ⟨hleft.tokens, hleft.finish, fun hd => ?_, fun hd => ?_, fun d hd => ?_, ?_, ?_⟩
  · rcases List.mem_append.mp hd with hd | hd
    · exact hleft.placed hd
    · exact .inr ⟨k, hmem, by rw [List.eq_of_mem_singleton hd]⟩
  · rcases List.mem_append.mp hd with hd | hd
    · exact hleft.broken hd
    · rw [List.eq_of_mem_singleton hd]
      exact fun _ => ⟨rfl, ⟨k, hmem, hkind, rfl⟩, hahead⟩
  · rw [List.head?_append_of_ne_nil _ hne] at hd
    exact h.first d hd
  · refine List.isChain_append.mpr ⟨h.caused, .singleton _, fun e he d hd _ => ?_⟩
    rw [← Option.some.inj hd]
    exact hinside (List.mem_of_getLast? he)
  · refine List.pairwise_append.mpr
      ⟨h.distinct, List.pairwise_singleton _ _, fun d hd e he _ _ heq => ?_⟩
    have hlt := hinside hd
    rw [heq, List.eq_of_mem_singleton he] at hlt
    exact Position.lt_irrefl _ hlt

end Tells

end ParserState

open ParserState

/-- Success is quiet; a failure comes behind what was reported before it. -/
def Reply.TellsFrom (s : ParserState) (P : α → Prop) : Reply α → Prop
  | .done a t => s.Quiet t ∧ P a
  | .failed d t => ∃ ds, t.reported = s.reported ++ ds ∧ s.Tells t (ds ++ [d])

theorem Reply.TellsFrom.map {s : ParserState} {P : α → Prop} {f : α → β} {x : Reply α}
    (h : x.TellsFrom s P) : (x.map f).TellsFrom s fun _ => True := by
  cases x with
  | done a t => exact ⟨h.1, trivial⟩
  | failed d t => exact h

/-- What the items of a block have reported when its closing brace is read; without one they
fail. -/
def Reply.ReportsFrom (s : ParserState) : Reply (List Stmt × Bool) → Prop
  | .done (_, broken) t =>
    ∃ ds, t.reported = s.reported ++ ds ∧ s.Tells t ds ∧ (broken = true ↔ ds ≠ [])
  | .failed d t => ∃ ds, t.reported = s.reported ++ ds ∧ s.Tells t (ds ++ [d])

namespace Reply.ReportsFrom

variable {s t : ParserState} {x : Reply (List Stmt × Bool)}

theorem refuse (hs : s.Scanned) :
    (Rule.refuse (.unexpectedToken .closeCurly) s).ReportsFrom s :=
  ⟨[], by rw [List.append_nil],
    .singleton List.suffix_rfl rfl s.has_current (hs.sumsUp_unexpected rfl)⟩

theorem of_item_done (hq : s.Quiet t) (h : x.ReportsFrom t) (st : Stmt) :
    (x.map fun (sts, broken) => (st :: sts, broken)).ReportsFrom s := by
  cases x with
  | done a u =>
    obtain ⟨ds, hreported, htells, hbroken⟩ := h
    exact ⟨ds, by rw [hreported, hq.reported],
      htells.mono hq.tokens hq.finish List.suffix_rfl rfl, hbroken⟩
  | failed d u =>
    obtain ⟨ds, hreported, htells⟩ := h
    exact ⟨ds, by rw [hreported, hq.reported], htells.mono hq.tokens hq.finish List.suffix_rfl rfl⟩

theorem of_item_failed {d : Diagnostic} {ds : List Diagnostic}
    (hreported : t.reported = s.reported ++ ds) (htells : s.Tells t (ds ++ [d]))
    (h : x.ReportsFrom (t.report d).synchronize) :
    (x.map fun (sts, _) => (sts, true)).ReportsFrom s := by
  have hskipped : s.Tells (t.report d).synchronize (ds ++ [d]) :=
    htells.mono List.suffix_rfl rfl (recover_suffix _ _ _) rfl
  have hbefore : (t.report d).synchronize.reported = s.reported ++ (ds ++ [d]) := by
    change t.reported ++ [d] = _
    rw [hreported, List.append_assoc]
  cases x with
  | done a u =>
    obtain ⟨es, hes, hrest, _⟩ := h
    exact ⟨ds ++ [d] ++ es, by rw [hes, hbefore, List.append_assoc], hskipped.append hrest,
      by simp⟩
  | failed e u =>
    obtain ⟨es, hes, hrest⟩ := h
    refine ⟨ds ++ [d] ++ es, by rw [hes, hbefore, List.append_assoc], ?_⟩
    rw [List.append_assoc]
    exact hskipped.append hrest

end Reply.ReportsFrom

namespace Rule

/-- Whatever the rule does behind `s`, as long as nothing was reported since. -/
def Telling (s : ParserState) (P : α → Prop) (r : Rule α) : Prop :=
  ∀ ⦃t⦄, s.Quiet t → (r t).TellsFrom s P

namespace Telling

variable {s : ParserState} {P : α → Prop} {Q : β → Prop} {r : Rule α} {f : α → Rule β}

theorem pure {a : α} (h : P a) : Telling s P (Pure.pure a) := fun _ hq => ⟨hq, h⟩

theorem bind (hr : Telling s P r) (hf : ∀ a, P a → Telling s Q (f a)) : Telling s Q (r >>= f) := by
  intro t hq
  have htells := hr hq
  rw [bind_apply]
  cases hreply : r t with
  | done a u =>
    rw [hreply] at htells
    exact hf a htells.2 htells.1
  | failed d u =>
    rw [hreply] at htells
    exact htells

theorem fail {d : Diagnostic} (hd : d.fault.sumsUp = false) (hp : s.Has d.place) :
    Telling s P (Rule.fail d) := fun _ hq =>
  ⟨[], by rw [hq.reported, List.append_nil],
    .singleton hq.tokens hq.finish hp hd⟩

theorem ite {c : Prop} [Decidable c] {r' : Rule α} (h : Telling s P r) (h' : Telling s P r') :
    Telling s P (if c then r else r') := by
  split
  · exact h
  · exact h'

theorem current : Telling s (fun k => s.Has k.place) Rule.current :=
  fun t hq => ⟨hq, hq.has t.has_current⟩

theorem advance : Telling s (fun k => s.Has k.place) Rule.advance :=
  fun t hq => ⟨hq.trans (.advance t), hq.has t.has_current⟩

theorem advanceIf (k : TokenKind) : Telling s (fun _ => True) (Rule.advanceIf k) := by
  intro t hq
  by_cases hk : t.kind = k
  · rw [advanceIf_done_true hk]
    exact ⟨hq.trans (.advance t), trivial⟩
  · rw [advanceIf_done_false hk]
    exact ⟨hq, trivial⟩

theorem enterType (shape : TypeShape) : Telling s (fun _ => True) (Rule.enterType shape) := by
  intro t hq
  exact ⟨hq.trans ⟨List.suffix_rfl, rfl, rfl⟩, trivial⟩

theorem fitSignature {name : Token} (hn : s.Has name.place) (params : List Token)
    (g : Option TypeId) : Telling s (fun _ => True) (Rule.fitSignature name params g) := by
  intro t hq
  cases g with
  | none => exact ⟨hq, trivial⟩
  | some g =>
    unfold Rule.fitSignature
    dsimp only
    split
    · exact fail (P := fun _ => True) rfl hn hq
    · split
      · exact ⟨hq, trivial⟩
      · exact fail (P := fun _ => True) rfl hn hq

section Scanned

variable (hs : s.Scanned)
include hs

theorem refuse {fault : String → Fault} (hf : ∀ found, (fault found).sumsUp = false) :
    Telling s P (Rule.refuse fault) := fun t hq =>
  ⟨[], by rw [hq.reported, List.append_nil],
    .singleton hq.tokens hq.finish (hq.has t.has_current)
      ((hq.scanned hs).sumsUp_unexpected (hf _))⟩

theorem expect (k : TokenKind) : Telling s (fun k => s.Has k.place) (Rule.expect k) := by
  intro t hq
  by_cases hk : t.kind = k
  · rw [expect_done hk]
    exact advance hq
  · rw [expect_failed hk]
    exact refuse (P := fun k : Token => s.Has k.place) hs (fun _ => rfl) hq

omit hs in
theorem commaSeparated (h : Telling s P r) (n : Nat) :
    Telling s (fun _ => True) (Rule.commaSeparated r n) := by
  induction n with
  | zero => exact h.bind fun _ _ => .pure trivial
  | succ n ih =>
    exact h.bind fun _ _ => (advanceIf _).bind fun _ _ => .ite (ih.bind fun _ _ => .pure trivial)
      (.pure trivial)

omit hs in
theorem itemsBefore (h : Telling s P r) (close : TokenKind) :
    Telling s (fun _ => True) (Rule.itemsBefore close r) := by
  intro t hq
  unfold Rule.itemsBefore
  by_cases hk : t.kind = close
  · rw [if_pos hk]
    exact ⟨hq, trivial⟩
  · rw [if_neg hk]
    exact commaSeparated h t.tokens.length hq

theorem typeWithin (v : Vocabulary) (n : Nat) :
    Telling s (fun _ => True) (Rule.typeWithin v n) := by
  induction n with
  | zero => exact refuse hs fun _ => rfl
  | succ n ih =>
    intro t hq
    unfold Rule.typeWithin
    cases v.typeForm? t.kind with
    | none => exact refuse (P := fun _ => True) hs (fun _ => rfl) hq
    | some form =>
      cases form with
      | primitive =>
        simp only [Rule.typeOfForm, Rule.primitiveType]
        cases t.kind.primitive? with
        | none => exact refuse (P := fun _ => True) hs (fun _ => rfl) hq
        | some p => exact ⟨hq.trans (.advance t), trivial⟩
      | pointer =>
        exact ((expect hs _).bind fun _ _ => ih.bind fun _ _ => enterType _) hq
      | function =>
        exact ((expect hs _).bind fun _ _ => (itemsBefore ih _).bind fun _ _ =>
          (expect hs _).bind fun _ _ => (expect hs _).bind fun _ _ => ih.bind fun _ _ =>
          enterType _) hq

theorem signature? (v : Vocabulary) : Telling s (fun _ => True) (Rule.signature? v) :=
  (advanceIf _).bind fun _ _ => .ite
    (bind (fun t hq => typeWithin hs v t.tokens.length hq) fun _ _ => .pure trivial) (.pure trivial)

theorem primary : Telling s (fun e => s.Has e.place) Rule.primary := by
  intro t hq
  unfold Rule.primary
  split
  case h_6 => exact refuse (P := fun e : Expr => s.Has e.place) hs (fun _ => rfl) hq
  all_goals exact ⟨hq.trans (.advance t), hq.has t.has_current⟩

section Operand

variable {v : Vocabulary} {operand : Operand}
  (h : ∀ {t : ParserState}, t.Scanned → ∀ bp, Telling t (fun e => t.Has e.place) (operand bp))
include h

theorem statement : Telling s (fun _ => True) (Rule.statement operand) := by
  refine (h hs _).bind fun e he => (advanceIf _).bind fun assigned _ => ?_
  cases assigned with
  | false => exact (expect hs _).bind fun _ _ => .pure trivial
  | true =>
    cases hname : e.name? with
    | none => exact fail rfl he
    | some n => exact (h hs _).bind fun _ _ => (expect hs _).bind fun _ _ => .pure trivial

theorem varDecl (p : Position) (g : Option TypeId) :
    Telling s (fun _ => True) (Rule.varDecl operand p g) :=
  (expect hs _).bind fun _ _ => (expect hs _).bind fun _ _ => (expect hs _).bind fun _ _ =>
    (h hs _).bind fun _ _ => (expect hs _).bind fun _ _ => .pure trivial

theorem fnDecl (p : Position) (g : Option TypeId) :
    Telling s (fun _ => True) (Rule.fnDecl operand p g) :=
  (expect hs _).bind fun _ _ => (expect hs _).bind fun _ hname => (expect hs _).bind fun _ _ =>
    (itemsBefore (expect hs _) _).bind fun _ _ => (expect hs _).bind fun _ _ =>
    (fitSignature hname _ _).bind fun _ _ => (expect hs _).bind fun _ _ =>
    (h hs _).bind fun _ _ => (expect hs _).bind fun _ _ => .pure trivial

theorem declaration : Telling s (fun _ => True) (Rule.declaration v operand) := by
  refine current.bind fun start _ => (signature? hs v).bind fun g _ => current.bind fun k _ => ?_
  cases k.kind
  case kwVar => exact varDecl hs h _ _
  case kwFun => exact fnDecl hs h _ _
  all_goals exact refuse hs fun _ => rfl

theorem blockItem : Telling s (fun _ => True) (Rule.blockItem v operand) := by
  intro t hq
  unfold Rule.blockItem
  by_cases hk : v.declares t.kind
  · rw [if_pos hk]
    exact (declaration hs h hq).map
  · rw [if_neg hk]
    exact statement hs h hq

/-- Every item begins with nothing reported in it, so its block is left right behind what it
reports. -/
theorem itemsWithin (n : Nat) :
    (Rule.itemsWithin (Rule.blockItem v operand) n s).ReportsFrom s := by
  induction n generalizing s with
  | zero => exact .refuse hs
  | succ n ih =>
    unfold Rule.itemsWithin
    split
    next => exact ⟨[], by simp [ParserState.advance], .nil (List.tail_suffix _) rfl, by simp⟩
    next => exact .refuse hs
    next =>
      have hitem := blockItem (v := v) hs h (.refl s)
      cases hreply : Rule.blockItem v operand s with
      | done st t =>
        rw [hreply] at hitem
        exact .of_item_done hitem.1 (ih (hitem.1.scanned hs)) st
      | failed d t =>
        rw [hreply] at hitem
        obtain ⟨ds, hreported, htells⟩ := hitem
        have ht : (t.report d).synchronize.Scanned :=
          hs.of_suffix ((recover_suffix _ _ _).trans htells.tokens) htells.finish
        exact .of_item_failed hreported htells (ih ht)

theorem block : Telling s (fun b => s.Has b.2) (Rule.block v operand) := by
  intro t hq
  have ht := hq.scanned hs
  by_cases hk : t.kind = .openCurly
  · obtain ⟨k, w, htokens⟩ := List.exists_cons_of_ne_nil
      (ParserState.tokens_ne_nil (s := t) (by simp [hk]))
    have hcurrent : t.current = k := by simp [ParserState.current, htokens]
    have hitems := itemsWithin (v := v) (s := t.advance.enterBlock)
      (ht.of_suffix (List.tail_suffix _) rfl) h t.advance.tokens.length
    rw [block_of_brace hk]
    cases hreply : Rule.itemsWithin (Rule.blockItem v operand) t.advance.tokens.length
        t.advance.enterBlock with
    | failed d u =>
      rw [hreply] at hitems
      obtain ⟨ds, hreported, htells⟩ := hitems
      have hleft : s.Tells u.exitBlock (ds ++ [d]) :=
        htells.mono ((List.tail_suffix _).trans hq.tokens) hq.finish List.suffix_rfl rfl
      exact ⟨ds, hreported.trans (congrArg (· ++ ds) hq.reported), hleft⟩
    | done a u =>
      rw [hreply] at hitems
      obtain ⟨sts, broken⟩ := a
      obtain ⟨ds, hreported, htells, hbroken⟩ := hitems
      cases broken with
      | true =>
        have hinside : t.advance.Tells u.exitBlock ds :=
          htells.mono List.suffix_rfl rfl List.suffix_rfl rfl
        have hkind : k.kind = .openCurly := by rw [← hk, ← hcurrent]; rfl
        have hblock : t.Tells u.exitBlock (ds ++ [⟨.brokenBlock, t.current.place⟩]) := by
          rw [hcurrent]
          exact .block ht htokens hkind hinside (hbroken.mp rfl)
        exact ⟨ds, hreported.trans (congrArg (· ++ ds) hq.reported),
          hblock.mono hq.tokens hq.finish List.suffix_rfl rfl⟩
      | false =>
        have hnil : ds = [] := by simpa using hbroken
        rw [hnil, List.append_nil] at hreported
        exact ⟨hq.trans ⟨htells.tokens.trans (List.tail_suffix _), htells.finish, hreported⟩,
          hq.has t.has_current⟩
  · rw [block_of_other hk]
    exact refuse (P := fun b : List Stmt × Position => s.Has b.2) hs (fun _ => rfl) hq

theorem exprOfLead (form : LeadForm) :
    Telling s (fun e => s.Has e.place) (Rule.exprOfLead v operand form) := by
  cases form with
  | primary => exact primary hs
  | prefixed => exact advance.bind fun k hk => (h hs _).bind fun _ _ => .pure hk
  | grouping =>
    exact (expect hs _).bind fun _ _ => (h hs _).bind fun _ he => (expect hs _).bind fun _ _ =>
      .pure he
  | block => exact (block hs h).bind fun _ hp => .pure hp
  | conditional =>
    exact (expect hs _).bind fun _ hk => (h hs _).bind fun _ _ => (expect hs _).bind fun _ _ =>
      (h hs _).bind fun _ _ => (advanceIf _).bind fun _ _ =>
      .ite ((h hs _).bind fun _ _ => .pure hk) (.pure hk)
  | returned => exact (expect hs _).bind fun _ hk => (h hs _).bind fun _ _ => .pure hk
  | yielded => exact (expect hs _).bind fun _ hk => (h hs _).bind fun _ _ => .pure hk

theorem exprOfTail {left : Expr} (hl : s.Has left.place) (bp : BindingPower) (form : TailForm) :
    Telling s (fun e => s.Has e.place) (Rule.exprOfTail operand left bp form) := by
  cases form with
  | comparison => exact advance.bind fun _ hk => (h hs _).bind fun _ _ => .pure hk
  | arithmetic => exact advance.bind fun _ hk => (h hs _).bind fun _ _ => .pure hk
  | call =>
    exact (expect hs _).bind fun _ _ => (itemsBefore (h hs _) _).bind fun _ _ =>
      (expect hs _).bind fun _ _ => .pure hl

theorem tailsWithin (bp : BindingPower) (n : Nat) {left : Expr} (hl : s.Has left.place) :
    Telling s (fun e => s.Has e.place) (Rule.tailsWithin v operand bp n left) := by
  induction n generalizing left with
  | zero => exact .pure hl
  | succ n ih =>
    intro t hq
    unfold Rule.tailsWithin
    cases v.tail? t.kind with
    | none => exact ⟨hq, hl⟩
    | some tail =>
      dsimp only
      split
      · exact ((exprOfTail hs h hl _ _).bind fun _ he => ih he) hq
      · exact ⟨hq, hl⟩

end Operand

omit hs in
theorem exprWithin (v : Vocabulary) (n : Nat) {s : ParserState} (hs : s.Scanned)
    (bp : BindingPower) : Telling s (fun e => s.Has e.place) (Rule.exprWithin v n bp) := by
  induction n generalizing s bp with
  | zero => exact refuse hs fun _ => rfl
  | succ n ih =>
    intro t hq
    unfold Rule.exprWithin
    cases v.lead? t.kind with
    | none => exact refuse (P := fun e : Expr => s.Has e.place) hs (fun _ => rfl) hq
    | some form =>
      exact ((exprOfLead hs ih form).bind fun _ he _ hu => tailsWithin hs ih bp _ he hu) hq

theorem expr (v : Vocabulary) (bp : BindingPower) :
    Telling s (fun e => s.Has e.place) (Rule.expr v bp) :=
  fun _ hq => exprWithin v _ hs bp hq

theorem topLevel (v : Vocabulary) : Telling s (fun _ => True) (Rule.topLevel v) := by
  intro t hq
  unfold Rule.topLevel
  by_cases hk : v.declares t.kind
  · rw [if_pos hk]
    exact declaration hs (fun ht => expr ht v) hq
  · rw [if_neg hk]
    exact refuse (P := fun _ => True) hs (fun _ => rfl) hq

end Scanned

end Telling

end Rule

end FrontEnd
