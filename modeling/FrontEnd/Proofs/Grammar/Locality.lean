import FrontEnd.Proofs.Grammar.Following
import FrontEnd.Proofs.Token.Joining

/-! Recovery is local. A text that closes its blocks and ends with its only semicolon outside of
them leaves no trace in how the text below it is read, whatever is wrong inside it. -/

namespace FrontEnd

/-- A text read alone and on the lines below `a`, by then with the types and diagnostics of `u`. -/
def Frame.below (a : String) (T : TypeTable) (u : ParserState) : Frame :=
  ⟨fun p p' => p' = p.below a, T.size, u.types.size - T.size, .whole, [], u.reported⟩

def Diagnostic.below (a : String) (d : Diagnostic) : Diagnostic :=
  { d with place := d.place.below a }

theorem Diagnostic.map_below_of_like {a : String} {ds ds' : List Diagnostic}
    (h : List.Forall₂ (Diagnostic.Like fun p p' => p' = p.below a) ds ds') :
    ds' = ds.map (Diagnostic.below a) := by
  induction h with
  | nil => rfl
  | @cons d d' _ _ hd _ ih =>
    obtain ⟨f, p⟩ := d
    obtain ⟨f', p'⟩ := d'
    obtain ⟨rfl, rfl⟩ := hd
    rw [List.map_cons, ← ih]
    rfl

namespace ParserState

variable {a : String} {s u : ParserState}

theorem abreast_below (hT : s.types.Reachable) (hr : s.reported = [])
    (htokens : u.tokens = s.tokens.map (Token.below a)) (hfinish : u.finish = s.finish.below a)
    (htypes : s.types.Grows u.types) (hb : u.openBlocks = s.openBlocks) :
    s.Abreast (.below a s.types u) s.types s.openBlocks s.tokens u.tokens u where
  tokens := (List.append_nil _).symm
  tokens' := (List.append_nil _).symm
  window := by
    rw [htokens, List.forall₂_map_right_iff]
    exact List.forall₂_same.mpr fun _ _ => ⟨rfl, rfl, rfl⟩
  finish := fun _ => hfinish
  openBlocks := rfl
  openBlocks' := hb
  grows := .refl _
  types := .of_grows hT htypes
  reported := ⟨[], [], hr, (List.append_nil _).symm, .nil⟩

theorem Abreast.reported_below {T : TypeTable} {b : Nat} {v v' : List Token} {t t' : ParserState}
    (h : t.Abreast (.below a T u) T b v v' t') :
    t'.reported = u.reported ++ t.reported.map (Diagnostic.below a) := by
  obtain ⟨ds, ds', hr, hr', hlike⟩ := h.reported
  rw [hr, hr', Diagnostic.map_below_of_like hlike]
  rfl

/-- Behind the tokens of a text on the lines below `a` stand the same tokens, moved. -/
theorem ofSource_append (ha : ∀ t ∈ tokenize a, t.payload ≠ .fault .unterminatedString)
    (b : String) (T : TypeTable) :
    ofSource (a ++ "\n" ++ b) T = (ofSource a T).followedBy
      ((ofSource b T).tokens.map (Token.below a)) ((ofSource b T).finish.below a) := by
  obtain ⟨us, hus, _⟩ := (layout_tokensFrom [] b.toList).eq_append_endAt
  have hb : tokenize b = us ++ [.endAt (.behind ([] ++ b.toList))] := hus
  simp only [ofSource, ofTokens, followedBy, tokenize_append ha, hb, List.map_append,
    List.map_singleton, ← List.append_assoc, List.dropLast_concat, List.getLastD_concat]
  rfl

end ParserState

/-- A source that closes every block it opens and ends with its only semicolon outside of them. -/
def IsChunk (source : String) : Prop := Closes 0 ((tokenize source).dropLast.map Token.kind)

instance (source : String) : Decidable (IsChunk source) :=
  inferInstanceAs (Decidable (Closes _ _))

namespace IsChunk

variable {a : String}

theorem closedBy (h : IsChunk a) : ClosedBy 0 (tokenize a).dropLast := by
  refine ⟨h, fun he => ?_⟩
  obtain ⟨t, ht, hk⟩ := List.mem_map.mp he
  exact kind_ne_eof_of_mem_tokenize ht hk

theorem terminated (h : IsChunk a) : ∀ t ∈ tokenize a, t.payload ≠ .fault .unterminatedString := by
  intro t ht hs
  have hlast := (layout_tokensFrom [] a.toList).getLast?_of_unterminated ht hs
  exact nomatch h.last.symm.trans hlast

end IsChunk

theorem Rule.declarations_below {a : String} (ha : IsChunk a) (b : String) {T : TypeTable}
    (hT : T.Reachable) {x y z : List Decl × ParserState}
    (hx : declarations .full (.ofSource a T) = x) (hy : declarations .full (.ofSource b T) = y)
    (hz : declarations .full (.ofSource (a ++ "\n" ++ b) T) = z) :
    z.2.reported = x.2.reported ++ y.2.reported.map (Diagnostic.below a) ∧
      (∃ ds, z.1 = x.1 ++ ds ∧ Node.Like (fun p p' => p' = p.below a)
        (fun t t' => t' = t.shift T.size (x.2.types.size - T.size)) (.decls y.1) (.decls ds)) ∧
      x.2.types.Grows z.2.types ∧
      y.2.types.Shifted T.size (x.2.types.size - T.size) z.2.types := by
  obtain ⟨hnil, hcontinues, hread⟩ := declarations_followedBy (s := .ofSource a T) hT ha.closedBy
  obtain ⟨i, hi, hread⟩ := hread ((ParserState.ofSource b T).tokens.map (Token.below a))
    ((ParserState.ofSource b T).finish.below a)
  rw [List.length_map] at hi
  rw [ParserState.ofSource_append ha.terminated, hread] at hz
  rw [hx] at hnil hcontinues hz
  have hbelow := ParserState.abreast_below (a := a) (s := .ofSource b T)
    (u := x.2.followedBy ((ParserState.ofSource b T).tokens.map (Token.below a))
      ((ParserState.ofSource b T).finish.below a)) hT rfl
    (by rw [ParserState.followedBy, hnil, List.nil_append]) rfl hcontinues.types
    hcontinues.openBlocks
  obtain ⟨hlike, v, v', hfinal⟩ := declarationsWithin_abreast rfl (Nat.le_refl _) hi hbelow
    (Nat.le_refl _)
  have hgrows := continues_declarationsWithin .full i
    (x.2.followedBy ((ParserState.ofSource b T).tokens.map (Token.below a))
      ((ParserState.ofSource b T).finish.below a))
  subst hy hz
  exact ⟨hfinal.reported_below, ⟨_, rfl, hlike⟩, hgrows.types, hfinal.types⟩

namespace Program

variable {source : String} {T : TypeTable}

/-- What is told of a source but for the last diagnostic, which sums up the others. -/
def faults (source : String) (T : TypeTable) : List Diagnostic :=
  match (parse source T).1 with
  | .ok _ => []
  | .error ds => ds.dropLast

theorem faults_eq :
    faults source T = (Rule.declarations .full (.ofSource source T)).2.reported := by
  unfold faults parse ofState
  generalize Rule.declarations .full (.ofSource source T) = x
  obtain ⟨decls, s⟩ := x
  dsimp only
  cases hr : s.reported with
  | nil => rfl
  | cons d ds => exact List.dropLast_concat

theorem types_parse :
    (parse source T).2 = (Rule.declarations .full (.ofSource source T)).2.types := by
  unfold parse ofState
  dsimp only
  split <;> rfl

theorem parse_ok_iff {p : Program} :
    (parse source T).1 = .ok p ↔ faults source T = [] ∧
      { decls := (Rule.declarations .full (.ofSource source T)).1 } = p := by
  rw [faults_eq]
  unfold parse ofState
  generalize Rule.declarations .full (.ofSource source T) = x
  obtain ⟨decls, s⟩ := x
  dsimp only
  cases hr : s.reported with
  | nil => simp
  | cons d ds => simp

theorem eq_faults_append_of_error {ds : List Diagnostic} (h : (parse source T).1 = .error ds) :
    ∃ p, ds = faults source T ++ [⟨.brokenProgram (faults source T).length, p⟩] := by
  rw [faults_eq]
  unfold parse ofState at h
  generalize Rule.declarations .full (.ofSource source T) = x at h ⊢
  obtain ⟨decls, s⟩ := x
  dsimp only at h ⊢
  split at h
  next => exact nomatch h
  next => exact ⟨s.current.place, (Except.error.inj h).symm⟩

/-- What reading two texts below each other gives, by what reading each of them gives. -/
structure ReadsBelow (T : TypeTable) (a b : String) : Prop where
  faults : faults (a ++ "\n" ++ b) T = Program.faults a T ++ (Program.faults b T).map (.below a)
  decls (p q : Program) (ha : (parse a T).1 = .ok p) (hb : (parse b T).1 = .ok q) :
    ∃ ds, (parse (a ++ "\n" ++ b) T).1 = .ok { decls := p.decls ++ ds } ∧
      Node.Like (fun p p' => p' = p.below a)
        (fun t t' => t' = t.shift T.size ((parse a T).2.size - T.size)) (.decls q.decls) (.decls ds)
  grows : (parse a T).2.Grows (parse (a ++ "\n" ++ b) T).2
  shifted : (parse b T).2.Shifted T.size ((parse a T).2.size - T.size)
    (parse (a ++ "\n" ++ b) T).2

theorem readsBelow_of_isChunk {a : String} (ha : IsChunk a) (b : String) (hT : T.Reachable) :
    ReadsBelow T a b := by
  obtain ⟨hreported, ⟨ds, hds, hlike⟩, hgrows, hshifted⟩ :=
    Rule.declarations_below ha b hT rfl rfl rfl
  have hfaults : faults (a ++ "\n" ++ b) T = faults a T ++ (faults b T).map (.below a) := by
    rw [faults_eq, faults_eq, faults_eq, hreported]
  refine ⟨hfaults, fun p q hp hq => ?_, ?_, ?_⟩
  · obtain ⟨hnil, rfl⟩ := parse_ok_iff.mp hp
    obtain ⟨hnil', rfl⟩ := parse_ok_iff.mp hq
    refine ⟨ds, parse_ok_iff.mpr ⟨?_, ?_⟩, ?_⟩
    · rw [hfaults, hnil, hnil']
      rfl
    · rw [hds]
    · rwa [types_parse]
  · rwa [types_parse, types_parse]
  · rwa [types_parse, types_parse, types_parse]

end Program

/-- Texts in braces, each of them on lines of its own. -/
def untilBrace : List String → String
  | [] => "\x7d"
  | c :: cs => c ++ "\n" ++ untilBrace cs

def braced (cs : List String) : String := "\x7b" ++ "\n" ++ untilBrace cs

def readBlock (source : String) (T : TypeTable) : Reply (List Stmt × Position) :=
  Rule.block .full (Rule.expr .full) (.ofSource source T)

def Reply.failure? {α : Type} : Reply α → Option Diagnostic
  | .done _ _ => none
  | .failed d _ => some d

/-- What is told of each text, once the texts stand below each other. -/
def inSequence (told : String → List Diagnostic) : List String → List Diagnostic
  | [] => []
  | c :: cs => told c ++ (inSequence told cs).map (.below c)

/-- The state behind an opening brace on a line of its own. -/
def ParserState.insideBlock (source : String) (T : TypeTable) : ParserState where
  tokens := (ofSource source T).tokens.map (Token.below "\x7b")
  finish := (ofSource source T).finish.below "\x7b"
  types := T
  openBlocks := 1

namespace Rule

open ParserState (insideBlock)

variable {T : TypeTable} {c : String}

def itemsOf (source : String) (T : TypeTable) : Reply (List Stmt × Bool) :=
  itemsWithin (blockItem .full (expr .full)) (insideBlock source T).tokens.length
    (insideBlock source T)

theorem readBlock_eq (source : String) (T : TypeTable) :
    readBlock ("\x7b" ++ "\n" ++ source) T = closeBlock .origin (itemsOf source T) := by
  have hbrace : tokenize "\x7b" = [⟨.openCurly, .none, .origin⟩, ⟨.eof, .none, ⟨1, 0, 1⟩⟩] := by
    decide +kernel
  have hterminated : ∀ t ∈ tokenize "\x7b", t.payload ≠ .fault .unterminatedString := by
    rw [hbrace]
    decide
  have htokens (T : TypeTable) :
      (ParserState.ofSource "\x7b" T).tokens = [⟨.openCurly, .none, .origin⟩] := by
    simp [ParserState.ofSource, ParserState.ofTokens, hbrace]
  rw [readBlock, ParserState.ofSource_append hterminated, block_of_brace]
  · simp [itemsOf, ParserState.followedBy, htokens, ParserState.current, ParserState.advance,
      ParserState.enterBlock, insideBlock]
    rfl
  · simp [ParserState.followedBy, htokens, ParserState.kind, ParserState.current]

theorem insideBlock_append (hc : IsChunk c) (source : String) (T : TypeTable) :
    insideBlock (c ++ "\n" ++ source) T = (insideBlock c T).followedBy
      ((insideBlock source T).tokens.map (Token.below c))
      ((insideBlock source T).finish.below c) := by
  have hcomm (t : Token) : (t.below c).below "\x7b" = (t.below "\x7b").below c := by
    simp only [Token.below, Position.below_comm]
  simp only [insideBlock, ParserState.ofSource_append hc.terminated, ParserState.followedBy,
    List.map_append, List.map_map, Function.comp_def, hcomm,
    Position.below_comm (a := c) (b := "\x7b")]

/-- The items of a chunk in a block are read alike, whatever stands below it. -/
theorem itemsOf_below (hc : IsChunk c) (hT : T.Reachable) :
    ∃ (ss : List Stmt) (failed : Bool) (u : ParserState), ∀ source ss' failed' t,
      itemsOf source T = .done (ss', failed') t →
      ∃ ss'' t', itemsOf (c ++ "\n" ++ source) T = .done (ss ++ ss'', failed || failed') t' ∧
        t'.reported = u.reported ++ t.reported.map (.below c) := by
  have hclosed : ClosedBy 0 (insideBlock c T).tokens := by
    refine hc.closedBy.of_map_kind_eq ?_
    simp [insideBlock, Function.comp_def, Token.below, ParserState.ofSource, ParserState.ofTokens]
  obtain ⟨ss, failed, u, hu, hnil, hread⟩ := itemsWithin_followedBy (s := insideBlock c T)
    (Rule.Steady.expr .full) (fun _ _ bp => expr_inStep bp) hT hclosed
  refine ⟨ss, failed, u, fun source ss' failed' t ht => ?_⟩
  generalize hv : u.followedBy ((insideBlock source T).tokens.map (Token.below c))
    ((insideBlock source T).finish.below c) = v at hread
  have hbelow := ParserState.abreast_below (a := c) (s := insideBlock source T) (u := v) hT rfl
    (by rw [← hv, ParserState.followedBy, hnil, List.nil_append]) (by rw [← hv]; rfl)
    (by rw [← hv]; exact hu.types) (by rw [← hv]; exact hu.openBlocks)
  obtain ⟨n, hn⟩ : ∃ n, (insideBlock c T).tokens.length = n + 1 :=
    Nat.exists_eq_succ_of_ne_zero fun hzero => hclosed.ne_nil (List.eq_nil_of_length_eq_zero hzero)
  have hfuel : (insideBlock (c ++ "\n" ++ source) T).tokens.length =
      n + (insideBlock source T).tokens.length + 1 := by
    rw [insideBlock_append hc]
    simp only [ParserState.followedBy, List.length_append, List.length_map, hn]
    omega
  have hitems := itemsWithin_abreast (b := 0) (blockItem_inStep fun bp => expr_inStep bp)
    (Nat.le_refl _) (Nat.le_refl _) (Nat.le_add_left _ n) hbelow (fun _ _ _ h => by cases h)
    (Nat.le_refl _)
  have hall : itemsOf (c ++ "\n" ++ source) T =
      (itemsWithin (blockItem .full (expr .full)) (n + (insideBlock source T).tokens.length) v).map
        fun r => (ss ++ r.1, failed || r.2) := by
    rw [itemsOf, hfuel, insideBlock_append hc, hread, hv]
  rw [hall]
  rw [show itemsWithin _ _ _ = _ from ht] at hitems
  generalize itemsWithin _ _ v = x' at hitems
  cases hitems with
  | @done _ ss'' _ _ t' _ _ _ ht' _ _ => 
    refine ⟨ss'', t', rfl, ?_⟩
    rw [ht'.reported_below, ← hv]
    rfl

theorem itemsOf_brace (T : TypeTable) :
    ∃ t, itemsOf "\x7d" T = .done ([], false) t ∧ t.reported = [] := by
  have hbrace : tokenize "\x7d" = [⟨.closeCurly, .none, .origin⟩, ⟨.eof, .none, ⟨1, 0, 1⟩⟩] := by
    decide +kernel
  have htokens : (insideBlock "\x7d" T).tokens =
      [⟨.closeCurly, .none, Position.origin.below "\x7b"⟩] := by
    simp [insideBlock, ParserState.ofSource, ParserState.ofTokens, hbrace, Token.below]
  have hkind : (insideBlock "\x7d" T).kind = .closeCurly := by
    simp [ParserState.kind, ParserState.current, htokens]
  refine ⟨(insideBlock "\x7d" T).advance, ?_, rfl⟩
  simp [itemsOf, htokens, itemsWithin, hkind]

/-- The items of several chunks in a block: what is told of each of them, in their order, and
whether one of them failed. -/
theorem itemsOf_untilBrace {cs : List String} (hcs : ∀ c ∈ cs, IsChunk c) (hT : T.Reachable) :
    ∃ ss t, itemsOf (untilBrace cs) T =
        .done (ss, cs.any fun c => (readBlock (braced [c]) T).failure?.isSome) t ∧
      t.reported = inSequence (fun c => (readBlock (braced [c]) T).next.reported) cs := by
  induction cs with
  | nil =>
    obtain ⟨t, ht, hr⟩ := itemsOf_brace T
    exact ⟨[], t, ht, hr⟩
  | cons c cs ih =>
    obtain ⟨hc, hcs⟩ := List.forall_mem_cons.mp hcs
    obtain ⟨ss, failed, u, hread⟩ := itemsOf_below hc hT
    obtain ⟨ss', t, ht, hr⟩ := ih hcs
    obtain ⟨tb, htb, hrb⟩ := itemsOf_brace T
    obtain ⟨ss₁, t₁, halone, hr₁⟩ := hread _ _ _ _ htb
    obtain ⟨ss₂, t₂, hall, hr₂⟩ := hread _ _ _ _ ht
    have hblock : readBlock (braced [c]) T = closeBlock .origin (.done (ss ++ ss₁, failed) t₁) := by
      rw [braced, readBlock_eq, untilBrace, untilBrace, halone, Bool.or_false]
    refine ⟨ss ++ ss₂, t₂, ?_, ?_⟩
    · rw [untilBrace, hall, List.any_cons, hblock]
      cases failed <;> rfl
    · rw [hr₂, hr, inSequence, hblock]
      rw [hrb] at hr₁
      cases failed <;> simp [closeBlock, Reply.next, ParserState.exitBlock, hr₁]

end Rule

/-- What reading a block of chunks gives, by what reading each of them in a block of its own gives.
-/
structure BlockReadsInSequence (T : TypeTable) (cs : List String) : Prop where
  reported : (readBlock (braced cs) T).next.reported =
    inSequence (fun c => (readBlock (braced [c]) T).next.reported) cs
  failure? : (readBlock (braced cs) T).failure? =
    if ∃ c ∈ cs, (readBlock (braced [c]) T).failure? ≠ none then some ⟨.brokenBlock, .origin⟩
    else none

theorem blockReadsInSequence {T : TypeTable} (hT : T.Reachable) {cs : List String}
    (hcs : ∀ c ∈ cs, IsChunk c) : BlockReadsInSequence T cs := by
  obtain ⟨ss, t, ht, hr⟩ := Rule.itemsOf_untilBrace hcs hT
  generalize hany : (cs.any fun c => (readBlock (braced [c]) T).failure?.isSome) = failed at ht
  have hfailed : failed = true ↔ ∃ c ∈ cs, (readBlock (braced [c]) T).failure? ≠ none := by
    rw [← hany, List.any_eq_true]
    simp only [Option.isSome_iff_ne_none]
  have hblock : readBlock (braced cs) T = Rule.closeBlock .origin (.done (ss, failed) t) := by
    rw [braced, Rule.readBlock_eq, ht]
  constructor
  · rw [hblock, ← hr]
    cases failed <;> rfl
  · rw [hblock]
    cases failed with
    | true => rw [if_pos (hfailed.mp rfl)]; rfl
    | false => rw [if_neg (fun h => nomatch hfailed.mpr h)]; rfl

/-- Recovery is local: whatever is wrong with a chunk, what stands below it at the top level or in a
block is read as it is without the chunk. -/
theorem reads_below_chunks {T : TypeTable} (hT : T.Reachable) :
    (∀ a b, IsChunk a → Program.ReadsBelow T a b) ∧
      ∀ cs, (∀ c ∈ cs, IsChunk c) → BlockReadsInSequence T cs :=
  ⟨fun _ b ha => Program.readsBelow_of_isChunk ha b hT, fun _ hcs => blockReadsInSequence hT hcs⟩

theorem reads_below_unfinished_declaration :
    Program.ReadsBelow .initial "fun f(x = \x7b var y = @; x; \x7d;" "var 1 = é;" ∧
      BlockReadsInSequence .initial ["x = \x7b y +; \x7d;", "f(1;", "2;"] :=
  ⟨(reads_below_chunks .initial).1 _ _ (by decide +kernel),
    (reads_below_chunks .initial).2 _ (by decide +kernel)⟩

end FrontEnd
