import Mathlib
import FrontEnd.Proofs.Grammar.Reporting
import FrontEnd.Proofs.Grammar.Termination

/-! What a program that cannot be read is told. All of it is summed up at the end of the text; what
sums up a block comes behind a fault inside the block that is worth showing. -/

namespace FrontEnd

theorem exists_tokenize_eq (source : String) :
    ∃ finish, tokenize source = (tokenize source).dropLast ++ [finish] ∧ finish.kind = .eof := by
  obtain ⟨ts, hts, _⟩ := (layout_tokensFrom [] source.toList).eq_append_endAt
  have htokens : tokenize source = ts ++ [.endAt (.behind source.toList)] := hts
  exact ⟨.endAt (.behind source.toList), by rw [htokens, List.dropLast_concat], rfl⟩

namespace ParserState

variable {s t : ParserState} {ds : List Diagnostic}

theorem finish_ofSource {source : String} {finish : Token}
    (h : tokenize source = (tokenize source).dropLast ++ [finish]) (T : TypeTable) :
    (ofSource source T).finish = finish.place := by
  unfold ofSource ofTokens
  dsimp only
  rw [h, List.getLastD_concat]

theorem scanned_ofSource (source : String) (T : TypeTable) : (ofSource source T).Scanned where
  ordered := pairwise_place_tokenize source
  finish k hk := by
    obtain ⟨finish, htokens, _⟩ := exists_tokenize_eq source
    have hordered : (tokenize source).Pairwise fun t u => t.place < u.place :=
      pairwise_place_tokensFrom _ _
    rw [htokens, List.pairwise_append] at hordered
    rw [finish_ofSource htokens]
    exact hordered.2.2 k hk finish (List.mem_singleton_self finish)
  lexical k hk f hf :=
    Fault.sumsUp_of_isLexical (isLexical_of_mem_tokensFrom (List.dropLast_subset _ hk) hf)

/-- What sums up a block is told right behind a fault that lies behind the brace of the block. -/
theorem Tells.cause (h : s.Tells t ds) {front rest : List Diagnostic} {d : Diagnostic}
    (hds : ds = front ++ d :: rest) (hd : d.fault.sumsUp = true) :
    ∃ e, front.getLast? = some e ∧ d.place < e.place := by
  cases hlast : front.getLast? with
  | none =>
    rw [List.getLast?_eq_none_iff.mp hlast] at hds
    have hfirst := h.first d (by rw [hds]; rfl)
    rw [hd] at hfirst
    exact nomatch hfirst
  | some e =>
    have hcaused := h.caused
    rw [hds, List.isChain_append] at hcaused
    exact ⟨e, rfl, hcaused.2.2 e hlast d rfl hd⟩

/-- Of the blocks that a fault has broken one inside another the innermost comes first, right behind
the fault; going back from block to block finds it. -/
theorem Tells.visible_cause (h : s.Tells t ds) {front rest : List Diagnostic} {d : Diagnostic}
    (hds : ds = front ++ d :: rest) (hd : d.fault.sumsUp = true) :
    ∃ e ∈ front, e.fault.sumsUp = false ∧ d.place < e.place := by
  induction front using List.reverseRecOn generalizing d rest with
  | nil =>
    obtain ⟨e, he, _⟩ := h.cause hds hd
    exact nomatch he
  | append_singleton front e ih =>
    obtain ⟨e', he', hlt⟩ := h.cause hds hd
    rw [List.getLast?_concat] at he'
    obtain rfl := Option.some.inj he'
    by_cases hsums : e.fault.sumsUp = true
    · obtain ⟨c, hc, hcause, hclt⟩ := ih (by rw [hds, List.append_assoc]; rfl) hsums
      exact ⟨c, List.mem_append_left _ hc, hcause, Position.lt_trans hlt hclt⟩
    · exact ⟨e, List.mem_append_right _ (List.mem_singleton_self e), by simpa using hsums, hlt⟩

end ParserState

/-- What was reported is told of the text that was read, failure by failure. -/
theorem Rule.tells_declarationsWithin (v : Vocabulary) (n : Nat) {s : ParserState}
    (hs : s.Scanned) : ∃ ds, (declarationsWithin v n s).2.reported = s.reported ++ ds ∧
      s.Tells (declarationsWithin v n s).2 ds := by
  induction n generalizing s with
  | zero => exact ⟨[], (List.append_nil _).symm, .nil List.suffix_rfl rfl⟩
  | succ n ih =>
    unfold declarationsWithin
    by_cases hmore : s.hasTokens = true
    · rw [if_pos hmore]
      have hround := Telling.topLevel hs v (.refl s)
      cases hreply : topLevel v s with
      | done d t =>
        rw [hreply] at hround
        obtain ⟨hq, _⟩ := hround
        obtain ⟨ds, hreported, htells⟩ := ih (hq.scanned hs)
        exact ⟨ds, hreported.trans (congrArg (· ++ ds) hq.reported),
          htells.mono hq.tokens hq.finish List.suffix_rfl rfl⟩
      | failed d t =>
        rw [hreply] at hround
        obtain ⟨ds, hreported, htells⟩ := hround
        have hskipped : s.Tells (t.report d).synchronize (ds ++ [d]) :=
          htells.mono List.suffix_rfl rfl (recover_suffix _ _ _) rfl
        obtain ⟨es, hes, hrest⟩ := ih (hs.of_suffix hskipped.tokens hskipped.finish)
        refine ⟨ds ++ [d] ++ es, hes.trans ?_, hskipped.append hrest⟩
        change t.reported ++ [d] ++ es = _
        rw [hreported]
        simp only [List.append_assoc]
    · rw [if_neg hmore]
      exact ⟨[], (List.append_nil _).symm, .nil List.suffix_rfl rfl⟩

namespace Program

/-- Of a program that cannot be read at least one fault is told, and last how many there were. -/
theorem tells_of_parse_error {source : String} {T : TypeTable} {ds : List Diagnostic}
    (h : (parse source T).1 = .error ds) :
    ∃ front finish t, ds = front ++ [⟨.brokenProgram front.length, finish.place⟩] ∧
      (tokenize source).getLast? = some finish ∧ finish.kind = .eof ∧ front ≠ [] ∧
      (ParserState.ofSource source T).Tells t front := by
  obtain ⟨finish, htokens, hfinish⟩ := exists_tokenize_eq source
  obtain ⟨front, hreported, htells⟩ :=
    Rule.tells_declarationsWithin .full _ (ParserState.scanned_ofSource source T)
  have hplace : (Rule.declarations .full (.ofSource source T)).2.current.place = finish.place := by
    rw [ParserState.current, Rule.tokens_declarations, ← ParserState.finish_ofSource htokens T]
    exact htells.finish
  have hfront : (Rule.declarations .full (.ofSource source T)).2.reported = front := hreported
  refine ⟨front, finish, _, ?_, by rw [htokens, List.getLast?_concat], hfinish, ?_, htells⟩
  · simp only [parse, ofState, hfront, hplace] at h
    split at h
    next => contradiction
    next => exact (Except.error.inj h).symm
  · rintro rfl
    simp only [parse, ofState, hfront] at h
    contradiction

/-- The faults of a program that cannot be read are summed up once, at the end of the text; every
block that they have broken is told at its own brace, right behind a fault in the block. So some of
them are more than a summary, and what is worth showing tells for every broken block why. -/
theorem faults_of_parse_error {source : String} {T : TypeTable} {ds : List Diagnostic}
    (h : (parse source T).1 = .error ds) :
    (∃ front finish, ds = front ++ [⟨.brokenProgram front.length, finish.place⟩] ∧
      (tokenize source).getLast? = some finish ∧ finish.kind = .eof ∧ front ≠ [] ∧
      ∀ d ∈ front, ∀ n, d.fault ≠ .brokenProgram n) ∧
    (∀ front d rest, ds = front ++ d :: rest → d.fault = .brokenBlock →
      (∃ k ∈ tokenize source, k.kind = .openCurly ∧ k.place = d.place) ∧
      (∃ e, front.getLast? = some e ∧ d.place < e.place) ∧
      ∃ e ∈ Diagnostic.reportable front, (∀ n, e.fault ≠ .brokenProgram n) ∧ d.place < e.place) ∧
    (ds.Pairwise fun d e => d.fault = .brokenBlock → e.fault = .brokenBlock → d.place ≠ e.place) ∧
    ∃ d ∈ ds, d.fault ≠ .brokenBlock ∧ ∀ n, d.fault ≠ .brokenProgram n := by
  obtain ⟨told, finish, t, hds, hlast, hfinish, hne, htells⟩ := tells_of_parse_error h
  have hprogram {d : Diagnostic} (hd : d ∈ told) (n : Nat) : d.fault ≠ .brokenProgram n := by
    intro hn
    have hblock := (htells.broken hd (by rw [hn]; rfl)).1
    rw [hn] at hblock
    exact nomatch hblock
  have hsums {d : Diagnostic} (hd : d.fault = .brokenBlock) : d.fault.sumsUp = true := by
    rw [hd]
    rfl
  refine ⟨⟨told, finish, hds, hlast, hfinish, hne, fun d => hprogram⟩,
    fun front d rest hsplit hd => ?_, ?_, ?_⟩
  · -- The last of all sums up the program, so the block is told before it.
    have hrest : ∃ rest', told = front ++ d :: rest' := by
      cases rest using List.reverseRecOn with
      | nil =>
        rw [hds] at hsplit
        have hd' := (List.append_inj' hsplit rfl).2
        rw [← (List.cons.inj hd').1] at hd
        exact nomatch hd
      | append_singleton rest e =>
        have hends : told ++ [_] = front ++ d :: rest ++ [e] :=
          hds.symm.trans (hsplit.trans (List.append_assoc front (d :: rest) [e]).symm)
        exact ⟨rest, (List.append_inj' hends rfl).1⟩
    obtain ⟨rest', htold⟩ := hrest
    have hmem : d ∈ told := by simp [htold]
    obtain ⟨_, ⟨k, hk, hbrace⟩, _⟩ := htells.broken hmem (hsums hd)
    obtain ⟨e, he, hshown, hlt⟩ := htells.visible_cause htold (hsums hd)
    obtain ⟨hblock, hwhole⟩ := Fault.sumsUp_eq_false_iff.mp hshown
    exact ⟨⟨k, List.dropLast_subset _ hk, hbrace⟩, htells.cause htold (hsums hd),
      e, Diagnostic.mem_reportable.mpr ⟨he, hblock⟩, hwhole, hlt⟩
  · rw [hds, List.pairwise_append]
    refine ⟨htells.distinct.imp fun hdiffer hd he => hdiffer (hsums hd) (hsums he),
      List.pairwise_singleton _ _, fun d _ e he _ hblock => ?_⟩
    rw [List.eq_of_mem_singleton he] at hblock
    exact nomatch hblock
  · obtain ⟨d, rest, rfl⟩ := List.exists_cons_of_ne_nil hne
    refine ⟨d, by simp [hds], Fault.sumsUp_eq_false_iff.mp (htells.first d rfl)⟩

theorem faults_of_nested_broken_blocks :
    (parse "fun f() = \x7b \x7b 1 +; \x7d; 2; \x7d; var bad = ;" .initial).1 =
      .error [⟨.noExpression ";", ⟨17, 0, 17⟩⟩, ⟨.brokenBlock, ⟨12, 0, 12⟩⟩,
        ⟨.brokenBlock, ⟨10, 0, 10⟩⟩, ⟨.noExpression ";", ⟨38, 0, 38⟩⟩,
        ⟨.brokenProgram 4, ⟨39, 0, 39⟩⟩] ∧
      ∃ e ∈ Diagnostic.reportable [⟨.noExpression ";", ⟨17, 0, 17⟩⟩, ⟨.brokenBlock, ⟨12, 0, 12⟩⟩],
        (∀ n, e.fault ≠ .brokenProgram n) ∧ (⟨10, 0, 10⟩ : Position) < e.place := by
  have h : (parse "fun f() = \x7b \x7b 1 +; \x7d; 2; \x7d; var bad = ;" .initial).1 =
      .error [⟨.noExpression ";", ⟨17, 0, 17⟩⟩, ⟨.brokenBlock, ⟨12, 0, 12⟩⟩,
        ⟨.brokenBlock, ⟨10, 0, 10⟩⟩, ⟨.noExpression ";", ⟨38, 0, 38⟩⟩,
        ⟨.brokenProgram 4, ⟨39, 0, 39⟩⟩] := by cbv
  exact ⟨h, ((faults_of_parse_error h).2.1 [_, _] _ _ rfl rfl).2.2⟩

end Program

end FrontEnd
