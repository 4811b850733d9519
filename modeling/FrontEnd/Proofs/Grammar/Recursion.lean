import FrontEnd.Proofs.Grammar.Agreement

/-! The bounds on the depth of the rules and on the length of their loops are never reached: each
rule is its own body, in which the rules themselves answer the calls. -/

namespace FrontEnd

namespace Rule

variable {α ι : Type} {ts : List Token}

/-- Rules that ask for one another only in front of fewer tokens: `G` makes them from what they
ask for. -/
def Narrowing (G : (ι → Rule α) → ι → Rule α) : Prop :=
  ∀ ⦃ts r r'⦄, (∀ i, (r i).Steady) → (∀ i, (r' i).Steady) →
    (ts ≠ [] → ∀ i, AgreeOn ts.tail (r i) (r' i)) → ∀ i, AgreeOn ts (G r i) (G r' i)

section Budget

variable {F : Nat → ι → Rule α} {G : (ι → Rule α) → ι → Rule α}

/-- A bound that is not less than the number of tokens left does not matter. -/
theorem agreeOn_of_length_le (hstep : Narrowing G) (hsucc : ∀ n, F (n + 1) = G (F n))
    (hzero : ∀ i, AgreeOn [] (F 0 i) (G (F 0) i)) (hs : ∀ n i, (F n i).Steady) {n m : Nat}
    (hn : ts.length ≤ n) (hm : ts.length ≤ m) (i : ι) : AgreeOn ts (F n i) (F m i) := by
  have hnil (k : Nat) (i : ι) : AgreeOn [] (F 0 i) (F k i) := by
    cases k with
    | zero => exact .refl _
    | succ k =>
      rw [hsucc k]
      exact (hzero i).trans (hstep (hs 0) (hs k) (fun h => absurd rfl h) i)
  induction ts generalizing n m i with
  | nil => exact (hnil n i).symm.trans (hnil m i)
  | cons t ts ih =>
    have hpos : 0 < (t :: ts).length := Nat.succ_pos _
    obtain ⟨n, rfl⟩ := Nat.exists_eq_add_one.mpr (Nat.lt_of_lt_of_le hpos hn)
    obtain ⟨m, rfl⟩ := Nat.exists_eq_add_one.mpr (Nat.lt_of_lt_of_le hpos hm)
    rw [hsucc n, hsucc m]
    refine hstep (hs n) (hs m) ?_ i
    exact fun _ => ih (Nat.le_of_succ_le_succ hn) (Nat.le_of_succ_le_succ hm)

/-- Bounded by the number of tokens left, the rules ask for themselves. -/
theorem eq_step_of_budget (hstep : Narrowing G) (hsucc : ∀ n, F (n + 1) = G (F n))
    (hzero : ∀ i, AgreeOn [] (F 0 i) (G (F 0) i)) (hs : ∀ n i, (F n i).Steady) (i : ι) :
    (fun s => F s.tokens.length i s) = G (fun i s => F s.tokens.length i s) i := by
  funext s
  have hself {n : Nat} (h : s.tokens.length ≤ n) (i : ι) :
      AgreeOn s.tokens (F n i) fun t => F t.tokens.length i t := by
    intro t ht
    have hbound : AgreeOn t.tokens (F n i) (F t.tokens.length i) := agreeOn_of_length_le hstep hsucc
      hzero hs (Nat.le_trans ht.length_le h) (Nat.le_refl _) i
    exact hbound t List.suffix_rfl
  calc F s.tokens.length i s
      = F (s.tokens.length + 1) i s := agreeOn_of_length_le hstep hsucc hzero hs (Nat.le_refl _)
          (Nat.le_succ _) i s List.suffix_rfl
    _ = G (F s.tokens.length) i s := by rw [hsucc]
    _ = G (fun i s => F s.tokens.length i s) i s :=
          hstep (hs _) (fun i t => hs _ i t) (fun _ i => (hself (Nat.le_refl _) i).tail) i s
            List.suffix_rfl

end Budget

/-- Rules that ask for themselves agree if they do with what they ask for. -/
theorem agreeOn_of_eq_step {X Y : ι → Rule α} {G H : (ι → Rule α) → ι → Rule α}
    (hX : ∀ i, X i = G X i) (hY : ∀ i, Y i = H Y i)
    (hstep : ∀ us, us <:+ ts → (us ≠ [] → ∀ i, AgreeOn us.tail (X i) (Y i)) →
      ∀ i, AgreeOn us (G X i) (H Y i)) (i : ι) : AgreeOn ts (X i) (Y i) := by
  induction ts generalizing i with
  | nil =>
    rw [hX, hY]
    exact hstep [] List.suffix_rfl (fun h => absurd rfl h) i
  | cons t ts ih =>
    have hrest := ih fun us hus => hstep us (hus.trans (List.suffix_cons t ts))
    rw [hX, hY]
    exact hstep (t :: ts) List.suffix_rfl (fun _ => hrest) i

section Lists

variable {item item' : Rule α}

theorem Steady.list (h : item.Steady) : (Rule.list item).Steady :=
  fun s => h.commaSeparated s.tokens.length s

theorem list_eq (h : item.Steady) : list item = listOf item (list item) := by
  refine eq_step_of_budget (F := fun n (_ : Unit) => commaSeparated item n)
    (G := fun more _ => listOf item (more ())) ?_ (fun n => rfl) ?_
    (fun n _ => h.commaSeparated n) ()
  · exact fun ts r r' _ hr' hr _ => .listOf (.refl _) h (fun hne => hr hne ()) (hr' ())
  · refine fun _ => .behind h fun x s hs => ?_
    have hkind : s.kind ≠ .comma := by
      intro hcomma
      exact ParserState.ne_nil_of_kind hs (hcomma ▸ by decide) rfl
    rw [bind_done _ (advanceIf_done_false hkind)]
    rfl

theorem AgreeOn.list (hi : AgreeOn ts item item') (h : item.Steady) (h' : item'.Steady) :
    AgreeOn ts (list item) (Rule.list item') :=
  agreeOn_of_eq_step (X := fun (_ : Unit) => Rule.list item) (Y := fun _ => Rule.list item')
    (G := fun more _ => Rule.listOf item (more ()))
    (H := fun more _ => Rule.listOf item' (more ())) (fun _ => list_eq h) (fun _ => list_eq h')
    (fun _ hus hmore _ => (hi.mono hus).listOf h' (fun hne => hmore hne ()) h'.list) ()

end Lists

section Items

variable {item item' : Rule Stmt}

theorem Steady.itemsToEnd (h : item.Steady) : (Rule.itemsToEnd item).Steady :=
  fun s => itemsWithin h s.tokens.length s

theorem itemsToEnd_eq (h : item.Steady) (hc : Consuming item) :
    itemsToEnd item = itemsFrom item (itemsToEnd item) := by
  refine eq_step_of_budget (F := fun n (_ : Unit) => itemsWithin item n)
    (G := fun more _ => itemsFrom item (more ())) ?_ (fun n => rfl) ?_
    (fun n _ => .itemsWithin h n) ()
  · exact fun ts r r' _ _ hr _ => .itemsFrom (.refl _) h hc fun hne => hr hne ()
  · intro _ s hs
    have hkind : s.kind = .eof :=
      Decidable.not_not.mp fun he => ParserState.ne_nil_of_kind hs he rfl
    simp only [itemsFrom, hkind]
    rfl

theorem AgreeOn.itemsToEnd (hi : AgreeOn ts item item') (h : item.Steady) (hc : Consuming item)
    (h' : item'.Steady) (hc' : Consuming item') :
    AgreeOn ts (itemsToEnd item) (Rule.itemsToEnd item') :=
  agreeOn_of_eq_step (X := fun (_ : Unit) => Rule.itemsToEnd item)
    (Y := fun _ => Rule.itemsToEnd item') (G := fun more _ => Rule.itemsFrom item (more ()))
    (H := fun more _ => Rule.itemsFrom item' (more ())) (fun _ => itemsToEnd_eq h hc)
    (fun _ => itemsToEnd_eq h' hc')
    (fun _ hus hmore _ => (hi.mono hus).itemsFrom h' hc' fun hne => hmore hne ()) ()

end Items

section Types

theorem AgreeOn.typeOfForm {part part' : Rule TypeId} (h : AgreeOn ts.tail part part')
    (hs : part.Steady) (hs' : part'.Steady) (form : TypeForm) :
    AgreeOn ts (typeOfForm part form) (Rule.typeOfForm part' form) := by
  cases form with
  | primitive => exact .refl _
  | pointer => exact .pointerType (fun _ => h) hs'
  | function => exact .functionTypeOf (fun _ => h.list hs hs') hs'.list (fun _ => h) hs'

theorem type_eq (v : Vocabulary) : type v = typeFrom v (typeOfForm (type v)) := by
  refine eq_step_of_budget (F := fun n (_ : Unit) => typeWithin v n)
    (G := fun part _ => typeFrom v (typeOfForm (part ()))) ?_ (fun n => rfl) ?_
    (fun n _ => .typeWithin v n) ()
  · exact fun ts r r' hr hr' h _ => .typeFrom fun hne form =>
      .typeOfForm (h hne ()) (hr ()) (hr' ()) form
  · intro _ s hs
    have hkind : s.kind = .eof :=
      Decidable.not_not.mp fun he => ParserState.ne_nil_of_kind hs he rfl
    cases v <;> simp only [typeFrom, hkind, Vocabulary.typeForm?] <;> rfl

end Types

section Operand

variable {v : Vocabulary} {operand operand' : Operand} (hs : ∀ bp, (operand bp).Steady)
  (hs' : ∀ bp, (operand' bp).Steady)

theorem AgreeOn.exprOfTail (h : ∀ bp, AgreeOn ts.tail (operand bp) (operand' bp))
    (hs : ∀ bp, (operand bp).Steady) (hs' : ∀ bp, (operand' bp).Steady) (left : Expr)
    (bp : BindingPower) (form : TailForm) :
    AgreeOn ts (exprOfTail operand left bp form) (Rule.exprOfTail operand' left bp form) := by
  cases form with
  | comparison => exact .binaryTail hs' h _ _ _
  | arithmetic => exact .binaryTail hs' h _ _ _
  | call => exact .callOf (fun _ => (h _).list (hs _) (hs' _)) (hs' _).list

theorem Steady.tails (hs : ∀ bp, (operand bp).Steady) (bp : BindingPower) (left : Expr) :
    (Rule.tails v operand bp left).Steady :=
  fun s => tailsWithin hs bp s.tokens.length left s

theorem tails_eq (hs : ∀ bp, (operand bp).Steady) (bp : BindingPower) (left : Expr) :
    tails v operand bp left = tailsOf v (fun form next => exprOfTail operand left next form)
      (tails v operand bp) bp left := by
  refine eq_step_of_budget (F := fun n left => tailsWithin v operand bp n left)
    (G := fun more left => tailsOf v (fun form next => exprOfTail operand left next form) more
      bp left) ?_ (fun n => rfl) ?_ (fun n left => .tailsWithin hs bp n left) left
  · exact fun ts r r' _ _ h left => .tailsOf (fun _ _ => .refl _)
      (fun _ _ _ _ _ he ht => Consuming.exprOfTail hs he ht) h
  · intro left s hs
    have hkind : s.kind = .eof :=
      Decidable.not_not.mp fun he => ParserState.ne_nil_of_kind hs he rfl
    cases v <;> simp only [tailsOf, hkind, Vocabulary.tail?] <;> rfl

theorem AgreeOn.tails (h : ∀ bp, AgreeOn ts.tail (operand bp) (operand' bp))
    (hs : ∀ bp, (operand bp).Steady) (hs' : ∀ bp, (operand' bp).Steady) (bp : BindingPower)
    (left : Expr) : AgreeOn ts (tails v operand bp left) (Rule.tails v operand' bp left) :=
  agreeOn_of_eq_step (fun left => tails_eq hs bp left) (fun left => tails_eq hs' bp left)
    (G := fun more left => Rule.tailsOf v
      (fun form next => Rule.exprOfTail operand left next form) more bp left)
    (H := fun more left => Rule.tailsOf v
      (fun form next => Rule.exprOfTail operand' left next form) more bp left)
    (fun _ hus hmore left => .tailsOf
      (fun form next =>
        .exprOfTail (fun bp => (h bp).mono (tail_suffix_tail hus)) hs hs' left next form)
      (fun _ _ _ _ _ he ht => Consuming.exprOfTail hs' he ht) hmore) left

theorem AgreeOn.fnDecl (h : AgreeOn ts.tail (operand .lowest) (operand' .lowest))
    (hs' : (operand' .lowest).Steady) (p : Position) (g : Option TypeId) :
    AgreeOn ts (fnDecl operand p g) (Rule.fnDecl operand' p g) :=
  .fnDeclOf (fun _ => .refl _) (Steady.expect .identifier).list h hs'

theorem AgreeOn.blockItem (h : ∀ bp, AgreeOn ts (operand bp) (operand' bp))
    (hs' : ∀ bp, (operand' bp).Steady) :
    AgreeOn ts (blockItem v operand) (Rule.blockItem v operand') :=
  .itemOf (.declarationOf (fun _ => .refl _) (.type v)
    (fun p g => .varDecl hs' (fun bp => (h bp).tail) p g)
      fun p g => .fnDecl (h _).tail (hs' _) p g) (.statement hs' h)

theorem AgreeOn.block (h : ∀ bp, AgreeOn ts.tail (operand bp) (operand' bp))
    (hs : ∀ bp, (operand bp).Steady) (hs' : ∀ bp, (operand' bp).Steady) :
    AgreeOn ts (block v operand) (Rule.block v operand') :=
  .blockOf fun _ => (AgreeOn.blockItem h hs').itemsToEnd (.blockItem hs) (.blockItem hs)
    (.blockItem hs') (.blockItem hs')

theorem AgreeOn.exprOfLead (h : ∀ bp, AgreeOn ts.tail (operand bp) (operand' bp))
    (hs : ∀ bp, (operand bp).Steady) (hs' : ∀ bp, (operand' bp).Steady) (form : LeadForm) :
    AgreeOn ts (exprOfLead v operand form) (Rule.exprOfLead v operand' form) := by
  cases form with
  | primary => exact .refl _
  | prefixed => exact .prefixed hs' h
  | grouping => exact .grouping hs' h
  | block => exact (AgreeOn.block h hs hs').bind (.block hs') fun _ => .refl _
  | conditional => exact .conditional hs' h
  | returned => exact .returned hs' h
  | yielded => exact .yielded hs' h

end Operand

theorem expr_eq (v : Vocabulary) (bp : BindingPower) :
    expr v bp = exprOf v (exprOfLead v (expr v)) (tails v (expr v) bp) := by
  refine eq_step_of_budget (F := fun n bp => exprWithin v n bp)
    (G := fun operand bp => exprOf v (exprOfLead v operand) (tails v operand bp)) ?_
    (fun n => rfl) ?_ (fun n bp => .exprWithin v n bp) bp
  · exact fun ts r r' hr hr' h bp => .exprOf (fun hne form => .exprOfLead (h hne) hr hr' form)
      (fun form => .exprOfLead hr' form) fun hne left => .tails (h hne) hr hr' bp left
  · intro bp s hs
    have hkind : s.kind = .eof :=
      Decidable.not_not.mp fun he => ParserState.ne_nil_of_kind hs he rfl
    cases v <;> simp only [exprOf, hkind, Vocabulary.lead?] <;> rfl

end Rule

open Rule

theorem Vocabulary.steady_rules (v : Vocabulary) {α : Type} (c : Procedure α) :
    (v.rules α c).Steady := by
  have hexpr := Steady.expr v
  induction c with
  | name => exact .expect _
  | list item ih => exact ih.list
  | type => exact .type v
  | typeOf form =>
    cases form with
    | primitive => exact .primitiveType
    | pointer => exact (Steady.expect _).bind fun _ => (Steady.type v).bind fun _ => .enterType _
    | function =>
      exact (Steady.expect _).bind fun _ => ((Steady.type v).itemsBefore _).bind fun _ =>
        (Steady.expect _).bind fun _ => (Steady.expect _).bind fun _ =>
          (Steady.type v).bind fun _ => .enterType _
  | expr bp => exact hexpr bp
  | lead form => exact .exprOfLead hexpr form
  | tails bp left => exact .tails hexpr bp left
  | tail form bp left => exact .exprOfTail hexpr left bp form
  | block => exact .block hexpr
  | items => exact (Steady.blockItem hexpr).itemsToEnd
  | statement => exact .statement hexpr
  | declaration => exact .declaration hexpr
  | varDecl p g => exact .varDecl hexpr p g
  | fnDecl p g => exact .fnDecl hexpr p g

/-- No bound is left: each procedure is its body with the procedures themselves. -/
theorem Vocabulary.rules_eq_body (v : Vocabulary) {α : Type} (c : Procedure α) :
    v.rules α c = c.body v v.rules := by
  cases c with
  | list item => exact list_eq (v.steady_rules item)
  | type => exact type_eq v
  | typeOf form => cases form <;> rfl
  | expr bp => exact expr_eq v bp
  | lead form => cases form <;> rfl
  | tails bp left => exact tails_eq (.expr v) bp left
  | tail form bp left => cases form <;> rfl
  | items => exact itemsToEnd_eq (.blockItem (.expr v)) (.blockItem (.expr v))
  | _ => rfl

end FrontEnd
