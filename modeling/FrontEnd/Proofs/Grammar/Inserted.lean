import Mathlib
import FrontEnd.Proofs.Grammar.Contract
import FrontEnd.Proofs.Grammar.Insertion
import FrontEnd.Proofs.Grammar.Sentences

/-! Every rule of the grammar succeeds with the signature put in if it does without. -/

namespace FrontEnd.Rule

variable {I : Insertion} {n m : Nat}

section Lists

variable {α β : Type} {P : TypeTable → TypeTable → α → β → Prop} {item : Rule α} {item' : Rule β}
  (hs : item.Steady) (hs' : item'.Steady)
  (hP : ∀ T T' U U' a a', T.Grows T' → U.Grows U' → P T U a a' → P T' U' a a')
  (h : Follows I n P item item')
include hs hs' hP h

theorem list_follows :
    Follows I n (fun T U => List.Forall₂ (P T U)) (list item) (list item') := by
  induction n with
  | zero => exact fun _ _ _ _ _ _ _ hn => absurd hn (Nat.not_lt_zero _)
  | succ n ih =>
    intro T U
    rw [list_eq hs, list_eq hs']
    refine (h T U).bind fun T U a a' _ _ ha => .advanceIf_bind (by decide) (Nat.le_refl _) ?_ ?_
    · have hrest := ih fun T U => (h T U).of_le (Nat.le_succ n)
      exact (hrest T U).bind fun T' U' as as' hT hU has =>
        .pure fun _ _ hT' hU' => .cons (hP _ _ _ _ _ _ (hT.trans hT') (hU.trans hU') ha)
          (has.imp fun _ _ => hP _ _ _ _ _ _ hT' hU')
    · exact .pure fun _ _ hT hU => .cons (hP _ _ _ _ _ _ hT hU ha) .nil

theorem itemsBefore_follows {close : TokenKind} (hclose : IsApart close) :
    Follows I n (fun T U => List.Forall₂ (P T U)) (itemsBefore close item)
      (itemsBefore close item') := by
  intro T U s s' hsigns hT hU hn
  unfold itemsBefore
  by_cases he : s.kind = close
  · rw [if_pos he, if_pos ((hsigns.kind_eq (hclose.place_ne he)).trans he)]
    intro as t has
    obtain ⟨rfl, rfl⟩ := Reply.done.inj has
    exact ⟨[], s', rfl, .refl hsigns, .nil⟩
  · have he' : s'.kind ≠ close := by
      rcases hsigns.kind_cases with hkind | ⟨-, hkind, -⟩
      · rwa [hkind]
      · exact hkind ▸ hclose.2.2.symm
    rw [if_neg he, if_neg he']
    exact list_follows hs hs' hP h T U hsigns hT hU hn

end Lists

section Types

theorem matching_mono (T T' U U' : TypeTable) (x y : TypeId) (hT : T.Grows T') (hU : U.Grows U')
    (h : T.Matching U x y) : T'.Matching U' x y := h.mono hT hU

theorem enterType_follows {T U : TypeTable} {shape shape' : TypeShape}
    (h : shape.Related (T.Matching U) shape') :
    FollowsFrom I T U n TypeTable.Matching (enterType shape) (enterType shape') := by
  intro s s' hs hT hU _ x t hx
  obtain ⟨rfl, rfl⟩ := Reply.done.inj hx
  have hgrows := TypeTable.grows_enter s.types shape
  have hgrows' := TypeTable.grows_enter s'.types shape'
  refine ⟨_, _, rfl, ⟨⟨hs.tokens, hs.parted, hs.types.trans hgrows, hs.types'.trans hgrows',
    hs.silent⟩, List.suffix_rfl, hgrows, hgrows'⟩, ?_⟩
  exact .intro (TypeTable.shape?_enter_self _ _) (TypeTable.shape?_enter_self _ _)
    (h.mono fun _ _ _ hp => hp.mono (hT.trans hgrows) (hU.trans hgrows'))

theorem primitiveType_follows : Follows I n TypeTable.Matching primitiveType primitiveType := by
  intro T U s s' hs _ _ _
  unfold primitiveType
  rw [hs.apply_kind TokenKind.primitive? rfl]
  intro x t hx
  split at hx
  next p hp =>
    obtain ⟨rfl, rfl⟩ := Reply.done.inj hx
    have hkind {k : TokenKind} (hk : k.primitive? = none) : s.kind ≠ k := by
      rintro rfl
      rw [hk] at hp
      cases hp
    obtain ⟨-, hadvances, -⟩ := hs.advance (hkind rfl) fun h => absurd h (hkind rfl)
    have hshape : TypeTable.initial.shape? (TypeTable.primitive p) = some (.primitive p) := by
      cases p <;> rfl
    exact ⟨_, _, rfl, hadvances,
      .intro (hs.types.shape? hshape) (hs.types'.shape? hshape) .primitive⟩
  next => cases hx

section Part

variable {part : Rule TypeId} (h : Follows I n TypeTable.Matching part part)
include h

theorem pointerType_follows :
    Follows I (n + 1) TypeTable.Matching (pointerType part) (pointerType part) := fun T U =>
  .expect_bind (by decide) (Nat.le_refl _) fun _ _ _ =>
    (h T U).bind fun _ _ _ _ _ _ hx => enterType_follows (.pointer hx)

theorem functionType_follows (hs : part.Steady) :
    Follows I (n + 1) TypeTable.Matching (functionType part) (functionType part) := fun T U =>
  .expect_bind (by decide) (Nat.le_refl _) fun _ _ _ =>
    (itemsBefore_follows hs hs matching_mono h (by decide) T U).bind fun T U as as' _ _ has =>
      .expect_bind (by decide) (Nat.le_succ n) fun _ _ _ =>
      .expect_bind (by decide) (Nat.le_succ n) fun _ _ _ =>
        (h T U).bind fun _ _ _ _ hT hU hr => enterType_follows
          (.function (has.imp fun _ _ hx => hx.mono hT hU) hr)

theorem typeOfForm_follows (hs : part.Steady) (form : TypeForm) :
    Follows I (n + 1) TypeTable.Matching (typeOfForm part form) (typeOfForm part form) := by
  cases form with
  | primitive => exact primitiveType_follows
  | pointer => exact pointerType_follows h
  | function => exact functionType_follows h hs

end Part

theorem type_follows : Follows I n TypeTable.Matching (type .full) (type .full) := by
  induction n with
  | zero => exact fun _ _ _ _ _ _ _ hn => absurd hn (Nat.not_lt_zero _)
  | succ n ih =>
    intro T U s s' hs hT hU hn
    rw [type_eq]
    unfold typeFrom
    rw [hs.apply_kind Vocabulary.full.typeForm? rfl]
    intro x t hx
    split at hx
    next form _ => exact typeOfForm_follows ih (.type .full) form T U hs hT hU hn x t hx
    next => cases hx

theorem place_ne_of_type {s t : ParserState} {x : TypeId} (hs : I.Parted s.tokens)
    (h : type .full s = .done x t) : t.kind = .kwVar → t.current.place ≠ I.start := by
  obtain ⟨w, hw, hreads⟩ := type_yields h
  obtain ⟨v, l, rfl, hl⟩ := hreads.type_eq_concat
  intro hkind
  have hne := ParserState.tokens_ne_nil (s := t) (hkind ▸ by decide)
  obtain ⟨k, u, hu⟩ := List.exists_cons_of_ne_nil hne
  have hcurrent : t.current = k := by simp [ParserState.current, hu]
  rw [hcurrent]
  exact hs v l k u (by rw [hw.tokens, hu, List.append_assoc, List.singleton_append]) hl

theorem signature?_of_kind {s : ParserState} (hkind : s.kind = .kwOf) :
    signature? .full s = (type .full >>= fun x => Pure.pure (some x)) s.advance :=
  bind_done _ (advanceIf_done_true hkind)

theorem signature?_of_ne {s : ParserState} (hkind : s.kind ≠ .kwOf) :
    signature? .full s = .done none s :=
  bind_done _ (advanceIf_done_false hkind)

variable {s s' t : ParserState}

theorem signature?_follows (hs : I.Signs s s')
    (hvar : s.kind = .kwVar → s.current.place ≠ I.start) :
    I.Followed s s' (fun T U => Option.Rel (T.Matching U)) (signature? .full s)
      (signature? .full s') := by
  have hkind := hs.kind_eq hvar
  by_cases hof : s.kind = .kwOf
  · obtain ⟨-, hadvances, -⟩ := hs.advance (hof ▸ by decide) hvar
    have htype : Follows I (s.tokens.length + 1) (fun T U => Option.Rel (T.Matching U))
        (type .full >>= fun x => Pure.pure (some x)) (type .full >>= fun x => Pure.pure (some x)) :=
      fun T U => (type_follows T U).bind fun _ _ _ _ _ _ hx => .pure fun _ _ hT hU =>
        .some (hx.mono hT hU)
    rw [signature?_of_kind hof, signature?_of_kind (hkind.trans hof)]
    intro g t hg
    obtain ⟨g', t', hg', hadvances', hrel⟩ := htype _ _ hadvances.signs (.refl _) (.refl _)
      (Nat.lt_succ_of_le hadvances.length_le) g t hg
    exact ⟨g', t', hg', hadvances.trans hadvances', hrel⟩
  · rw [signature?_of_ne hof, signature?_of_ne (hkind ▸ hof)]
    intro g t hg
    obtain ⟨rfl, rfl⟩ := Reply.done.inj hg
    exact ⟨none, s', rfl, .refl hs, .none⟩

theorem place_ne_of_signature {g : Option TypeId} (hs : I.Parted s.tokens)
    (hvar : s.kind = .kwVar → s.current.place ≠ I.start) (h : signature? .full s = .done g t) :
    t.kind = .kwVar → t.current.place ≠ I.start := by
  by_cases hof : s.kind = .kwOf
  · rw [signature?_of_kind hof] at h
    obtain ⟨x, u, hx, hu⟩ := of_bind_done h
    obtain ⟨-, rfl⟩ := of_pure_done hu
    exact place_ne_of_type (hs.of_suffix (List.tail_suffix _)) hx
  · rw [signature?_of_ne hof] at h
    obtain ⟨-, rfl⟩ := Reply.done.inj h
    exact hvar

/-- What is put in is read whole, and as the type that it was written for. -/
theorem type_inserted {ws w : List Token} (hs : s.tokens = ws ++ w)
    (hws : ws.map Token.letter = I.table.letters I.type) (hT : TypeTable.initial.Grows s.types) :
    ∃ y t, type .full s = .done y t ∧ t.tokens = w ∧ s.types.Grows t.types ∧
      t.reported = s.reported ∧ I.table.Matches t.types I.type y := by
  have hletters : s.letters = I.table.letters I.type ++ w.map Token.letter := by
    rw [ParserState.letters, hs, List.map_append, hws]
  have hrebuilds : RebuildsFrom s.types (type .full) (I.table.letters I.type) (w.map Token.letter)
      fun V u => I.table.Matches V I.type u :=
    .of_tokens fun m hm => typeWithin_rebuilds I.reachable hT (Nat.lt_succ_self _) I.held hm
  obtain ⟨y, t, hy, ht, hgrows, hreported, hmatches⟩ := hrebuilds s hletters (.refl _)
  refine ⟨y, t, hy, ?_, hgrows, hreported, hmatches⟩
  have hsuffix : t.tokens <:+ ws ++ w := by
    have hsteady := Steady.type .full s
    rw [hy] at hsteady
    exact hs ▸ hsteady.tokens
  have hlength := congrArg List.length ht
  rw [ParserState.letters, List.length_map, List.length_map] at hlength
  exact (List.suffix_of_suffix_length_le hsuffix (List.suffix_append ws w)
    hlength.le).eq_of_length hlength

end Types

/-- The operand succeeds in front of fewer than `n` tokens if it does without the signature. -/
def OperandFollows (I : Insertion) (n : Nat) (operand : Operand) : Prop :=
  ∀ bp, Follows I n (I.Likes .expr) (operand bp) (operand bp)

/-- What comes behind the word `var` of a variable. -/
def varBody (operand : Operand) (p : Position) (signature : Option TypeId) : Rule Decl := do
  let name ← expect .identifier
  let _ ← expect .assign
  let initial ← operand .lowest
  let finish ← expect .semicolon
  return .var (site p) name signature initial finish.place

/-- What comes behind the signature of a declaration. -/
def declarationFrom (operand : Operand) (p : Position) (signature : Option TypeId) : Rule Decl :=
  fun s =>
    match s.kind with
    | .kwVar => varDecl operand p signature s
    | .kwFun => fnDecl operand p signature s
    | _ => refuse .noDeclaration s

section Operand

variable {operand : Operand} (h : OperandFollows I n operand)
include h

theorem statement_follows :
    Follows I n (I.Likes .stmt) (statement operand) (statement operand) := by
  intro T U
  refine (h .lowest T U).bind fun T U e e' _ _ he => ?_
  have hplace : I.place e.place e'.place := e.place_sign ▸ Node.Like.place he
  refine .advanceIf_bind (by decide) (Nat.le_succ n) ?_ ?_
  · have hname := Node.Like.name? he
    rw [Expr.name?_sign] at hname
    generalize e.name? = x, e'.name? = x' at hname
    cases hname with
    | none => exact .fail
    | some _ =>
      refine (h .lowest T U).bind fun T' U' v v' hT hU hv =>
        .expect_bind (by decide) (Nat.le_succ n) fun _ _ _ => .pure fun _ _ hT' hU' => ?_
      exact .assigned (.fresh hplace) (he.mono (hT.trans hT') (hU.trans hU')) (hv.mono hT' hU')
  · refine .expect_bind (by decide) (Nat.le_succ n) fun _ _ _ => .pure fun _ _ hT hU => ?_
    exact .evaluated (.fresh hplace) (he.mono hT hU)

theorem varBody_follows {T U : TypeTable} {p p' : Position} (hp : I.place p p')
    {g g' : Option TypeId} (hg : Option.Rel (I.Types T U) ((site p).sign I.start I.type g) g') :
    FollowsFrom I T U n (I.Likes .decl) (varBody operand p g) (varBody operand p' g') :=
  .expect_bind (by decide) (Nat.le_succ n) fun _ _ hname =>
  .expect_bind (by decide) (Nat.le_succ n) fun _ _ _ =>
  (h .lowest T U).bind fun _ _ _ _ hT hU he =>
  .expect_bind (by decide) (Nat.le_succ n) fun _ _ hfinish =>
  .pure fun _ _ hT' hU' => .var (.fresh hp) hname.toLike
    (rel_mono (fun _ _ ht => ht.mono (hT.trans hT') (hU.trans hU')) hg) hfinish.place
    (he.mono hT' hU')

omit h in
theorem fitSignature_follows {T U : TypeTable} {name name' : Token} {ps ps' : List Token}
    (hps : ps.length = ps'.length) {g g' : Option TypeId} (hg : Option.Rel (T.Matching U) g g') :
    FollowsFrom I T U n (fun _ _ _ _ => True) (fitSignature name ps g)
      (fitSignature name' ps' g') := by
  cases hg with
  | none => exact .pure fun _ _ _ _ => trivial
  | @some x x' hx =>
    intro s s' hs hT hU _ a t ha
    have hfunction := (hx.mono hT hU).matches.rel_function?
    unfold fitSignature at ha ⊢
    dsimp only at ha ⊢
    generalize s.types.function? x = f, s'.types.function? x' = f' at hfunction ha
    cases hfunction with
    | none => cases ha
    | some hf =>
      dsimp only at ha ⊢
      rw [← hf.1.length_eq, ← hps]
      split at ha
      next heq =>
        obtain ⟨rfl, rfl⟩ := Reply.done.inj ha
        rw [if_pos heq]
        exact ⟨_, _, rfl, .refl hs, trivial⟩
      next => cases ha

theorem fnDecl_follows {T U : TypeTable} {p p' : Position} (hp : I.place p p')
    {g g' : Option TypeId} (hg : Option.Rel (T.Matching U) g g') :
    FollowsFrom I T U (n + 1) (I.Likes .decl) (fnDecl operand p g) (fnDecl operand p' g') := by
  refine .expect_bind (by decide) (Nat.le_refl _) fun _ _ _ =>
    .expect_bind (by decide) (Nat.le_succ n) fun _ _ hname =>
    .expect_bind (by decide) (Nat.le_succ n) fun _ _ _ =>
    (itemsBefore_follows (.expect _) (.expect _) (fun _ _ _ _ _ _ _ _ h => h)
      (expect_follows (by decide)) (by decide) T U).bind fun T₁ U₁ ps ps' hT₁ hU₁ hps =>
    .expect_bind (by decide) (Nat.le_succ n) fun _ _ _ => ?_
  have hg₁ := rel_mono (fun _ _ hx => TypeTable.Matching.mono hT₁ hU₁ hx) hg
  refine (fitSignature_follows hps.length_eq hg₁).bind fun T₂ U₂ _ _ hT₂ hU₂ _ =>
    .expect_bind (by decide) (Nat.le_succ n) fun _ _ _ =>
    (h .lowest T₂ U₂).bind fun T₃ U₃ _ _ hT₃ hU₃ he =>
    .expect_bind (by decide) (Nat.le_succ n) fun _ _ _ => .pure fun T₄ U₄ hT₄ hU₄ => ?_
  have hg₄ : Option.Rel (I.Types T₄ U₄) g g' := rel_mono (fun _ _ hx =>
    .inl (hx.mono (hT₂.trans (hT₃.trans hT₄)) (hU₂.trans (hU₃.trans hU₄)))) hg₁
  exact .fn (.fresh hp) hname.toLike hg₄ (hps.imp fun _ _ hk => hk.toLike) (he.mono hT₄ hU₄)

theorem declarationFrom_follows {s s' : ParserState} (hs : I.Signs s s')
    (hn : s.tokens.length < n + 1) (hvar : s.kind = .kwVar → s.current.place ≠ I.start)
    {p p' : Position} (hp : I.place p p') {g g' : Option TypeId}
    (hg : Option.Rel (s.types.Matching s'.types) g g') (hstart : p ≠ I.start) :
    I.Followed s s' (I.Likes .decl) (declarationFrom operand p g s)
      (declarationFrom operand p' g' s') := by
  intro d t hd
  unfold declarationFrom at hd ⊢
  rw [hs.kind_eq hvar]
  split at hd
  next hkind =>
    have hk : s.kind ≠ .eof := hkind ▸ by decide
    have hsign : Option.Rel (I.Types s.types s'.types) ((site p).sign I.start I.type g) g' := by
      cases hg with
      | none => exact (Site.sign_of_ne (s := site p) hstart none).symm ▸ .none
      | some hx => exact .some (.inl hx)
    have hbody := followed_advance_bind hs hk hvar hn
      fun _ _ _ => varBody_follows h hp hsign
    obtain ⟨d', t', hd', hfollowed⟩ := hbody d t
      ((bind_done (fun _ => varBody operand p g) (expect_done hkind)).symm.trans hd)
    have hkind' := (hs.kind_eq hvar).trans hkind
    exact ⟨d', t', (bind_done (fun _ => varBody operand p' g') (expect_done hkind')).trans hd',
      hfollowed⟩
  next => exact fnDecl_follows h hp hg hs (.refl _) (.refl _) hn d t hd
  next => cases hd

omit h in
theorem declaration_eq (v : Vocabulary) (s : ParserState) : declaration v operand s =
    (signature? v >>= declarationFrom operand s.current.place) s := by
  change (signature? v >>= fun g => current >>= fun t => _) s = _
  rw [bind_apply, bind_apply]
  cases signature? v s with
  | failed d t => rfl
  | done g t =>
    unfold declarationFrom ParserState.kind
    dsimp only
    rw [bind_done _ (show current t = .done t.current t from rfl)]
    cases t.current.kind <;> rfl

theorem declaration_inserted {s s' : ParserState} (hs : I.Signs s s')
    (hn : s.tokens.length < n + 1) (hkind : s.kind = .kwVar) (hstart : s.current.place = I.start)
    (hof : s'.kind = .kwOf) (hplace : I.place s.current.place s'.current.place)
    {ws w : List Token} {k : Token} (htokens : s'.advance.tokens = ws ++ k :: w)
    (hws : ws.map Token.letter = I.table.letters I.type) (hk : k.kind = .kwVar)
    (hw : I.Splits s.advance.tokens w) :
    I.Followed s s' (I.Likes .decl) (declaration .full operand s)
      (declaration .full operand s') := by
  obtain ⟨y, u, hy, hu, hgrows, hreported, hmatches⟩ := type_inserted htokens hws hs.types'
  have hsignature : signature? .full s' = .done (some y) u :=
    (signature?_of_kind hof).trans (bind_done _ hy)
  have hnone : signature? .full s = .done none s := signature?_of_ne (hkind ▸ by decide)
  have hukind : u.kind = .kwVar := by simp [ParserState.kind, ParserState.current, hu, hk]
  have hsuffix : s.advance.tokens <:+ s.tokens := List.tail_suffix _
  have hlt := (ParserState.consumes_advance
    (ParserState.tokens_ne_nil (s := s) (hkind ▸ by decide))).length_lt
  -- behind the word both runs read the rest of the variable
  have hsigns : I.Signs s.advance u.advance := by
    refine ⟨?_, hs.parted.of_suffix hsuffix, hs.types, hs.types'.trans hgrows, ?_⟩
    · simpa [ParserState.advance, hu] using hw
    · exact hreported.trans hs.silent
  have hsign : Option.Rel (I.Types s.types u.types)
      ((site s.current.place).sign I.start I.type none) (some y) := by
    rw [Site.sign_of_place (s := site s.current.place) hstart]
    exact .some (.inr ⟨rfl, hmatches⟩)
  have hbody := varBody_follows h hplace hsign hsigns (.refl _) (.refl _) (by omega)
  intro d t hd
  rw [declaration_eq, bind_done _ hnone] at hd
  rw [declaration_eq, bind_done _ hsignature]
  simp only [declarationFrom, hkind, hukind] at hd ⊢
  obtain ⟨d', t', hd', hadvances, hlike⟩ := hbody d t
    ((bind_done (fun _ => varBody operand s.current.place none) (expect_done hkind)).symm.trans hd)
  have hrest := bind_done (fun _ => varBody operand s'.current.place (some y)) (expect_done hukind)
  exact ⟨d', t', hrest.trans hd', ⟨hadvances.signs, hadvances.tokens.trans hsuffix,
    hadvances.grows, hgrows.trans hadvances.grows'⟩, hlike⟩

theorem declaration_follows :
    Follows I n (I.Likes .decl) (declaration .full operand) (declaration .full operand) := by
  intro T U s s' hs _ _ hn
  by_cases heof : s.kind = .eof
  · intro d t hd
    rw [declaration_eq, bind_done _ (signature?_of_ne (heof ▸ by decide))] at hd
    simp only [declarationFrom, heof] at hd
    cases hd
  rcases hs.current_cases heof with
    hsame | ⟨hkind, hstart, hof, hplace, ws, k, w, htokens, hws, hk, hw⟩
  · have hkind := hsame.kind
    have hvar : s.kind = .kwVar → s.current.place ≠ I.start := fun _ => hsame.apart
    intro d t hd
    rw [declaration_eq] at hd ⊢
    obtain ⟨g, u, hg, hd⟩ := of_bind_done hd
    obtain ⟨g', u', hg', hadvances, hrel⟩ := signature?_follows hs hvar g u hg
    obtain ⟨d', t', hd', hadvances', hlike⟩ := declarationFrom_follows h hadvances.signs
      (Nat.lt_succ_of_le (Nat.le_of_lt (Nat.lt_of_le_of_lt hadvances.length_le hn)))
      (place_ne_of_signature hs.parted hvar hg) hsame.place hrel hsame.apart d t hd
    exact ⟨d', t', (bind_done _ hg').trans hd', hadvances.trans hadvances', hlike⟩
  · exact declaration_inserted h hs (Nat.lt_succ_of_lt hn) hkind hstart hof hplace htokens hws hk hw

theorem blockItem_follows :
    Follows I n (I.Likes .stmt) (blockItem .full operand) (blockItem .full operand) := by
  intro T U s s' hs hT hU hn a t ha
  unfold blockItem at ha ⊢
  rw [hs.apply_kind Vocabulary.full.declares rfl]
  split at ha
  next hdeclares =>
    rw [if_pos hdeclares]
    cases hd : declaration .full operand s with
    | failed e u =>
      rw [hd] at ha
      cases ha
    | done d u =>
      rw [hd] at ha
      obtain ⟨rfl, rfl⟩ := Reply.done.inj ha
      obtain ⟨d', u', hd', hadvances, hlike⟩ := declaration_follows h T U hs hT hU hn d u hd
      have hplace : I.place d.place d'.place := d.place_sign ▸ Node.Like.declPlace hlike
      refine ⟨.decl (site d'.place) d', u', by rw [hd']; rfl, hadvances, ?_⟩
      exact .declared (.fresh hplace) hlike
  next hdeclares =>
    rw [if_neg hdeclares]
    exact statement_follows h T U hs hT hU hn a t ha

theorem itemsToEnd_follows (hs : ∀ bp, (operand bp).Steady) {s s' t : ParserState}
    {ss : List Stmt} (hsigns : I.Signs s s') (hn : s.tokens.length < n)
    (hss : itemsToEnd (blockItem .full operand) s = .done (ss, false) t) :
    ∃ ss' t', itemsToEnd (blockItem .full operand) s' = .done (ss', false) t' ∧
      I.Advances s s' t t' ∧ I.Like t.types t'.types (.stmts ss) (.stmts ss') := by
  induction hl : s.tokens.length using Nat.strongRecOn generalizing s s' ss with
  | ind l ih =>
    subst hl
    have hother (hclose : s.kind ≠ .closeCurly) (heof : s.kind ≠ .eof) :
        s'.kind ≠ .closeCurly ∧ s'.kind ≠ .eof := by
      rcases hsigns.kind_cases with hkind | ⟨-, hkind, -⟩
      · exact hkind ▸ ⟨hclose, heof⟩
      · exact hkind ▸ by decide
    rw [itemsToEnd_eq (.blockItem hs) (.blockItem hs)] at hss ⊢
    unfold itemsFrom at hss ⊢
    split at hss
    next hkind =>
      have hvar := IsApart.place_ne (I := I) (by decide) hkind
      obtain ⟨-, hadvances, -⟩ := hsigns.advance (hkind ▸ by decide) hvar
      obtain ⟨hpair, rfl⟩ := Reply.done.inj hss
      obtain ⟨rfl, -⟩ := Prod.mk.inj hpair
      rw [(hsigns.kind_eq hvar).trans hkind]
      exact ⟨[], s'.advance, rfl, hadvances, .noStmt⟩
    next => cases hss
    next hclose heof =>
      obtain ⟨hclose', heof'⟩ := hother hclose heof
      cases ha : blockItem .full operand s with
      | failed d u =>
        rw [ha] at hss
        dsimp only at hss
        generalize itemsToEnd (blockItem .full operand) _ = reply at hss
        cases reply <;> cases hss
      | done a u =>
        rw [ha] at hss
        dsimp only at hss
        obtain ⟨a', u', ha', hadvances, hlike⟩ :=
          blockItem_follows h _ _ hsigns (.refl _) (.refl _) hn a u ha
        have hlt := (Consuming.blockItem hs ha).length_lt
        cases hrest : itemsToEnd (blockItem .full operand) u with
        | failed d v =>
          rw [hrest] at hss
          cases hss
        | done x v =>
          rw [hrest] at hss
          obtain ⟨hpair, rfl⟩ := Reply.done.inj hss
          obtain ⟨rfl, hfailed⟩ := Prod.mk.inj hpair
          obtain ⟨as, failed⟩ := x
          obtain rfl : failed = false := hfailed
          obtain ⟨as', v', hrest', hadvances', hlikes⟩ :=
            ih _ hlt hadvances.signs (hlt.trans hn) hrest rfl
          refine ⟨a' :: as', v', ?_, hadvances.trans hadvances', ?_⟩
          · simp only [ha', hrest']
            rfl
          · exact .moreStmts (hlike.mono hadvances'.grows hadvances'.grows') hlikes

omit h in
theorem of_closeBlock_done {p q : Position} {x : Reply (List Stmt × Bool)} {ss : List Stmt}
    {t : ParserState} (h : closeBlock p x = .done (ss, q) t) :
    ∃ u, x = .done (ss, false) u ∧ q = p ∧ t = u.exitBlock := by
  match x, h with
  | .done (_, false) u, h =>
    obtain ⟨hpair, rfl⟩ := Reply.done.inj h
    obtain ⟨rfl, rfl⟩ := Prod.mk.inj hpair
    exact ⟨u, rfl, rfl, rfl⟩

theorem block_follows (hs : ∀ bp, (operand bp).Steady) : Follows I (n + 1)
    (fun T U b b' => I.Like T U (.stmts b.1) (.stmts b'.1) ∧ I.place b.2 b'.2)
    (block .full operand) (block .full operand) := by
  rintro T U s s' hsigns - - hn ⟨ss, p⟩ t hb
  by_cases hkind : s.kind = .openCurly
  · have hvar := IsApart.place_ne (I := I) (by decide) hkind
    obtain ⟨hsame, hadvances, hlt⟩ := hsigns.advance (hkind ▸ by decide) hvar
    rw [block_of_brace hkind] at hb
    rw [block_of_brace ((hsigns.kind_eq hvar).trans hkind)]
    obtain ⟨u, hu, rfl, rfl⟩ := of_closeBlock_done hb
    have hopened : I.Signs s.advance.enterBlock s'.advance.enterBlock :=
      ⟨hadvances.signs.tokens, hadvances.signs.parted, hadvances.signs.types,
        hadvances.signs.types', hadvances.signs.silent⟩
    obtain ⟨ss', u', hu', hitems, hlike⟩ := itemsToEnd_follows h hs hopened
      (show s.advance.tokens.length < n by omega) hu
    have hclosed : I.Advances s.advance s'.advance u.exitBlock u'.exitBlock :=
      ⟨⟨hitems.signs.tokens, hitems.signs.parted, hitems.signs.types, hitems.signs.types',
        hitems.signs.silent⟩, hitems.tokens, hitems.grows, hitems.grows'⟩
    unfold itemsToEnd at hu'
    exact ⟨(ss', s'.current.place), u'.exitBlock, congrArg (closeBlock _) hu',
      hadvances.trans hclosed, hlike, hsame.place⟩
  · rw [block_of_other hkind] at hb
    cases hb

theorem exprOfLead_follows (hs : ∀ bp, (operand bp).Steady) {s s' : ParserState}
    (hsigns : I.Signs s s') (hn : s.tokens.length < n + 1) {form : LeadForm}
    (hform : Vocabulary.full.lead? s.kind = some form) :
    I.Followed s s' (I.Likes .expr) (exprOfLead .full operand form s)
      (exprOfLead .full operand form s') := by
  have hkind {k : TokenKind} (hk : Vocabulary.full.lead? k = none) : s.kind ≠ k := by
    intro he
    rw [he, hk] at hform
    cases hform
  have heof := hkind (k := .eof) rfl
  have hvar : s.kind = .kwVar → s.current.place ≠ I.start := fun he => absurd he (hkind rfl)
  cases form with
  | primary =>
    obtain ⟨hsame, hadvances, -⟩ := hsigns.advance heof hvar
    have hliteral : s.kind ∈ TokenKind.literals := Vocabulary.lead?_eq_some.mp hform
    intro e t he
    obtain ⟨rfl, rfl⟩ := Reply.done.inj ((primary_done hliteral).symm.trans he)
    exact ⟨_, _, primary_done ((hsigns.kind_eq hvar).symm ▸ hliteral), hadvances,
      .leaf (.fresh hsame.place) hsame.toLike⟩
  | prefixed =>
    exact followed_advance_bind hsigns heof hvar hn fun k k' hk =>
      (h .unary _ _).bind fun _ _ _ _ _ _ he => .pure fun _ _ hT hU =>
        .unary (.fresh hk.place) hk.toLike (he.mono hT hU)
  | grouping =>
    have hrule : Follows I (n + 1) (I.Likes .expr) (grouping operand) (grouping operand) :=
      fun T U => .expect_bind (by decide) (Nat.le_refl _) fun _ _ _ =>
        (h .lowest T U).bind fun _ _ _ _ _ _ he => .expect_bind (by decide) (Nat.le_succ n)
          fun _ _ _ => .pure fun _ _ hT hU => he.mono hT hU
    exact hrule _ _ hsigns (.refl _) (.refl _) hn
  | block =>
    have hrule : Follows I (n + 1) (I.Likes .expr) (blockExpr .full operand)
        (blockExpr .full operand) := fun T U =>
      (block_follows h hs T U).bind fun _ _ _ _ _ _ hb => .pure fun _ _ hT hU =>
        .block (.fresh hb.2) (hb.1.mono hT hU)
    exact hrule _ _ hsigns (.refl _) (.refl _) hn
  | conditional =>
    have hrule : Follows I (n + 1) (I.Likes .expr) (conditional operand) (conditional operand) := by
      refine fun T U => .expect_bind (by decide) (Nat.le_refl _) fun _ _ hk =>
        (h .lowest T U).bind fun T₁ U₁ _ _ _ _ hc => .expect_bind (by decide) (Nat.le_succ n)
          fun _ _ _ => (h .lowest T₁ U₁).bind fun T₂ U₂ _ _ hT₂ hU₂ ha =>
            .advanceIf_bind (by decide) (Nat.le_succ n) ?_ ?_
      · exact (h .lowest T₂ U₂).bind fun _ _ _ _ hT₃ hU₃ hb => .pure fun _ _ hT hU =>
          .ifElse (.fresh hk.place) (hc.mono (hT₂.trans (hT₃.trans hT)) (hU₂.trans (hU₃.trans hU)))
            (ha.mono (hT₃.trans hT) (hU₃.trans hU)) (hb.mono hT hU)
      · exact .pure fun _ _ hT hU => .ifThen (.fresh hk.place)
          (hc.mono (hT₂.trans hT) (hU₂.trans hU)) (ha.mono hT hU)
    exact hrule _ _ hsigns (.refl _) (.refl _) hn
  | returned =>
    have hrule : Follows I (n + 1) (I.Likes .expr) (returned operand) (returned operand) :=
      fun T U => .expect_bind (by decide) (Nat.le_refl _) fun _ _ hk =>
        (h .lowest T U).bind fun _ _ _ _ _ _ he => .pure fun _ _ hT hU =>
          .result (.fresh hk.place) (he.mono hT hU)
    exact hrule _ _ hsigns (.refl _) (.refl _) hn
  | yielded =>
    have hrule : Follows I (n + 1) (I.Likes .expr) (yielded operand) (yielded operand) :=
      fun T U => .expect_bind (by decide) (Nat.le_refl _) fun _ _ hk =>
        (h .lowest T U).bind fun _ _ _ _ _ _ he => .pure fun _ _ hT hU =>
          .result (.fresh hk.place) (he.mono hT hU)
    exact hrule _ _ hsigns (.refl _) (.refl _) hn

/-- An operator and what stands behind it, or the arguments of a call. -/
theorem exprOfTail_follows (hs : ∀ bp, (operand bp).Steady) {s s' : ParserState}
    (hsigns : I.Signs s s') (hn : s.tokens.length < n + 1) {next : BindingPower} {form : TailForm}
    (hform : Vocabulary.full.tail? s.kind = some (next, form)) {e e' : Expr}
    (he : I.Likes .expr s.types s'.types e e') :
    I.Followed s s' (I.Likes .expr) (exprOfTail operand e next form s)
      (exprOfTail operand e' next form s') := by
  have hkind {k : TokenKind} (hk : Vocabulary.full.tail? k = none) : s.kind ≠ k := by
    intro he
    rw [he, hk] at hform
    cases hform
  have heof := hkind (k := .eof) rfl
  have hvar : s.kind = .kwVar → s.current.place ≠ I.start := fun he => absurd he (hkind rfl)
  have hbinary (form : BinaryForm) : I.Followed s s' (I.Likes .expr)
      (binaryTail operand form e next s) (binaryTail operand form e' next s') :=
    followed_advance_bind hsigns heof hvar hn fun k k' hk =>
      (h next _ _).bind fun _ _ _ _ hT₁ hU₁ hr => .pure fun _ _ hT hU =>
        .binary (.fresh hk.place) hk.toLike (he.mono (hT₁.trans hT) (hU₁.trans hU)) (hr.mono hT hU)
  cases form with
  | comparison => exact hbinary .comparison
  | arithmetic => exact hbinary .arithmetic
  | call =>
    have hplace : I.place e.place e'.place := e.place_sign ▸ Node.Like.place he
    have hrule : FollowsFrom I s.types s'.types (n + 1) (I.Likes .expr) (callTail operand e)
        (callTail operand e') :=
      .expect_bind (by decide) (Nat.le_refl _) fun _ _ _ =>
        (itemsBefore_follows (hs .lowest) (hs .lowest) (fun _ _ _ _ _ _ hT hU h => h.mono hT hU)
          (h .lowest) (by decide) _ _).bind fun _ _ _ _ hT₁ hU₁ has =>
        .expect_bind (by decide) (Nat.le_succ n) fun _ _ _ => .pure fun _ _ hT hU =>
          .call (.fresh hplace) (he.mono (hT₁.trans hT) (hU₁.trans hU))
            ((Insertion.Like.exprs has).mono hT hU)
    exact hrule hsigns (.refl _) (.refl _) hn

theorem tails_follows (hs : ∀ bp, (operand bp).Steady) (bp : BindingPower) {T U : TypeTable}
    {e e' : Expr} (he : I.Likes .expr T U e e') :
    FollowsFrom I T U (n + 1) (I.Likes .expr) (tails .full operand bp e)
      (tails .full operand bp e') := by
  intro s s' hsigns hT hU hn
  induction hl : s.tokens.length using Nat.strongRecOn generalizing T U s s' e e' with
  | ind l ih =>
    subst hl
    have hlike := Insertion.Like.mono hT hU he
    intro x t hx
    rw [tails_eq hs] at hx ⊢
    unfold tailsOf at hx ⊢
    rw [hsigns.apply_kind Vocabulary.full.tail? rfl]
    have hdone (hx : Reply.done e s = .done x t) : ∃ x' t', Reply.done e' s' = .done x' t' ∧
        I.Advances s s' t t' ∧ I.Likes .expr t.types t'.types x x' := by
      obtain ⟨rfl, rfl⟩ := Reply.done.inj hx
      exact ⟨e', s', rfl, .refl hsigns, hlike⟩
    split at hx
    next next form hform =>
      split at hx
      next hlt =>
        rw [if_pos hlt]
        obtain ⟨y, u, hy, hrest⟩ := of_bind_done hx
        obtain ⟨y', u', hy', hadvances, hlikes⟩ :=
          exprOfTail_follows h hs hsigns hn hform hlike y u hy
        have heof : s.kind ≠ .eof := fun heof => by simp [heof, Vocabulary.tail?] at hform
        have hshorter := (Consuming.exprOfTail hs heof hy).length_lt
        obtain ⟨x', t', hx', hadvances', hlike'⟩ := ih _ hshorter hlikes hadvances.signs (.refl _)
          (.refl _) (hshorter.trans hn) rfl x t hrest
        exact ⟨x', t', (bind_done _ hy').trans hx', hadvances.trans hadvances', hlike'⟩
      next hlt =>
        rw [if_neg hlt]
        exact hdone hx
    next => exact hdone hx

end Operand

theorem expr_follows : OperandFollows I n (expr .full) := by
  induction n with
  | zero => exact fun _ _ _ _ _ _ _ _ hn => absurd hn (Nat.not_lt_zero _)
  | succ n ih =>
    intro bp T U s s' hs hT hU hn
    rw [expr_eq]
    unfold exprOf
    rw [hs.apply_kind Vocabulary.full.lead? rfl]
    intro e t he
    split at he
    next form hform =>
      obtain ⟨x, u, hx, hrest⟩ := of_bind_done he
      obtain ⟨x', u', hx', hadvances, hlike⟩ :=
        exprOfLead_follows ih (.expr .full) hs hn hform x u hx
      obtain ⟨e', t', he', hadvances', hlike'⟩ := tails_follows ih (.expr .full) bp hlike
        hadvances.signs (.refl _) (.refl _) (Nat.lt_of_le_of_lt hadvances.length_le hn) e t hrest
      exact ⟨e', t', (bind_done _ hx').trans he', hadvances.trans hadvances', hlike'⟩
    next => cases he

theorem topLevel_follows : Follows I n (I.Likes .decl) (topLevel .full) (topLevel .full) := by
  intro T U s s' hs hT hU hn d t hd
  unfold topLevel at hd ⊢
  rw [hs.apply_kind Vocabulary.full.declares rfl]
  split at hd
  next hdeclares =>
    rw [if_pos hdeclares]
    exact declaration_follows expr_follows T U hs hT hU hn d t hd
  next => cases hd

theorem declarationsWithin_of_end {s : ParserState} (h : s.kind = .eof) (m : Nat) :
    declarationsWithin .full m s = ([], s) := by
  cases m with
  | zero => rfl
  | succ m => simp [declarationsWithin, ParserState.hasTokens, h]

/-- A text without faults has none with the signature put in either. -/
theorem declarationsWithin_follows {m : Nat} {s s' t : ParserState} {ds : List Decl}
    (hs : I.Signs s s') (hm : s'.tokens.length ≤ m)
    (hds : declarationsWithin .full n s = (ds, t)) (ht : t.reported = [])
    (hn : s.tokens.length ≤ n) :
    ∃ ds' t', declarationsWithin .full m s' = (ds', t') ∧ I.Advances s s' t t' ∧
      I.Like t.types t'.types (.decls ds) (.decls ds') := by
  have hend {m : Nat} {s s' : ParserState} {ds : List Decl} (hs : I.Signs s s')
      (hkind : s.kind = .eof) (hds : (([] : List Decl), s) = (ds, t)) :
      ∃ ds' t', declarationsWithin .full m s' = (ds', t') ∧ I.Advances s s' t t' ∧
        I.Like t.types t'.types (.decls ds) (.decls ds') := by
    obtain ⟨rfl, rfl⟩ := Prod.mk.inj hds
    have hkind' := (hs.kind_eq fun h => absurd (hkind.symm.trans h) (by decide)).trans hkind
    exact ⟨[], s', declarationsWithin_of_end hkind' m, .refl hs, .noDecl⟩
  induction n generalizing m s s' ds with
  | zero =>
    have hnil := List.eq_nil_of_length_eq_zero (Nat.le_zero.mp hn)
    exact hend hs (by simp [ParserState.kind, ParserState.current, hnil, Token.endAt]) hds
  | succ n ih =>
    unfold declarationsWithin at hds
    split at hds
    next hmore =>
      have heof : s.kind ≠ .eof := by simpa [ParserState.hasTokens] using hmore
      have heof' : s'.kind ≠ .eof := by
        rcases hs.kind_cases with hkind | ⟨-, hkind, -⟩
        · rwa [hkind]
        · exact hkind ▸ by decide
      have hpos := List.length_pos_iff.mpr (ParserState.tokens_ne_nil heof')
      obtain ⟨m, rfl⟩ : ∃ l, m = l + 1 := ⟨m - 1, by omega⟩
      have hmore' : s'.hasTokens = true := by simpa [ParserState.hasTokens] using heof'
      split at hds
      next d u hd =>
        obtain ⟨hpair, hrest⟩ := Prod.mk.inj hds
        obtain ⟨d', u', hd', hadvances, hlike⟩ := topLevel_follows (n := s.tokens.length + 1) _ _ hs
          (.refl _) (.refl _) (Nat.lt_succ_self _) d u hd
        have hlt := (Consuming.topLevel .full hd).length_lt
        have hlt' := (Consuming.topLevel .full hd').length_lt
        obtain ⟨ds', t', hds', hadvances', hlikes⟩ := ih (m := m) hadvances.signs (by omega)
          (Prod.ext rfl hrest) (by omega)
        refine ⟨d' :: ds', t', ?_, hadvances.trans hadvances', ?_⟩
        · simp only [declarationsWithin, hmore', if_true, hd', hds']
        · rw [← hpair]
          exact .moreDecls (hlike.mono hadvances'.grows hadvances'.grows') hlikes
      next d u hd =>
        -- what was reported stays reported
        obtain ⟨es, hes, -⟩ :=
          (continues_declarationsWithin .full n (u.report d).synchronize).reported
        rw [hds] at hes
        simp [ht, ParserState.synchronize, ParserState.report] at hes
    next hmore => exact hend hs (by simpa [ParserState.hasTokens] using hmore) hds

end FrontEnd.Rule
