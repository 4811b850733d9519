import FrontEnd.Proofs.Grammar.Completeness
import FrontEnd.Proofs.Syntax.Likeness
import FrontEnd.Proofs.Syntax.Rendering
import FrontEnd.Proofs.Types.Matching

/-! Rules in front of the words of a written program. What was written is read whole and nothing
else, and what comes of it is the tree that was written. -/

namespace FrontEnd

def ParserState.letters (s : ParserState) : List Letter := s.tokens.map Token.letter

namespace ParserState

variable {s : ParserState} {l : Letter} {w rest : List Letter}

theorem of_letters_cons (h : s.letters = l :: w) :
    s.current.letter = l ∧ s.kind = l.1 ∧ s.advance.letters = w := by
  unfold letters at h
  cases hs : s.tokens with
  | nil => simp [hs] at h
  | cons t ts =>
    rw [hs, List.map_cons] at h
    obtain ⟨rfl, rfl⟩ := List.cons.inj h
    simp [current, kind, advance, letters, hs, Token.letter]

theorem kind_of_letters {v : List Letter} (h : s.letters = v ++ rest) (hv : v = l :: w) :
    s.kind = l.1 := by
  subst hv
  exact (of_letters_cons h).2.1

theorem length_le_of_letters (h : s.letters = w ++ rest) : w.length ≤ s.tokens.length := by
  have hlength := congrArg List.length h
  simp only [letters, List.length_map, List.length_append] at hlength
  omega

end ParserState

namespace Rule

variable {α β γ : Type}

/-- In front of `w` and `rest` the rule reads `w`, reports nothing, and what it reads fulfils `Q`.
The types known at the start are those of `T` and maybe more. -/
def RebuildsFrom (T : TypeTable) (r : Rule α) (w rest : List Letter) (Q : TypeTable → α → Prop) :
    Prop :=
  ∀ s : ParserState, s.letters = w ++ rest → T.Grows s.types →
    ∃ a t, r s = .done a t ∧ t.letters = rest ∧ s.types.Grows t.types ∧
      t.reported = s.reported ∧ Q t.types a

namespace RebuildsFrom

variable {T : TypeTable} {l : Letter} {k : TokenKind} {w v rest : List Letter} {r : Rule α}
  {f : α → Rule β} {P : TypeTable → α → Prop} {Q : TypeTable → β → Prop}

theorem pure {b : β} (h : ∀ U, T.Grows U → Q U b) :
    RebuildsFrom T (Pure.pure b : Rule β) [] rest Q :=
  fun s hs hT => ⟨b, s, rfl, hs, .refl _, rfl, h s.types hT⟩

theorem bind (hr : RebuildsFrom T r w (v ++ rest) P)
    (hf : ∀ a U, T.Grows U → P U a → RebuildsFrom U (f a) v rest Q) :
    RebuildsFrom T (r >>= f) (w ++ v) rest Q := by
  intro s hs hT
  obtain ⟨a, t, ha, ht, hgrows, hreported, hP⟩ := hr s (by rw [hs, List.append_assoc]) hT
  obtain ⟨b, u, hb, hu, hgrows', hreported', hQ⟩ :=
    hf a t.types (hT.trans hgrows) hP t ht (.refl _)
  exact ⟨b, u, by rw [bind_done f ha, hb], hu, hgrows.trans hgrows',
    hreported'.trans hreported, hQ⟩

theorem bind_last (hr : RebuildsFrom T r w rest P)
    (hf : ∀ a U, T.Grows U → P U a → RebuildsFrom U (f a) [] rest Q) :
    RebuildsFrom T (r >>= f) w rest Q := by
  have h := bind (v := []) hr hf
  rwa [List.append_nil] at h

theorem mono {P' : TypeTable → α → Prop} (h : RebuildsFrom T r w rest P)
    (hP : ∀ U a, T.Grows U → P U a → P' U a) : RebuildsFrom T r w rest P' := by
  intro s hs hT
  obtain ⟨a, t, ha, ht, hgrows, hreported, hp⟩ := h s hs hT
  exact ⟨a, t, ha, ht, hgrows, hreported, hP t.types a (hT.trans hgrows) hp⟩

theorem advance_bind {f : Token → Rule β}
    (hf : ∀ t, t.letter = l → RebuildsFrom T (f t) w rest Q) :
    RebuildsFrom T (advance >>= f) (l :: w) rest Q := by
  intro s hs hT
  obtain ⟨hl, _, hadvance⟩ := ParserState.of_letters_cons hs
  exact hf s.current hl s.advance hadvance hT

theorem current_bind {f : Token → Rule β}
    (hf : ∀ t, (∀ l ∈ (w ++ rest).head?, t.letter = l) → RebuildsFrom T (f t) w rest Q) :
    RebuildsFrom T (current >>= f) w rest Q := by
  intro s hs hT
  refine hf s.current (fun l hl => ?_) s hs hT
  obtain ⟨v, hv⟩ := List.head?_eq_some_iff.mp hl
  exact (ParserState.of_letters_cons (hs.trans hv)).1

theorem expect_bind {f : Token → Rule β} (hk : l.1 = k)
    (hf : ∀ t, t.letter = l → RebuildsFrom T (f t) w rest Q) :
    RebuildsFrom T (expect k >>= f) (l :: w) rest Q := by
  intro s hs hT
  obtain ⟨hl, hkind, hadvance⟩ := ParserState.of_letters_cons hs
  rw [bind_done f (expect_done (hkind.trans hk))]
  exact hf s.current hl s.advance hadvance hT

theorem advanceIf_true {f : Bool → Rule β} (hf : RebuildsFrom T (f true) w rest Q) :
    RebuildsFrom T (advanceIf k >>= f) (k.letter :: w) rest Q := by
  intro s hs hT
  obtain ⟨_, hkind, hadvance⟩ := ParserState.of_letters_cons hs
  rw [bind_done f (advanceIf_done_true (show s.kind = k from hkind))]
  exact hf s.advance hadvance hT

theorem advanceIf_false {f : Bool → Rule β} (hw : (w ++ rest).head? = some l) (hl : l.1 ≠ k)
    (hf : RebuildsFrom T (f false) w rest Q) : RebuildsFrom T (advanceIf k >>= f) w rest Q := by
  intro s hs hT
  obtain ⟨v, hv⟩ := List.head?_eq_some_iff.mp hw
  obtain ⟨_, hkind, _⟩ := ParserState.of_letters_cons (hs.trans hv)
  rw [bind_done f (advanceIf_done_false (hkind ▸ hl))]
  exact hf s hs hT

theorem of_tokens {r : Nat → Rule α} (h : ∀ n, w.length ≤ n → RebuildsFrom T (r n) w rest P) :
    RebuildsFrom T (fun s => r s.tokens.length s) w rest P :=
  fun s hs hT => h s.tokens.length (ParserState.length_le_of_letters hs) s hs hT

end RebuildsFrom

theorem expect_rebuilds {T : TypeTable} {l : Letter} {k : TokenKind} {rest : List Letter}
    (hk : l.1 = k) : RebuildsFrom T (expect k) [l] rest fun _ t => t.letter = l := by
  intro s hs hT
  obtain ⟨hl, hkind, hadvance⟩ := ParserState.of_letters_cons hs
  exact ⟨s.current, s.advance, expect_done (hkind.trans hk), hadvance, .refl _, rfl, hl⟩

theorem length_le_intercalate (l : Letter) (ws : List (List Letter)) :
    ws.length ≤ ([l].intercalate ws).length + 1 := by
  induction ws with
  | nil => simp
  | cons w ws ih =>
    cases ws with
    | nil => simp
    | cons v ws =>
      rw [List.intercalate_cons_cons]
      simp only [List.length_append, List.length_cons] at ih ⊢
      omega

theorem length_le_intercalate_of_mem (l : Letter) {ws : List (List Letter)} {w : List Letter}
    (hw : w ∈ ws) : w.length ≤ ([l].intercalate ws).length := by
  induction ws with
  | nil => exact nomatch hw
  | cons v ws ih =>
    cases ws with
    | nil => simp [List.eq_of_mem_singleton hw]
    | cons u ws =>
      rw [List.intercalate_cons_cons]
      simp only [List.length_append]
      rcases List.mem_cons.mp hw with rfl | hw
      · omega
      · have hle := ih hw
        omega

section Items

variable {item : Rule α} {R : TypeTable → γ → α → Prop} {letters : γ → List Letter}
  (hR : ∀ U V c a, U.Grows V → R U c a → R V c a)
include hR

/-- Each of the items is read in front of a comma and in front of what closes the list. -/
theorem commaSeparated_rebuilds {T : TypeTable} {cs : List γ} {close : Letter}
    {rest : List Letter} {n : Nat} (hne : cs ≠ []) (hn : cs.length ≤ n + 1)
    (hclose : close.1 ≠ .comma)
    (h : ∀ c ∈ cs, ∀ U l v, T.Grows U → l = TokenKind.letter .comma ∨ l = close →
      RebuildsFrom U item (letters c) (l :: v) fun V => R V c) :
    RebuildsFrom T (commaSeparated item n)
      ([TokenKind.letter .comma].intercalate (cs.map letters)) (close :: rest)
      fun V => List.Forall₂ (R V) cs := by
  induction cs generalizing n T with
  | nil => exact absurd rfl hne
  | cons c cs ih =>
    rw [List.forall_mem_cons] at h
    obtain ⟨hc, hcs⟩ := h
    cases cs with
    | nil =>
      rw [List.map_singleton, List.intercalate_singleton]
      have hitem := hc T close rest (.refl T) (.inr rfl)
      cases n with
      | zero =>
        exact hitem.bind_last fun a U _ ha => .pure fun V hV => .cons (hR _ _ _ _ hV ha) .nil
      | succ n =>
        exact hitem.bind_last fun a U _ ha => .advanceIf_false rfl hclose
          (.pure fun V hV => .cons (hR _ _ _ _ hV ha) .nil)
    | cons d cs =>
      obtain ⟨n, rfl⟩ : ∃ m, n = m + 1 := ⟨n - 1, by simp at hn; omega⟩
      rw [List.map_cons, List.map_cons, List.intercalate_cons_cons, List.append_assoc,
        ← List.map_cons]
      refine (hc T (TokenKind.letter .comma) _ (.refl T) (.inl rfl)).bind fun a U hU ha =>
        .advanceIf_true ?_
      have hrest := ih (List.cons_ne_nil d cs) (Nat.le_of_succ_le_succ hn) fun c' hc' V l v hV =>
        hcs c' hc' V l v (hU.trans hV)
      exact hrest.bind_last fun as V hV has =>
        .pure fun X hX => .cons (hR _ _ _ _ (hV.trans hX) ha) (has.imp fun _ _ => hR _ _ _ _ hX)

theorem itemsBefore_rebuilds {T : TypeTable} {cs : List γ} {close : TokenKind}
    {rest : List Letter} (hrefuses : item.Refuses close) (hclose : close ≠ .comma)
    (h : ∀ c ∈ cs, ∀ U l v, T.Grows U → l = TokenKind.letter .comma ∨ l = close.letter →
      RebuildsFrom U item (letters c) (l :: v) fun V => R V c) :
    RebuildsFrom T (itemsBefore close item)
      ([TokenKind.letter .comma].intercalate (cs.map letters)) (close.letter :: rest)
      fun V => List.Forall₂ (R V) cs := by
  intro s hs hT
  unfold itemsBefore
  cases cs with
  | nil =>
    obtain ⟨_, hkind, _⟩ := ParserState.of_letters_cons hs
    rw [if_pos (show s.kind = close from hkind)]
    exact ⟨[], s, rfl, hs, .refl _, rfl, .nil⟩
  | cons c cs =>
    have hlength := ParserState.length_le_of_letters hs
    have hn := length_le_intercalate (TokenKind.letter .comma) ((c :: cs).map letters)
    rw [List.length_map] at hn
    obtain ⟨as, t, ht, hrest⟩ := commaSeparated_rebuilds hR (n := s.tokens.length)
      (List.cons_ne_nil c cs) (by omega) hclose h s hs hT
    have hkind : s.kind ≠ close := by
      intro hk
      have hseparated : (commaSeparated item s.tokens.length).Refuses close := by
        cases s.tokens.length <;> exact hrefuses.bind _
      exact hseparated s hk _ _ ht
    rw [if_neg hkind]
    exact ⟨as, t, ht, hrest⟩

end Items

theorem enterType_rebuilds {T : TypeTable} {shape : TypeShape} {rest : List Letter}
    {Q : TypeTable → TypeId → Prop}
    (h : ∀ U t, T.Grows U → U.shape? t = some shape → Q U t) :
    RebuildsFrom T (enterType shape) [] rest Q := fun _ hs hT =>
  ⟨_, _, rfl, hs, TypeTable.grows_enter _ _, rfl,
    h _ _ (hT.trans (TypeTable.grows_enter _ _)) (TypeTable.shape?_enter_self _ _)⟩

theorem typeWithin_rebuilds_of_form {T : TypeTable} {n : Nat} {l : Letter} {w rest : List Letter}
    {Q : TypeTable → TypeId → Prop} (form : TypeForm)
    (hform : Vocabulary.full.typeForm? l.1 = some form)
    (h : RebuildsFrom T (typeOfForm (typeWithin .full n) form) (l :: w) rest Q) :
    RebuildsFrom T (typeWithin .full (n + 1)) (l :: w) rest Q := by
  intro s hs hT
  obtain ⟨_, hkind, _⟩ := ParserState.of_letters_cons hs
  obtain ⟨t, u, ht, hrest⟩ := h s hs hT
  refine ⟨t, u, ?_, hrest⟩
  unfold typeWithin
  simp only [hkind, hform, ht]

theorem primitiveType_rebuilds {T U : TypeTable}
    (hU : TypeTable.initial.Grows U) {t : TypeId} {p : Primitive}
    (ht : T.shape? t = some (.primitive p)) (rest : List Letter) :
    RebuildsFrom U primitiveType [p.kind.letter] rest fun V u => T.Matches V t u := by
  intro s hs hV
  obtain ⟨_, hkind, hadvance⟩ := ParserState.of_letters_cons hs
  have hprimitive : s.kind.primitive? = some p := by
    rw [hkind]
    cases p <;> rfl
  have hshape : s.types.shape? (TypeTable.primitive p) = some (.primitive p) :=
    (hU.trans hV).shape? (by cases p <;> rfl)
  refine ⟨TypeTable.primitive p, s.advance, ?_, hadvance, .refl _, rfl,
    .intro ht hshape .primitive⟩
  simp only [primitiveType, hprimitive]

theorem typeWithin_rebuilds {T U : TypeTable} (hT : T.Reachable)
    (hU : TypeTable.initial.Grows U) {n m : Nat} {t : TypeId} {rest : List Letter}
    (hn : t.index < n) (ht : t.index < T.size) (hm : (T.lettersWithin n t).length ≤ m) :
    RebuildsFrom U (typeWithin .full m) (T.lettersWithin n t) rest fun V u => T.Matches V t u := by
  induction n generalizing U m t rest with
  | zero => omega
  | succ n ih =>
    obtain ⟨shape, hshape⟩ : ∃ s, T.shape? t = some s := ⟨_, Array.getElem?_eq_getElem ht⟩
    have hpart {V : TypeTable} {u : TypeId} {m : Nat} {rest : List Letter}
        (hV : TypeTable.initial.Grows V) (hu : u ∈ shape.parts)
        (hm : (T.lettersWithin n u).length ≤ m) :
        RebuildsFrom V (typeWithin .full m) (T.lettersWithin n u) rest
          fun V x => T.Matches V u x := by
      have hlt := hT.index_lt_of_mem_parts hshape hu
      exact ih hV (by omega) (by omega) hm
    cases shape with
    | primitive p =>
      simp only [TypeTable.lettersWithin, hshape] at hm ⊢
      obtain ⟨m, rfl⟩ : ∃ k, m = k + 1 := ⟨m - 1, by simp at hm; omega⟩
      refine typeWithin_rebuilds_of_form .primitive ?_
        (primitiveType_rebuilds hU hshape rest)
      cases p <;> rfl
    | pointer u =>
      simp only [TypeTable.lettersWithin, hshape, List.length_cons] at hm ⊢
      obtain ⟨m, rfl⟩ : ∃ k, m = k + 1 := ⟨m - 1, by omega⟩
      refine typeWithin_rebuilds_of_form .pointer rfl (.expect_bind rfl fun _ _ =>
        (hpart hU (List.mem_singleton_self u) (by omega)).bind_last fun x V hV hx =>
          enterType_rebuilds fun X y hX hy => .intro hshape hy (.pointer (hx.mono hT hX)))
    | function as r =>
      simp only [TypeTable.lettersWithin, hshape, List.length_cons, List.length_append] at hm ⊢
      obtain ⟨m, rfl⟩ : ∃ k, m = k + 1 := ⟨m - 1, by omega⟩
      have harguments (rest : List Letter) :
          RebuildsFrom U (itemsBefore .closeBracket (typeWithin .full m))
            ([TokenKind.letter .comma].intercalate (as.map (T.lettersWithin n)))
            (TokenKind.letter .closeBracket :: rest)
            fun V => List.Forall₂ (fun u x => T.Matches V u x) as :=
        itemsBefore_rebuilds (fun _ _ _ _ hV h => h.mono hT hV) (typeWithin_refuses rfl m)
          (by decide) fun u hu V l v hV _ => by
            have hle := length_le_intercalate_of_mem (TokenKind.letter .comma)
              (List.mem_map_of_mem (f := T.lettersWithin n) hu)
            exact hpart (hU.trans hV) (List.mem_append_left _ hu) (by omega)
      refine typeWithin_rebuilds_of_form .function rfl (.expect_bind rfl fun _ _ =>
        (harguments _).bind fun xs V hV hxs => .expect_bind rfl fun _ _ =>
        .expect_bind rfl fun _ _ =>
        (hpart (hU.trans hV) (by simp [TypeShape.parts]) (by omega)).bind_last fun y X hX hy =>
          enterType_rebuilds fun Y z hY hz => .intro hshape hz (.function
            (hxs.imp fun _ _ h => h.mono hT (hX.trans hY)) (hy.mono hT hY)))

end Rule

end FrontEnd
