import Mathlib
import FrontEnd.Proofs.Grammar.Inserted
import FrontEnd.Proofs.Scope.Likeness
import FrontEnd.Proofs.Token.Inserting

/-! A text with a signature put in front of a variable that has none is read as the program in which
the variable is signed. -/

namespace FrontEnd

def AtSameIndex (w w' : List Token) (p p' : Position) : Prop :=
  ∃ (i : Nat) (t t' : Token), w[i]? = some t ∧ w'[i]? = some t' ∧ t.place = p ∧ t'.place = p'

theorem keepsOrder_atSameIndex {w w' : List Token} (h : Ascending w) (h' : Ascending w') :
    KeepsOrder (AtSameIndex w w') := by
  rintro p p' q q' ⟨i, t, t', ht, ht', rfl, rfl⟩ ⟨j, k, k', hk, hk', rfl, rfl⟩
  rw [h.place_lt_iff ht hk, h'.place_lt_iff ht' hk']

namespace Insertion

variable {I : Insertion} {u u' v v' w : List Token}

theorem Splits.append (h : List.Forall₂ I.Same u u') (hv : I.Splits v v') :
    I.Splits (u ++ v) (u' ++ v') := by
  induction h with
  | nil => exact hv
  | cons ht _ ih => exact .cons ht ih

theorem Splits.of_forall₂ (h : List.Forall₂ I.Same u u') : I.Splits u u' := by
  have hsplits := Splits.append h .nil
  rwa [List.append_nil, List.append_nil] at hsplits

theorem forall₂_same {x y z : List Token}
    (hplace : I.place = AtSameIndex (u ++ (w ++ v)) (x ++ (z ++ y)))
    (hlength : u.length = x.length) (hw : w.map Token.letter = z.map Token.letter)
    (hstart : ∀ t ∈ w, t.place ≠ I.start) : List.Forall₂ I.Same w z := by
  have hlength' : w.length = z.length := by simpa using congrArg List.length hw
  refine List.forall₂_iff_get.mpr ⟨hlength', fun i hi hi' => ?_⟩
  have hletter := congrArg (fun l => l[i]?) hw
  simp only [List.getElem?_map, List.getElem?_eq_getElem hi, List.getElem?_eq_getElem hi',
    Option.map_some, Option.some.injEq] at hletter
  obtain ⟨hkind, hpayload⟩ := Prod.mk.inj hletter
  refine ⟨⟨hkind, hpayload, ?_⟩, hstart _ (List.getElem_mem hi)⟩
  rw [hplace]
  refine ⟨u.length + i, w[i], z[i], ?_, ?_, rfl, rfl⟩
  · simp [List.getElem?_append_right, List.getElem?_append_left, hi]
  · simp [List.getElem?_append_right, List.getElem?_append_left, hlength, hi']

end Insertion

namespace SignaturePut

variable {T : TypeTable} {t : TypeId} {source source' : String}
  (P : SignaturePut T t source source')

theorem back_ne_nil : P.back ≠ [] := by
  intro hback
  obtain ⟨vs, hvs, -⟩ := (layout_tokensFrom [] source.toList).eq_append_endAt
  have htokens := P.tokens
  rw [hback] at htokens
  obtain ⟨-, hlast⟩ := List.append_inj' (htokens.symm.trans hvs) rfl
  have heof : TokenKind.kwVar = .eof :=
    P.word_kind.symm.trans (congrArg Token.kind (List.cons.inj hlast).1)
  cases heof

theorem dropLast_tokens : (tokenize source).dropLast = P.front ++ P.word :: P.back.dropLast := by
  rw [P.tokens, List.dropLast_append_of_ne_nil (List.cons_ne_nil _ _),
    List.dropLast_cons_of_ne_nil P.back_ne_nil]

theorem back'_ne_nil : P.back' ≠ [] := by
  have hlength : P.back.length = P.back'.length := by simpa using congrArg List.length P.alike
  exact List.ne_nil_of_length_pos (hlength ▸ List.length_pos_iff.mpr P.back_ne_nil)

theorem dropLast_tokens' : (tokenize source').dropLast =
    P.front ++ P.opening :: (P.written ++ P.again :: P.back'.dropLast) := by
  rw [P.tokens', List.dropLast_append_of_ne_nil (List.cons_ne_nil _ _),
    List.dropLast_cons_of_ne_nil (by simp), List.dropLast_append_of_ne_nil (List.cons_ne_nil _ _),
    List.dropLast_cons_of_ne_nil P.back'_ne_nil]

theorem ascending : Ascending (P.front ++ P.word :: P.back) := P.tokens ▸ .tokenize source

theorem ascending' : Ascending (P.front ++ P.opening :: P.back') := by
  refine (P.tokens' ▸ Ascending.tokenize source').sublist ?_
  have hback := (List.sublist_cons_self P.again P.back').trans
    (List.sublist_append_right P.written _)
  exact (hback.cons_cons P.opening).append_left P.front

/-- What is put in takes the place of the word in front of which it stands. -/
def insertion (hT : T.Reachable) (ht : T.Holds t) : Insertion where
  place := AtSameIndex (P.front ++ P.word :: P.back) (P.front ++ P.opening :: P.back')
  start := P.word.place
  table := T
  type := t
  reachable := hT
  held := ht

variable {hT : T.Reachable} {ht : T.Holds t}

theorem splits : (P.insertion hT ht).Splits (tokenize source).dropLast
    (tokenize source').dropLast := by
  have hordered := List.pairwise_append.mp P.ascending
  have hback := List.dropLast_append_getLast P.back_ne_nil
  have hback' := List.dropLast_append_getLast P.back'_ne_nil
  have hfront : List.Forall₂ (P.insertion hT ht).Same P.front P.front :=
    Insertion.forall₂_same (u := []) (x := []) rfl rfl rfl fun u hu he =>
      Position.lt_irrefl _ (he ▸ hordered.2.2 u hu _ List.mem_cons_self)
  have hrest : List.Forall₂ (P.insertion hT ht).Same P.back.dropLast P.back'.dropLast := by
    refine Insertion.forall₂_same (u := P.front ++ [P.word]) (x := P.front ++ [P.opening])
      (v := [P.back.getLast P.back_ne_nil]) (y := [P.back'.getLast P.back'_ne_nil]) ?_ ?_ ?_
      fun u hu he => ?_
    · rw [hback, hback', List.append_assoc, List.append_assoc]
      rfl
    · simp
    · rw [List.map_dropLast, List.map_dropLast, P.alike]
    · have hlt := (List.pairwise_cons.mp hordered.2.1).1 u (List.mem_of_mem_dropLast hu)
      exact Position.lt_irrefl _ (he ▸ hlt)
  rw [P.dropLast_tokens, P.dropLast_tokens']
  refine .append hfront (.here P.word_kind rfl P.opening_kind ?_ P.letters P.again_kind
    (.of_forall₂ hrest))
  exact ⟨P.front.length, P.word, P.opening, by simp, by simp, rfl, rfl⟩

theorem parted (h : BeginsAt P.word.place (tokenize source).dropLast) :
    (P.insertion hT ht).Parted (tokenize source).dropLast := by
  obtain ⟨u, k, v, hu, -, hk, hlast⟩ := h
  intro u' l k' v' hu' hl hk'
  have hascending := (Ascending.tokenize source).sublist (List.dropLast_sublist _)
  have hsplit : (tokenize source).dropLast = (u' ++ [l]) ++ k' :: v' := by simp [hu']
  have heq := hascending.eq_of_place_eq hu hsplit (hk.trans hk'.symm)
  exact hlast l (by simp [heq]) hl

end SignaturePut

namespace Program

/-- With the signature put in, the text is read as the signed program. -/
theorem exists_parse_signed {source source' : String} {p : Program} {T : TypeTable} {t : TypeId}
    (hp : parse source .initial = (.ok p, T)) (ht : T.Holds t)
    (P : SignaturePut T t source source')
    (hunsigned : 0 < (Node.decls p.decls).unsignedAt P.word.place) :
    ∃ p' T', parse source' .initial = (.ok p', T') ∧ ∃ R, KeepsOrder R ∧
      (Node.decls (p.sign P.word.place t).decls).Like R (T.Matches T') (.decls p'.decls) := by
  obtain ⟨-, hreads, -, hreachable⟩ := reads_of_parse hp
  have hT := hreachable .initial
  have hstart : (P.insertion hT ht).Signs (.ofSource source .initial)
      (.ofSource source' .initial) :=
    ⟨P.splits, P.parted (hreads.beginsAt hunsigned), .refl _, .refl _, rfl⟩
  unfold parse ofState at hp
  obtain ⟨⟨ds, s⟩, hds⟩ : ∃ r, Rule.declarations .full (.ofSource source .initial) = r := ⟨_, rfl⟩
  rw [hds] at hp
  dsimp only at hp
  split at hp
  next hreported =>
    obtain ⟨hok, rfl⟩ := Prod.mk.inj hp
    obtain rfl := Except.ok.inj hok
    obtain ⟨ds', s', hds', hadvances, hlike⟩ := Rule.declarationsWithin_follows hstart
      (Nat.le_refl _) hds hreported (Nat.le_refl _)
    have hparse : parse source' .initial = (.ok { decls := ds' }, s'.types) := by
      unfold parse ofState Rule.declarations
      rw [hds']
      simp only [hadvances.signs.silent]
    refine ⟨_, _, hparse, _, keepsOrder_atSameIndex P.ascending P.ascending', ?_⟩
    refine Node.Like.mono ?_ hlike
    rintro x y (h | ⟨rfl, h⟩)
    · exact h.matches
    · exact h
  next => cases congrArg Prod.fst hp

end Program

end FrontEnd
