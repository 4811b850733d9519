import FrontEnd.Token.Stream

/-! The tokens of a source text stand in the order of their places, and only the last of them marks
an end. -/

namespace FrontEnd

theorem Position.lt_irrefl (p : Position) : ¬ p < p := by
  rw [lt_def]
  omega

theorem Position.lt_asymm {p q : Position} (h : p < q) : ¬ q < p := by
  rw [lt_def] at h ⊢
  omega

theorem Position.lt_trans {p q r : Position} (h : p < q) (h' : q < r) : p < r := by
  rw [lt_def] at *
  omega

theorem Position.offset_le_afterAll (p : Position) (cs : List Char) :
    p.offset ≤ (p.afterAll cs).offset := by
  induction cs generalizing p with
  | nil => simp
  | cons c cs ih =>
    have hafter : p.offset ≤ (p.after c).offset := by
      unfold after
      split <;> simp
    have hrest := ih (p.after c)
    rw [afterAll_cons]
    omega

theorem Position.offset_lt_afterAll (p : Position) {cs : List Char} (h : cs ≠ []) :
    p.offset < (p.afterAll cs).offset := by
  cases cs with
  | nil => exact absurd rfl h
  | cons c cs =>
    have hsize := Char.utf8Size_pos c
    have hafter : p.offset < (p.after c).offset := by
      unfold after
      split <;> simp [hsize]
    have hrest := offset_le_afterAll (p.after c) cs
    rw [afterAll_cons]
    omega

theorem offset_le_scan (p : Position) (cs : List Char) :
    p.offset ≤ (scan p cs).token.place.offset := by
  have hskipped := p.offset_le_afterAll (splitTrivia false cs).1
  unfold scan
  cases hl : Lexeme.first? (splitTrivia false cs).2 <;> simpa [hl] using hskipped

theorem offset_lt_scan {p : Position} {cs : List Char} (h : (scan p cs).token.kind ≠ .eof) :
    (scan p cs).token.place.offset < (scan p cs).place.offset := by
  unfold scan at h ⊢
  cases hl : Lexeme.first? (splitTrivia false cs).2 with
  | none => simp [hl] at h
  | some l =>
    have htext := (p.afterAll (splitTrivia false cs).1).offset_lt_afterAll (Lexeme.text_ne_nil hl)
    simpa [hl] using htext

theorem offset_le_of_mem_tokensFrom {p : Position} {cs : List Char} {t : Token}
    (ht : t ∈ tokensFrom p cs) : p.offset ≤ t.place.offset := by
  fun_induction tokensFrom p cs with
  | case1 p cs s h =>
    obtain rfl := List.eq_of_mem_singleton ht
    exact offset_le_scan p cs
  | case2 p cs s h ih =>
    have hfirst : p.offset ≤ s.token.place.offset := offset_le_scan p cs
    have hnext : s.token.place.offset < s.place.offset := offset_lt_scan h
    rcases List.mem_cons.mp ht with rfl | ht
    · exact hfirst
    · have hrest := ih ht
      omega

theorem pairwise_offset_tokensFrom (p : Position) (cs : List Char) :
    (tokensFrom p cs).Pairwise fun t u => t.place.offset < u.place.offset := by
  fun_induction tokensFrom p cs with
  | case1 p cs s h => exact List.pairwise_singleton _ _
  | case2 p cs s h ih =>
    refine List.pairwise_cons.mpr ⟨fun u hu => ?_, ih⟩
    have hnext : s.token.place.offset < s.place.offset := offset_lt_scan h
    have hrest := offset_le_of_mem_tokensFrom hu
    omega

theorem pairwise_place_tokensFrom (p : Position) (cs : List Char) :
    (tokensFrom p cs).Pairwise fun t u => t.place < u.place :=
  (pairwise_offset_tokensFrom p cs).imp fun h => Position.lt_def.mpr (.inl h)

theorem pairwise_place_tokenize (source : String) :
    (tokenize source).dropLast.Pairwise fun t u => t.place < u.place :=
  (pairwise_place_tokensFrom _ _).sublist (List.dropLast_sublist _)

theorem kind_ne_eof_of_mem_dropLast {p : Position} {cs : List Char} {t : Token}
    (ht : t ∈ (tokensFrom p cs).dropLast) : t.kind ≠ .eof := by
  fun_induction tokensFrom p cs with
  | case1 p cs s h => simp at ht
  | case2 p cs s h ih =>
    rw [List.dropLast_cons_of_ne_nil (tokensFrom_ne_nil _ _), List.mem_cons] at ht
    rcases ht with rfl | ht
    · exact h
    · exact ih ht

theorem kind_ne_eof_of_mem_tokenize {source : String} {t : Token}
    (ht : t ∈ (tokenize source).dropLast) : t.kind ≠ .eof :=
  kind_ne_eof_of_mem_dropLast ht

theorem mem_dropLast_of_mem_tokensFrom {p : Position} {cs : List Char} {t : Token}
    (ht : t ∈ tokensFrom p cs) (hk : t.kind ≠ .eof) : t ∈ (tokensFrom p cs).dropLast := by
  fun_induction tokensFrom p cs with
  | case1 p cs s h =>
    obtain rfl := List.eq_of_mem_singleton ht
    contradiction
  | case2 p cs s h ih =>
    rw [List.dropLast_cons_of_ne_nil (tokensFrom_ne_nil _ _), List.mem_cons]
    exact (List.mem_cons.mp ht).imp_right ih

theorem mem_dropLast_of_mem_tokenize {source : String} {t : Token} (ht : t ∈ tokenize source)
    (hk : t.kind ≠ .eof) : t ∈ (tokenize source).dropLast :=
  mem_dropLast_of_mem_tokensFrom ht hk

/-- Each of the tokens stands behind those before it. -/
def Ascending (w : List Token) : Prop := w.Pairwise fun t u => t.place < u.place

namespace Ascending

variable {w u v u' v' : List Token} {t k : Token} {i j : Nat}

theorem tokenize (source : String) : Ascending (FrontEnd.tokenize source) :=
  pairwise_place_tokensFrom _ _

theorem nodup_places (h : Ascending w) : (w.map Token.place).Nodup := by
  have hne {t u : Token} (hlt : t.place < u.place) : t.place ≠ u.place :=
    fun he => Position.lt_irrefl u.place (he ▸ hlt)
  exact List.pairwise_map.mpr (List.Pairwise.imp hne h)

theorem sublist (h : Ascending w) (hv : v.Sublist w) : Ascending v := List.Pairwise.sublist hv h

theorem place_lt_iff (h : Ascending w) (ht : w[i]? = some t) (hk : w[j]? = some k) :
    t.place < k.place ↔ i < j := by
  obtain ⟨hi, rfl⟩ := List.getElem?_eq_some_iff.mp ht
  obtain ⟨hj, rfl⟩ := List.getElem?_eq_some_iff.mp hk
  have hordered := List.pairwise_iff_getElem.mp h
  rcases Nat.lt_trichotomy i j with hlt | rfl | hlt
  · exact iff_of_true (hordered i j hi hj hlt) hlt
  · exact iff_of_false (Position.lt_irrefl _) (Nat.lt_irrefl i)
  · exact iff_of_false (Position.lt_asymm (hordered j i hj hi hlt)) (Nat.lt_asymm hlt)

theorem eq_of_place_eq (h : Ascending w) (hw : w = u ++ t :: v) (hw' : w = u' ++ k :: v')
    (hplace : t.place = k.place) : u = u' := by
  have ht : w[u.length]? = some t := by simp [hw]
  have hk : w[u'.length]? = some k := by simp [hw']
  have hlt := h.place_lt_iff ht hk
  have hgt := h.place_lt_iff hk ht
  rw [hplace] at hlt hgt
  have hirrefl := Position.lt_irrefl k.place
  have hlength : u.length = u'.length := by
    have hle := mt hlt.mpr hirrefl
    have hge := mt hgt.mpr hirrefl
    omega
  exact (List.append_inj (hw.symm.trans hw') hlength).1

end Ascending

end FrontEnd
