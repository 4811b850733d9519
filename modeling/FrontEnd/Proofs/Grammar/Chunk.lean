import FrontEnd.Grammar.State

/-! Stretches of tokens that leave every block they are in and end with a semicolon outside all of
them. What went wrong inside such a stretch is skipped without leaving it. -/

namespace FrontEnd

/-- The kinds close `d` blocks besides those they open. The last one is a semicolon, and it is the
only semicolon outside all blocks. -/
structure Closes (d : Nat) (ks : List TokenKind) : Prop where
  closed_le (front : List TokenKind) (h : front <+: ks) :
    front.count .closeCurly ≤ d + front.count .openCurly
  balanced : ks.count .closeCurly = d + ks.count .openCurly
  last : ks.getLast? = some .semicolon
  only (front rest : List TokenKind) (h : ks = front ++ .semicolon :: rest)
    (hd : front.count .closeCurly = d + front.count .openCurly) : rest = []

namespace Closes

variable {d : Nat} {k : TokenKind} {ks : List TokenKind}

theorem iff_take : Closes d ks ↔
    (∀ i < ks.length + 1, (ks.take i).count .closeCurly ≤ d + (ks.take i).count .openCurly) ∧
    ks.count .closeCurly = d + ks.count .openCurly ∧ ks.getLast? = some .semicolon ∧
    ∀ i < ks.length, ks[i]? = some .semicolon →
      (ks.take i).count .closeCurly = d + (ks.take i).count .openCurly → ks.drop (i + 1) = [] := by
  constructor
  · intro h
    refine ⟨fun i _ => h.closed_le _ (List.take_prefix i ks), h.balanced, h.last,
      fun i hi hsemicolon hd => h.only (ks.take i) _ ?_ hd⟩
    obtain ⟨_, hget⟩ := List.getElem?_eq_some_iff.mp hsemicolon
    rw [← hget, ← List.drop_eq_getElem_cons hi, List.take_append_drop]
  · rintro ⟨hle, hbalanced, hlast, honly⟩
    refine ⟨fun front hfront => ?_, hbalanced, hlast, fun front rest hks hd => ?_⟩
    · rw [List.prefix_iff_eq_take.mp hfront]
      exact hle _ (Nat.lt_succ_of_le hfront.length_le)
    · subst hks
      simpa using honly front.length (by simp) (by simp) (by simpa using hd)

instance : Decidable (Closes d ks) := decidable_of_iff _ iff_take.symm

theorem ne_nil (h : Closes d ks) : ks ≠ [] := by
  rintro rfl
  exact nomatch h.last

theorem tail {e : Nat} (h : Closes d (k :: ks)) (hks : ks ≠ [])
    (he : [k].count .closeCurly + e = d + [k].count .openCurly) : Closes e ks := by
  have hcount (l : TokenKind) (front : List TokenKind) :
      (k :: front).count l = [k].count l + front.count l := by
    rw [← List.singleton_append, List.count_append]
  constructor
  · intro front hfront
    have hle := h.closed_le (k :: front) ((List.prefix_cons_inj k).mpr hfront)
    have hclosed := hcount .closeCurly front
    have hopen := hcount .openCurly front
    omega
  · have hbalanced := h.balanced
    have hclosed := hcount .closeCurly ks
    have hopen := hcount .openCurly ks
    omega
  · rw [← h.last, List.getLast?_cons_of_ne_nil hks]
  · rintro front rest rfl hd
    have hclosed := hcount .closeCurly front
    have hopen := hcount .openCurly front
    exact h.only (k :: front) rest rfl (by omega)

theorem tail_ne_nil (h : Closes d (k :: ks)) (hk : k ≠ .semicolon) : ks ≠ [] := by
  rintro rfl
  exact hk (Option.some.inj h.last)

theorem open_ (h : Closes d (.openCurly :: ks)) : Closes (d + 1) ks :=
  h.tail (h.tail_ne_nil (by decide)) (by simp)

theorem close (h : Closes d (.closeCurly :: ks)) : 0 < d ∧ Closes (d - 1) ks := by
  have hle := h.closed_le [.closeCurly] (by simp)
  have hd : 0 < d := Nat.succ_le_iff.mp (by simpa using hle)
  exact ⟨hd, h.tail (h.tail_ne_nil (by decide)) (by simp; omega)⟩

theorem semicolon_zero (h : Closes 0 (.semicolon :: ks)) : ks = [] :=
  h.only [] ks rfl (by simp)

theorem semicolon_pos (h : Closes d (.semicolon :: ks)) (hd : 0 < d) : Closes d ks := by
  refine h.tail ?_ (by simp)
  rintro rfl
  have hbalanced := h.balanced
  simp at hbalanced
  omega

theorem plain (h : Closes d (k :: ks)) (hk : k ∉ [.openCurly, .closeCurly, .semicolon]) :
    Closes d ks := by
  simp only [List.mem_cons, List.not_mem_nil, or_false, not_or] at hk
  obtain ⟨ho, hc, hs⟩ := hk
  exact h.tail (h.tail_ne_nil hs) (by simp [ho, hc])

end Closes

/-- Tokens of a text that close `d` blocks; the end of the text is not among them. -/
structure ClosedBy (d : Nat) (w : List Token) : Prop where
  closes : Closes d (w.map Token.kind)
  noEnd : .eof ∉ w.map Token.kind

namespace ClosedBy

variable {d n : Nat} {t : Token} {w : List Token}

instance : Decidable (ClosedBy d w) :=
  decidable_of_iff (Closes d (w.map Token.kind) ∧ .eof ∉ w.map Token.kind)
    ⟨fun h => ⟨h.1, h.2⟩, fun h => ⟨h.closes, h.noEnd⟩⟩

theorem ne_nil (h : ClosedBy d w) : w ≠ [] := by
  rintro rfl
  exact h.closes.ne_nil rfl

theorem of_map_kind_eq {w' : List Token} (h : ClosedBy d w)
    (hw : w.map Token.kind = w'.map Token.kind) : ClosedBy d w' :=
  ⟨hw ▸ h.closes, hw ▸ h.noEnd⟩

theorem cons_of {e : Nat} (h : ClosedBy d (t :: w)) (hw : Closes e (w.map Token.kind)) :
    ClosedBy e w := ⟨hw, fun he => h.noEnd (List.mem_cons_of_mem _ he)⟩

theorem kind_last (h : ClosedBy d (w ++ [t])) : t.kind = .semicolon := by
  have hlast := h.closes.last
  rw [List.map_append, List.map_singleton, List.getLast?_concat] at hlast
  exact Option.some.inj hlast

theorem kind_ne_eof (h : ClosedBy d (t :: w)) : t.kind ≠ .eof :=
  fun he => h.noEnd (he ▸ List.mem_cons_self)

theorem open_ (h : ClosedBy d (t :: w)) (ht : t.kind = .openCurly) : ClosedBy (d + 1) w := by
  have hcloses := h.closes
  rw [List.map_cons, ht] at hcloses
  exact h.cons_of hcloses.open_

theorem close (h : ClosedBy d (t :: w)) (ht : t.kind = .closeCurly) :
    0 < d ∧ ClosedBy (d - 1) w := by
  have hcloses := h.closes
  rw [List.map_cons, ht] at hcloses
  exact ⟨hcloses.close.1, h.cons_of hcloses.close.2⟩

theorem semicolon_zero (h : ClosedBy 0 (t :: w)) (ht : t.kind = .semicolon) : w = [] := by
  have hcloses := h.closes
  rw [List.map_cons, ht] at hcloses
  exact List.map_eq_nil_iff.mp hcloses.semicolon_zero

theorem semicolon_pos (h : ClosedBy d (t :: w)) (ht : t.kind = .semicolon) (hd : 0 < d) :
    ClosedBy d w := by
  have hcloses := h.closes
  rw [List.map_cons, ht] at hcloses
  exact h.cons_of (hcloses.semicolon_pos hd)

theorem plain (h : ClosedBy d (t :: w))
    (ht : t.kind ∉ [TokenKind.openCurly, .closeCurly, .semicolon]) : ClosedBy d w := by
  have hcloses := h.closes
  rw [List.map_cons] at hcloses
  exact h.cons_of (hcloses.plain ht)

/-- The tokens before the last semicolon are skipped, whatever stands behind them. -/
theorem recover_init (h : ClosedBy n (w ++ [t])) (inBlock : Bool) (rest : List Token) :
    recover inBlock n (w ++ rest) = recover inBlock 0 rest := by
  induction w generalizing n with
  | nil =>
    -- only the semicolon is left, so no brace is open
    have hbalanced := h.closes.balanced
    have hn : n = 0 := by simpa [h.kind_last] using hbalanced.symm
    rw [hn, List.nil_append]
  | cons u w ih =>
    rw [List.cons_append] at h ⊢
    conv => lhs; unfold recover
    split
    next hu => exact absurd hu h.kind_ne_eof
    next hu =>
      by_cases hn : n = 0
      · subst hn
        exact absurd (h.semicolon_zero hu) (by simp)
      · rw [if_neg hn]
        exact ih (h.semicolon_pos hu (Nat.pos_of_ne_zero hn))
    next hu => exact ih (h.open_ hu)
    next hu =>
      obtain ⟨hn, hw⟩ := h.close hu
      have hne : (decide (n = 0) && inBlock) = false := by simp [Nat.ne_of_gt hn]
      rw [hne, if_neg Bool.false_ne_true]
      exact ih hw
    next _ hs ho hc => exact ih (h.plain (by simpa using ⟨ho, hc, hs⟩))

/-- Outside all blocks everything up to the last semicolon is skipped. -/
theorem recover_eq (h : ClosedBy n w) (inBlock : Bool) (rest : List Token) :
    recover inBlock n (w ++ rest) = rest := by
  obtain ⟨front, t, rfl⟩ := (List.eq_nil_or_concat w).resolve_left h.ne_nil
  rw [List.concat_eq_append] at h ⊢
  rw [List.append_assoc, h.recover_init, List.singleton_append]
  simp [recover, h.kind_last]

theorem recover_append (h : ClosedBy (d + n) w) (hd : 0 < d) (rest : List Token) :
    recover true n (w ++ rest) = recover true n w ++ rest ∧ ClosedBy d (recover true n w) := by
  induction w generalizing n with
  | nil => exact absurd rfl h.ne_nil
  | cons t w ih =>
    rw [List.cons_append]
    unfold recover
    split
    next ht => exact absurd ht h.kind_ne_eof
    next ht =>
      have hw := h.semicolon_pos ht (by omega)
      by_cases hn : n = 0
      · subst hn
        exact ⟨rfl, hw⟩
      · rw [if_neg hn, if_neg hn]
        exact ih hw
    next ht => exact ih (h.open_ ht)
    next ht =>
      by_cases hn : n = 0
      · subst hn
        exact ⟨rfl, h⟩
      · have hw := (h.close ht).2
        have hne : (decide (n = 0) && true) = false := by simp [hn]
        rw [hne, if_neg Bool.false_ne_true, if_neg Bool.false_ne_true]
        exact ih (by rwa [Nat.add_sub_assoc (Nat.pos_of_ne_zero hn)] at hw)
    next _ hs ho hc => exact ih (h.plain (by simpa using ⟨ho, hc, hs⟩))

end ClosedBy

/-- Something is skipped unless recovery stops where it starts. -/
theorem length_recover_lt {inBlock : Bool} {t : Token} {w : List Token} (he : t.kind ≠ .eof)
    (hc : t.kind ≠ .closeCurly ∨ inBlock = false) :
    (recover inBlock 0 (t :: w)).length < (t :: w).length := by
  have hle (n : Nat) : (recover inBlock n w).length ≤ w.length := (recover_suffix _ _ _).length_le
  have h₀ := hle 0
  have h₁ := hle 1
  unfold recover
  split
  next ht => exact absurd ht he
  next => simp
  next => exact Nat.lt_succ_of_le h₁
  next ht =>
    have hin : inBlock = false := hc.resolve_left fun h => h ht
    rw [hin] at h₀ ⊢
    exact Nat.lt_succ_of_le h₀
  next => exact Nat.lt_succ_of_le h₀

theorem length_recover_lt_of_suffix {inBlock : Bool} {t : Token} {v w : List Token}
    (hv : v <:+ t :: w) (he : t.kind ≠ .eof) (hc : t.kind ≠ .closeCurly ∨ inBlock = false) :
    (recover inBlock 0 v).length < (t :: w).length := by
  by_cases hlength : v.length < (t :: w).length
  · exact Nat.lt_of_le_of_lt (recover_suffix _ _ _).length_le hlength
  · obtain rfl := hv.eq_of_length_le (Nat.le_of_not_lt hlength)
    exact length_recover_lt he hc

end FrontEnd
