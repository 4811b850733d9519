import FrontEnd.Grammar.Program
import FrontEnd.Proofs.Grammar.Chunk
import FrontEnd.Proofs.Syntax.Likeness
import FrontEnd.Proofs.Types.Shifted

/-! Two runs of the grammar over like tokens go in step: a rule that succeeds in one run succeeds in
the other with a like result, and both leave as many of the compared tokens as the other. What
stands behind the compared tokens is never looked at. -/

namespace FrontEnd

/-- The tokens compared are all that is left of two texts, or a stretch that began with so many
blocks open and has other tokens behind it. -/
inductive Span where
  | whole
  | stretch (openBlocks : Nat) (rest rest' : List Token)

def Span.rest : Span → List Token
  | whole => []
  | stretch _ rest _ => rest

def Span.rest' : Span → List Token
  | whole => []
  | stretch _ _ rest' => rest'

/-- How two runs correspond. The diagnostics are those reported before the comparison. -/
structure Frame where
  place : Position → Position → Prop
  old : Nat
  added : Nat
  span : Span
  reported : List Diagnostic
  reported' : List Diagnostic

namespace Frame

variable (F : Frame)

def type (t t' : TypeId) : Prop := t' = t.shift F.old F.added

/-- The stretch goes on: its end closes the blocks opened since it began. -/
def Ahead (b : Nat) (w : List Token) : Prop :=
  ∀ d rest rest', F.span = .stretch d rest rest' → d ≤ b ∧ ClosedBy (b - d) w

/-- Behind a semicolon the stretch may be over. -/
def Behind (b : Nat) (w : List Token) : Prop :=
  ∀ d rest rest', F.span = .stretch d rest rest' →
    d = b ∧ w = [] ∨ d < b ∧ ClosedBy (b - d) w

variable {F}

theorem type_eq (h : F.added = 0) : F.type = Eq := by
  funext t t'
  rw [type, h, TypeId.shift_zero]
  exact propext eq_comm

theorem Ahead.whole_of_nil {b : Nat} (h : F.Ahead b []) : F.span = .whole := by
  cases hspan : F.span with
  | whole => rfl
  | stretch d rest rest' => exact absurd rfl (h d rest rest' hspan).2.ne_nil

theorem ahead_of_whole (h : F.span = .whole) (b : Nat) (w : List Token) : F.Ahead b w := by
  intro d rest rest' hspan
  exact nomatch h.symm.trans hspan

end Frame

/-- In both runs the compared tokens come next, and as many blocks are open. -/
structure ParserState.Abreast (F : Frame) (T : TypeTable) (b : Nat) (w w' : List Token)
    (s s' : ParserState) : Prop where
  tokens : s.tokens = w ++ F.span.rest
  tokens' : s'.tokens = w' ++ F.span.rest'
  window : List.Forall₂ (Token.Like F.place) w w'
  finish : F.span = .whole → F.place s.finish s'.finish
  openBlocks : s.openBlocks = b
  openBlocks' : s'.openBlocks = b
  grows : T.Grows s.types
  types : s.types.Shifted F.old F.added s'.types
  reported : ∃ ds ds', s.reported = F.reported ++ ds ∧ s'.reported = F.reported' ++ ds' ∧
    List.Forall₂ (Diagnostic.Like F.place) ds ds'

namespace ParserState.Abreast

variable {F : Frame} {T T' : TypeTable} {b : Nat} {w w' : List Token} {t t' : Token}
  {s s' : ParserState}

theorem mono (hT : T.Grows T') (h : Abreast F T' b w w' s s') : Abreast F T b w w' s s' :=
  { h with grows := hT.trans h.grows }

theorem self (h : Abreast F T b w w' s s') : Abreast F s.types b w w' s s' :=
  { h with grows := .refl _ }

theorem cons (h : Abreast F T b (t :: w) (t' :: w') s s') :
    t.Like F.place t' ∧ s.current = t ∧ s'.current = t' ∧
      Abreast F T b w w' s.advance s'.advance := by
  obtain ⟨ht, hw⟩ := List.forall₂_cons.mp h.window
  refine ⟨ht, by simp [current, h.tokens], by simp [current, h.tokens'], ?_⟩
  exact { h with
    tokens := by simp [ParserState.advance, h.tokens]
    tokens' := by simp [ParserState.advance, h.tokens']
    window := hw }

theorem nil (h : Abreast F T b [] w' s s') (hw : F.Ahead b []) :
    F.span = .whole ∧ w' = [] ∧ s.current = .endAt s.finish ∧ s'.current = .endAt s'.finish := by
  have hspan := hw.whole_of_nil
  obtain rfl := List.forall₂_nil_left_iff.mp h.window
  refine ⟨hspan, rfl, ?_, ?_⟩
  · simp [current, h.tokens, hspan, Span.rest]
  · simp [current, h.tokens', hspan, Span.rest']

theorem current (h : Abreast F T b w w' s s') (hw : F.Ahead b w) :
    s.current.Like F.place s'.current := by
  cases w with
  | nil =>
    obtain ⟨hspan, _, hs, hs'⟩ := h.nil hw
    rw [hs, hs']
    exact ⟨rfl, rfl, h.finish hspan⟩
  | cons t w =>
    obtain ⟨t', w', ht, _, rfl⟩ := List.forall₂_cons_left_iff.mp h.window
    obtain ⟨_, hs, hs', _⟩ := h.cons
    rwa [hs, hs']

theorem kind (h : Abreast F T b w w' s s') (hw : F.Ahead b w) : s'.kind = s.kind :=
  (h.current hw).kind.symm

theorem exists_cons (h : Abreast F T b w w' s s') (hw : F.Ahead b w) (hk : s.kind ≠ .eof) :
    ∃ t v t' v', w = t :: v ∧ w' = t' :: v' ∧ s.kind = t.kind ∧ s.current = t ∧ s'.current = t' ∧
      t.Like F.place t' ∧ Abreast F T b v v' s.advance s'.advance := by
  cases w with
  | nil =>
    obtain ⟨_, _, hs, _⟩ := h.nil hw
    exact absurd (congrArg Token.kind hs) hk
  | cons t w =>
    obtain ⟨t', w', _, _, rfl⟩ := List.forall₂_cons_left_iff.mp h.window
    obtain ⟨ht, hs, hs', hrest⟩ := h.cons
    exact ⟨t, w, t', w', rfl, rfl, congrArg Token.kind hs, hs, hs', ht, hrest⟩

theorem length_le (h : Abreast F T b w w' s s') : w.length ≤ s.tokens.length := by
  rw [h.tokens, List.length_append]
  omega

theorem length_le' (h : Abreast F T b w w' s s') : w.length ≤ s'.tokens.length := by
  rw [h.tokens', List.length_append, h.window.length_eq]
  omega

theorem unexpected (h : Abreast F T b w w' s s') (hw : F.Ahead b w) (f : String → Fault) :
    (s.unexpected (f s.current.shown)).Like F.place (s'.unexpected (f s'.current.shown)) := by
  have ht := h.current hw
  refine ⟨?_, ht.place⟩
  simp only [ParserState.unexpected, ht.lexicalFault?, ht.shown]

theorem report {d d' : Diagnostic} (h : Abreast F T b w w' s s') (hd : d.Like F.place d') :
    Abreast F T b w w' (s.report d) (s'.report d') := by
  obtain ⟨ds, ds', hs, hs', hds⟩ := h.reported
  refine { h with reported := ⟨ds ++ [d], ds' ++ [d'], ?_, ?_, ?_⟩ }
  · rw [ParserState.report, hs, List.append_assoc]
  · rw [ParserState.report, hs', List.append_assoc]
  · exact List.rel_append hds (.cons hd .nil)

theorem enterBlock (h : Abreast F T b w w' s s') :
    Abreast F T (b + 1) w w' s.enterBlock s'.enterBlock :=
  { h with
    openBlocks := congrArg (· + 1) h.openBlocks
    openBlocks' := congrArg (· + 1) h.openBlocks' }

theorem exitBlock (h : Abreast F T (b + 1) w w' s s') :
    Abreast F T b w w' s.exitBlock s'.exitBlock :=
  { h with
    openBlocks := congrArg (· - 1) h.openBlocks
    openBlocks' := congrArg (· - 1) h.openBlocks' }

end ParserState.Abreast

theorem forall₂_recover {R : Position → Position → Prop} (inBlock : Bool) {w w' : List Token}
    (h : List.Forall₂ (Token.Like R) w w') (n : Nat) :
    List.Forall₂ (Token.Like R) (recover inBlock n w) (recover inBlock n w') := by
  induction h generalizing n with
  | nil => exact .nil
  | @cons t t' w w' ht hw ih =>
    unfold recover
    rw [← ht.kind]
    split
    · exact .cons ht hw
    · split
      · exact hw
      · exact ih _
    · exact ih _
    · split
      · exact .cons ht hw
      · exact ih _
    · exact ih _

namespace ParserState.Abreast

variable {F : Frame} {T : TypeTable} {b : Nat} {w w' : List Token} {s s' : ParserState}

theorem synchronize_of_append (h : Abreast F T b w w' s s')
    (hw : recover (0 < b) 0 (w ++ F.span.rest) = recover (0 < b) 0 w ++ F.span.rest)
    (hw' : recover (0 < b) 0 (w' ++ F.span.rest') = recover (0 < b) 0 w' ++ F.span.rest') :
    Abreast F T b (recover (0 < b) 0 w) (recover (0 < b) 0 w') s.synchronize s'.synchronize :=
  { h with
    tokens := by simp only [ParserState.synchronize, h.openBlocks, h.tokens, hw]
    tokens' := by simp only [ParserState.synchronize, h.openBlocks', h.tokens', hw']
    window := forall₂_recover _ h.window 0 }

theorem synchronize_of_whole (h : Abreast F T b w w' s s') (hspan : F.span = .whole) :
    Abreast F T b (recover (0 < b) 0 w) (recover (0 < b) 0 w') s.synchronize s'.synchronize :=
  h.synchronize_of_append (by simp [hspan, Span.rest]) (by simp [hspan, Span.rest'])

theorem synchronize (h : Abreast F T b w w' s s') (hb : 0 < b)
    (hw : ∀ d rest rest', F.span = .stretch d rest rest' → d < b ∧ ClosedBy (b - d) w) :
    Abreast F T b (recover true 0 w) (recover true 0 w') s.synchronize s'.synchronize ∧
      ∀ d rest rest', F.span = .stretch d rest rest' →
        d < b ∧ ClosedBy (b - d) (recover true 0 w) := by
  have hin : decide (0 < b) = true := by simpa using hb
  cases hspan : F.span with
  | whole =>
    have hsync := h.synchronize_of_whole hspan
    rw [hin] at hsync
    exact ⟨hsync, fun d rest rest' hd => nomatch hd⟩
  | stretch d rest rest' =>
    obtain ⟨hd, hclosed⟩ := hw d rest rest' hspan
    have hclosed' := hclosed.of_map_kind_eq (Token.map_kind_eq h.window)
    obtain ⟨happend, hrest⟩ := hclosed.recover_append (n := 0) (Nat.sub_pos_of_lt hd) rest
    obtain ⟨happend', _⟩ := hclosed'.recover_append (n := 0) (Nat.sub_pos_of_lt hd) rest'
    have hsync := h.synchronize_of_append (by rwa [hin, hspan]) (by rwa [hin, hspan])
    rw [hin] at hsync
    refine ⟨hsync, fun e r r' he => ?_⟩
    obtain ⟨rfl, rfl, rfl⟩ := Span.stretch.inj he
    exact ⟨hd, hrest⟩

end ParserState.Abreast

end FrontEnd
