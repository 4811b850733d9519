import FrontEnd.Proofs.Grammar.Rereading
import FrontEnd.Proofs.Types.Unfolding
import FrontEnd.Syntax.Outline

/-! What single lines of an outline tell. A line begins with one of a few headings, none of which
another one begins with. What stands behind a heading, be it a token, names or a type, shows itself
where it ends. -/

namespace FrontEnd

/-- What a line begins with, and the labels that may stand where another line may be missing. -/
inductive Heading where
  | leaf (form : LeafForm)
  | binary (form : BinaryForm)
  | unary | call | block | conditional
  | result (form : ResultForm)
  | evaluated | assigned | var | fn | signature | initial | body
deriving DecidableEq

namespace Heading

def words : Heading → String
  | leaf .literal => "Literal expression: "
  | leaf .access => "Var access: "
  | binary form => form.title
  | unary => "Unary expression: "
  | call => "Function call"
  | block => "Block expression"
  | conditional => "If"
  | result form => form.title
  | evaluated => "Expression statement"
  | assigned => "Assignment"
  | var => "Variable declaration: "
  | fn => "Function declaration: "
  | signature => "Signature: "
  | initial => "Initializer:"
  | body => "Body:"

def all : List Heading :=
  [leaf .literal, leaf .access, binary .comparison, binary .arithmetic, unary, call, block,
    conditional, result .fromFunction, result .fromBlock, evaluated, assigned, var, fn, signature,
    initial, body]

theorem mem_all (h : Heading) : h ∈ all := by
  cases h with
  | leaf form | binary form | result form => cases form <;> simp [all]
  | _ => simp [all]

theorem eq_of_begins {h h' : Heading} (hp : h.words.toList <+: h'.words.toList) : h = h' := by
  have hall : ∀ h ∈ all, ∀ h' ∈ all, h.words.toList <+: h'.words.toList → h = h' := by
    decide +kernel
  exact hall h h.mem_all h' h'.mem_all hp

theorem append_inj {h h' : Heading} {cs cs' : List Char}
    (he : h.words.toList ++ cs = h'.words.toList ++ cs') : h = h' ∧ cs = cs' := by
  have heq : h = h' := by
    rcases List.prefix_or_prefix_of_prefix (List.prefix_append h.words.toList cs)
      (he ▸ List.prefix_append h'.words.toList cs') with hp | hp
    · exact eq_of_begins hp
    · exact (eq_of_begins hp).symm
  subst heq
  exact ⟨rfl, List.append_cancel_left he⟩

end Heading

/-- Where the lines `t` and `t'` are written in front of other text, `Q` holds if all the text is
the same, and then the text behind the lines is the same too. -/
def LineTells (t t' : String) (Q : Prop) : Prop :=
  ∀ cs cs', t.toList ++ '\n' :: cs = t'.toList ++ '\n' :: cs' → Q ∧ cs = cs'

theorem lineTells_self (t : String) : LineTells t t True :=
  fun _ _ h => ⟨trivial, (List.cons.inj (List.append_cancel_left h)).2⟩

theorem LineTells.behind {t t' : String} {Q : Prop} (h : LineTells t t' Q) (w : String) :
    LineTells (w ++ t) (w ++ t') Q := by
  intro cs cs' he
  simp only [String.toList_append, List.append_assoc] at he
  exact h cs cs' (List.append_cancel_left he)

namespace Token

variable {t t' : Token} {ps ps' : List Token}

/-- The token is read again where it is shown. -/
def IsLegible (t : Token) : Prop := Lexes t.shown.toList [t.letter]

theorem IsLegible.exists_tokensFrom (h : t.IsLegible) {b : Char} (hb : Lexeme.IsBreak b)
    (cs : List Char) : ∃ u us, u.letter = t.letter ∧
      tokensFrom .origin (t.shown.toList ++ b :: cs) = u :: us := by
  obtain ⟨ts, q, hts, htokens⟩ := h .origin b cs hb
  obtain ⟨u, rfl, hu⟩ := List.map_eq_singleton_iff.mp hts
  exact ⟨u, _, hu, htokens⟩

/-- A blank or a newline ends the text of a token, except inside of a string. -/
theorem IsLegible.append_inj (h : t.IsLegible) (h' : t'.IsLegible) {b b' : Char}
    (hb : Lexeme.IsBreak b) (hb' : Lexeme.IsBreak b') {cs cs' : List Char}
    (he : t.shown.toList ++ b :: cs = t'.shown.toList ++ b' :: cs') :
    t.Like (fun _ _ => True) t' ∧ b :: cs = b' :: cs' := by
  obtain ⟨u, us, hu, htokens⟩ := h.exists_tokensFrom hb cs
  obtain ⟨u', us', hu', htokens'⟩ := h'.exists_tokensFrom hb' cs'
  have hsame : u = u' := (List.cons.inj (htokens.symm.trans (he ▸ htokens'))).1
  have hlike := like_of_letter (hu'.symm.trans (hsame ▸ hu))
  rw [hlike.shown] at he
  exact ⟨hlike, List.append_cancel_left he⟩

theorem IsName.shown_eq (h : t.IsName) : t.shown = t.text := by
  simp [Token.shown, h.payload, h.kind]

theorem IsName.isLegible (h : t.IsName) : t.IsLegible := Word.Legible.name (T := .initial) h

theorem lineTells_name (h : t.IsName) (h' : t'.IsName) :
    LineTells t.text t'.text (t.Like (fun _ _ => True) t') := by
  intro cs cs' he
  rw [← h.shown_eq, ← h'.shown_eq] at he
  obtain ⟨hlike, hrest⟩ := h.isLegible.append_inj h'.isLegible (by decide) (by decide) he
  exact ⟨hlike, (List.cons.inj hrest).2⟩

def listed (ps : List Token) : String := String.join (ps.map fun p => " " ++ p.text)

theorem toList_listed_cons (p : Token) (ps : List Token) :
    (listed (p :: ps)).toList = ' ' :: (p.text.toList ++ (listed ps).toList) := by
  simp [listed, String.join_cons, String.toList_append]

theorem exists_break_of_listed (ps : List Token) (cs : List Char) :
    ∃ b cs', (listed ps).toList ++ '\n' :: cs = b :: cs' ∧ Lexeme.IsBreak b := by
  cases ps with
  | nil => exact ⟨'\n', cs, rfl, by decide⟩
  | cons p ps => exact ⟨' ', _, by rw [toList_listed_cons, List.cons_append], by decide⟩

theorem lineTells_listed (h : ∀ p ∈ ps, p.IsName) (h' : ∀ p ∈ ps', p.IsName) :
    LineTells (listed ps) (listed ps') (List.Forall₂ (Token.Like fun _ _ => True) ps ps') := by
  intro cs cs' he
  induction ps generalizing ps' with
  | nil =>
    cases ps' with
    | nil => exact ⟨.nil, (List.cons.inj he).2⟩
    | cons p' ps' =>
      rw [toList_listed_cons] at he
      exact absurd (List.cons.inj he).1 (by decide)
  | cons p ps ih =>
    cases ps' with
    | nil =>
      rw [toList_listed_cons] at he
      exact absurd (List.cons.inj he).1 (by decide)
    | cons p' ps' =>
      rw [List.forall_mem_cons] at h h'
      obtain ⟨b, ds, hds, hb⟩ := exists_break_of_listed ps cs
      obtain ⟨b', ds', hds', hb'⟩ := exists_break_of_listed ps' cs'
      rw [toList_listed_cons, toList_listed_cons, List.cons_append, List.cons_append,
        List.append_assoc, List.append_assoc, hds, hds', ← h.1.shown_eq, ← h'.1.shown_eq] at he
      obtain ⟨hp, hrest⟩ := h.1.isLegible.append_inj h'.1.isLegible hb hb' (List.cons.inj he).2
      rw [← hds, ← hds'] at hrest
      obtain ⟨hps, hcs⟩ := ih h.2 h'.2 hrest
      exact ⟨.cons hp hps, hcs⟩

end Token

namespace TypeTable

variable {T T' : TypeTable} {t t' : TypeId} {g g' : Option TypeId} {cs cs' : List Char}

def suffix (T : TypeTable) : Option TypeId → String
  | none => ""
  | some t => " :: " ++ T.shown t

theorem exists_break_of_suffix (T : TypeTable) (g : Option TypeId) (cs : List Char) :
    ∃ b cs', (T.suffix g).toList ++ '\n' :: cs = b :: cs' ∧ Lexeme.IsBreak b := by
  cases g with
  | none => exact ⟨'\n', cs, rfl, by decide⟩
  | some t => exact ⟨' ', _, by rw [suffix, String.toList_append]; rfl, by decide⟩

variable (hT : T.Reachable) (hT' : T'.Reachable)
include hT hT'

theorem shown_append_inj (ht : T.Holds t) (ht' : T'.Holds t')
    (he : (T.shown t).toList ++ cs = (T'.shown t').toList ++ cs') :
    T.Matches T' t t' ∧ cs = cs' := by
  obtain ⟨x, hx⟩ := hT.exists_unfolds ht
  obtain ⟨y, hy⟩ := hT'.exists_unfolds ht'
  rw [hx.shown_eq hT, hy.shown_eq hT'] at he
  obtain ⟨rfl, hcs⟩ := x.append_inj y he
  exact ⟨hx.matches hT hy, hcs⟩

theorem lineTells_shown (ht : T.Holds t) (ht' : T'.Holds t') :
    LineTells (T.shown t) (T'.shown t') (T.Matches T' t t') := by
  intro cs cs' he
  obtain ⟨hmatches, hcs⟩ := shown_append_inj hT hT' ht ht' he
  exact ⟨hmatches, (List.cons.inj hcs).2⟩

theorem lineTells_suffix (hg : ∀ t ∈ g, T.Holds t) (hg' : ∀ t ∈ g', T'.Holds t) :
    LineTells (T.suffix g) (T'.suffix g') (Option.Rel (T.Matches T') g g') := by
  intro cs cs' he
  cases g with
  | none =>
    cases g' with
    | none => exact ⟨.none, (List.cons.inj he).2⟩
    | some t' =>
      rw [suffix, suffix, String.toList_append] at he
      exact absurd (List.cons.inj he).1 (by decide)
  | some t =>
    cases g' with
    | none =>
      rw [suffix, suffix, String.toList_append] at he
      exact absurd (List.cons.inj he).1 (by decide)
    | some t' =>
      have hline := (lineTells_shown hT hT' (hg t rfl) (hg' t' rfl)).behind " :: "
      exact (hline cs cs' he).imp_left .some

end TypeTable

end FrontEnd
