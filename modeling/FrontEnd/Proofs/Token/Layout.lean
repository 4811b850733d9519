import FrontEnd.Proofs.Token.Places
import FrontEnd.Token.Lookahead
import Mathlib.Algebra.Group.Nat.Defs
import Mathlib.Data.List.TakeWhile

/-! A source text is nothing but its tokens and the gaps between them, and every place is counted
off the text in front of it. -/

namespace FrontEnd

namespace Position

/-- The place behind the text `front`: its bytes, its newlines, and the characters behind the last
newline. -/
def behind (front : List Char) : Position where
  offset := (String.ofList front).utf8ByteSize
  line := front.count '\n'
  column := (front.reverse.takeWhile (· ≠ '\n')).length

theorem behind_nil : behind [] = origin := rfl

theorem after_behind (front : List Char) (c : Char) :
    (behind front).after c = behind (front ++ [c]) := by
  by_cases hc : c = '\n'
  · subst hc
    simp only [after, if_true, behind, String.ofList_append, String.utf8ByteSize_append]
    simp
    rfl
  · simp [after, behind, hc]

theorem afterAll_behind (front cs : List Char) :
    (behind front).afterAll cs = behind (front ++ cs) := by
  induction cs generalizing front with
  | nil => simp
  | cons c cs ih => rw [afterAll_cons, after_behind, ih, List.append_assoc, List.singleton_append]

end Position

/-- Text between lexemes, with `rest` behind it. A comment lasts until a newline or the end of the
text. -/
inductive Gap (rest : List Char) : List Char → Prop
  | nil : Gap rest []
  | blank {c : Char} {cs : List Char} (h : c ∈ [' ', '\t', '\r', '\n']) : Gap rest cs →
      Gap rest (c :: cs)
  | comment {text cs : List Char} (h : '\n' ∉ text) (hend : ∀ c ∈ (cs ++ rest).head?, c = '\n') :
      Gap rest cs → Gap rest ('#' :: (text ++ cs))

/-- Text that starts inside a comment when the flag is set. -/
def GapFrom (rest : List Char) : Bool → List Char → Prop
  | false, cs => Gap rest cs
  | true, cs => ∃ text gap, cs = text ++ gap ∧ '\n' ∉ text ∧
      (∀ c ∈ (gap ++ rest).head?, c = '\n') ∧ Gap rest gap

theorem gapFrom_splitTrivia (inComment : Bool) (cs : List Char) :
    GapFrom (splitTrivia inComment cs).2 inComment (splitTrivia inComment cs).1 := by
  induction cs generalizing inComment with
  | nil =>
    cases inComment with
    | true => exact ⟨[], [], rfl, List.not_mem_nil, by simp [splitTrivia], .nil⟩
    | false => exact .nil
  | cons c cs ih =>
    cases inComment with
    | true =>
      by_cases hc : c = '\n'
      · subst hc
        exact ⟨[], _, rfl, List.not_mem_nil, by simp, .blank (by simp) (ih false)⟩
      · obtain ⟨text, gap, hskipped, htext, hend, hgap⟩ := ih true
        have hne : (c != '\n') = true := by simp [hc]
        simp only [splitTrivia, hne]
        refine ⟨c :: text, gap, by rw [hskipped, List.cons_append], ?_, hend, hgap⟩
        exact List.not_mem_cons_of_ne_of_not_mem (Ne.symm hc) htext
    | false =>
      by_cases hc : c = '#'
      · obtain ⟨text, gap, hskipped, htext, hend, hgap⟩ := ih true
        simp only [splitTrivia, hc, decide_true, Bool.or_true, if_true, hskipped]
        exact .comment htext hend hgap
      · by_cases hb : isBlankBetween c = true
        · have hblank : c ∈ [' ', '\t', '\r', '\n'] := by
            simpa [isBlankBetween, or_assoc] using hb
          simp only [splitTrivia, hc, hb, decide_false, Bool.or_false, if_true]
          exact .blank hblank (ih false)
        · simp only [splitTrivia, hc, hb, decide_false, Bool.or_self, Bool.false_eq_true, if_false]
          exact .nil

/-- How a lexeme is spelled, with `rest` behind it. -/
inductive Spelling : TokenKind → Payload → List Char → List Char → Prop
  | fixed {k : TokenKind} {rest : List Char} (h : k ∈ TokenKind.symbols ∨ k ∈ TokenKind.words) :
      Spelling k .none k.spelling.toList rest
  | name {c : Char} {cs rest : List Char} (hc : Lexeme.isWordStart c = true)
      (hcs : ∀ d ∈ cs, Lexeme.isWordPart d = true)
      (h : ∀ k ∈ TokenKind.words, k.spelling ≠ String.ofList (c :: cs)) :
      Spelling .identifier (.text (String.ofList (c :: cs))) (c :: cs) rest
  | string {cs rest : List Char} (h : '"' ∉ cs) :
      Spelling .string (.text (String.ofList cs)) ('"' :: (cs ++ ['"'])) rest
  | number {ds rest : List Char} (hne : ds ≠ []) (hds : ∀ d ∈ ds, d.isDigit = true)
      (h : Lexeme.decimal ds < 2 ^ 63) :
      Spelling .number (.int (Lexeme.decimal ds)) ds rest
  | tooLarge {ds rest : List Char} (hne : ds ≠ []) (hds : ∀ d ∈ ds, d.isDigit = true)
      (h : 2 ^ 63 ≤ Lexeme.decimal ds) :
      Spelling .invalid (.fault (.numberTooLarge (String.ofList ds))) ds rest
  | unterminated {cs : List Char} (h : '"' ∉ cs) :
      Spelling .invalid (.fault .unterminatedString) ('"' :: cs) []
  | unrecognised {c : Char} {rest : List Char} :
      Spelling .invalid (.fault (.unrecognised (String.singleton c))) [c] rest

namespace Spelling

theorem text_ne_nil {k : TokenKind} {p : Payload} {text rest : List Char}
    (h : Spelling k p text rest) : text ≠ [] := by
  cases h with
  | fixed _ => exact Lexeme.spelling_ne_nil k
  | number hne _ _ | tooLarge hne _ _ => exact hne
  | _ => exact List.cons_ne_nil _ _

theorem kind_ne_eof {k : TokenKind} {p : Payload} {text rest : List Char}
    (h : Spelling k p text rest) : k ≠ .eof := by
  cases h with
  | fixed h =>
    rintro rfl
    exact absurd h (by decide)
  | _ => exact TokenKind.noConfusion

theorem of_digits {ds rest : List Char} (hne : ds ≠ []) (hds : ∀ d ∈ ds, d.isDigit = true) :
    Spelling (Lexeme.ofDigits ds).kind (Lexeme.ofDigits ds).payload ds rest := by
  unfold Lexeme.ofDigits
  split
  next h => exact .number hne hds h
  next h => exact .tooLarge hne hds (Nat.le_of_not_lt h)

theorem of_word {c : Char} {cs rest : List Char} (hc : Lexeme.isWordStart c = true)
    (hcs : ∀ d ∈ cs, Lexeme.isWordPart d = true) :
    Spelling (Lexeme.ofWord (c :: cs)).kind (Lexeme.ofWord (c :: cs)).payload (c :: cs) rest := by
  unfold Lexeme.ofWord
  split
  next k hk =>
    obtain ⟨hmem, hspelling⟩ := TokenKind.mem_words_of_reserved? hk
    have htext : k.spelling.toList = c :: cs := by rw [hspelling, String.toList_ofList]
    have hfixed : Spelling k .none k.spelling.toList rest := .fixed (.inr hmem)
    rwa [htext] at hfixed
  next hk =>
    refine .name hc hcs fun k hmem hspelling => ?_
    rw [← hspelling, TokenKind.reserved?_spelling hmem] at hk
    exact nomatch hk

theorem of_quote (cs : List Char) :
    ∃ rest, (Lexeme.ofQuote cs).text ++ rest = '"' :: cs ∧
      Spelling (Lexeme.ofQuote cs).kind (Lexeme.ofQuote cs).payload (Lexeme.ofQuote cs).text
        rest := by
  have hsplit : cs.takeWhile (· != '"') ++ cs.dropWhile (· != '"') = cs :=
    List.takeWhile_append_dropWhile
  have hcontent : '"' ∉ cs.takeWhile (· != '"') := by
    intro h
    simpa using List.mem_takeWhile_imp h
  unfold Lexeme.ofQuote
  dsimp only
  cases hdrop : cs.dropWhile (· != '"') with
  | nil =>
    rw [hdrop, List.append_nil] at hsplit
    exact ⟨[], List.append_nil _, .unterminated (hsplit ▸ hcontent)⟩
  | cons c rest =>
    have hc : c = '"' := by
      have hhead := List.head?_dropWhile_not (· != '"') cs
      rw [hdrop] at hhead
      simpa using hhead
    rw [hdrop, hc] at hsplit
    refine ⟨rest, ?_, .string hcontent⟩
    show '"' :: (cs.takeWhile (· != '"') ++ ['"']) ++ rest = '"' :: cs
    rw [List.cons_append, List.append_assoc, List.singleton_append, hsplit]

theorem of_atHead (c : Char) (cs : List Char) :
    ∃ rest, (Lexeme.atHead c cs).text ++ rest = c :: cs ∧
      Spelling (Lexeme.atHead c cs).kind (Lexeme.atHead c cs).payload (Lexeme.atHead c cs).text
        rest := by
  unfold Lexeme.atHead
  split
  next k hk =>
    have hprefix : k.spelling.toList <+: c :: cs := by simpa using List.find?_some hk
    obtain ⟨rest, hrest⟩ := hprefix
    exact ⟨rest, hrest, .fixed (.inl (List.mem_of_find?_eq_some hk))⟩
  next =>
    by_cases hdigit : c.isDigit = true
    · rw [if_pos hdigit]
      refine ⟨(c :: cs).dropWhile Char.isDigit, ?_, ?_⟩
      · rw [Lexeme.text_ofDigits, List.takeWhile_append_dropWhile]
      · rw [Lexeme.text_ofDigits]
        exact of_digits (by simp [hdigit]) fun d hd => List.mem_takeWhile_imp hd
    · rw [if_neg hdigit]
      by_cases hquote : c = '"'
      · rw [if_pos hquote, hquote]
        exact of_quote cs
      · rw [if_neg hquote]
        by_cases hword : Lexeme.isWordStart c = true
        · have hpart := Lexeme.isWordPart_of_isWordStart hword
          rw [if_pos hword]
          refine ⟨(c :: cs).dropWhile Lexeme.isWordPart, ?_, ?_⟩
          · rw [Lexeme.text_ofWord, List.takeWhile_append_dropWhile]
          · rw [Lexeme.text_ofWord, List.takeWhile_cons_of_pos hpart]
            exact of_word hword fun d hd => List.mem_takeWhile_imp hd
        · rw [if_neg hword]
          exact ⟨cs, rfl, .unrecognised⟩

end Spelling

/-- Behind `front` the rest of a source is made of gaps and the tokens of the list, and closed by
the token that marks its end. -/
inductive Layout : List Char → List Char → List Token → Prop
  | finish {front gap : List Char} : Gap [] gap →
      Layout front gap [.endAt (.behind (front ++ gap))]
  | token {front gap text rest : List Char} {t : Token} {ts : List Token} :
      Gap (text ++ rest) gap → Spelling t.kind t.payload text rest → text ≠ [] →
      t.place = .behind (front ++ gap) → Layout (front ++ (gap ++ text)) rest ts →
      Layout front (gap ++ (text ++ rest)) (t :: ts)

theorem scan_cases (front cs : List Char) :
    (∃ gap, cs = gap ∧ Gap [] gap ∧ scan (.behind front) cs =
      ⟨.endAt (.behind (front ++ gap)), .behind (front ++ gap), []⟩) ∨
    ∃ gap text rest k p, cs = gap ++ (text ++ rest) ∧ Gap (text ++ rest) gap ∧
      Spelling k p text rest ∧ scan (.behind front) cs =
        ⟨⟨k, p, .behind (front ++ gap)⟩, .behind (front ++ (gap ++ text)), rest⟩ := by
  have happend := splitTrivia_append false cs
  have hgap : Gap (splitTrivia false cs).2 (splitTrivia false cs).1 := gapFrom_splitTrivia false cs
  unfold scan
  generalize splitTrivia false cs = trivia at happend hgap
  obtain ⟨gap, rest⟩ := trivia
  subst happend
  dsimp only at hgap ⊢
  cases rest with
  | nil =>
    exact .inl ⟨gap, List.append_nil _, hgap, by simp [Lexeme.first?, Position.afterAll_behind]⟩
  | cons c rest =>
    obtain ⟨rest', htext, hspelling⟩ := Spelling.of_atHead c rest
    refine .inr ⟨gap, _, rest', _, _, by rw [htext], by rwa [htext], hspelling, ?_⟩
    simp only [Lexeme.first?, Position.afterAll_behind, List.append_assoc]
    rw [← htext, List.drop_left]

theorem layout_tokensFrom (front cs : List Char) :
    Layout front cs (tokensFrom (.behind front) cs) := by
  generalize hn : cs.length = n
  induction n using Nat.strongRecOn generalizing front cs with
  | ind n ih =>
    rw [tokensFrom]
    rcases scan_cases front cs with ⟨gap, rfl, hgap, hscan⟩ |
      ⟨gap, text, rest, k, p, rfl, hgap, hspelling, hscan⟩
    · simp only [hscan, Token.kind_endAt, dif_pos]
      exact .finish hgap
    · have hk := hspelling.kind_ne_eof
      have htext := hspelling.text_ne_nil
      have hlength := List.length_pos_iff.mpr htext
      simp only [hscan, hk, dif_neg, not_false_eq_true]
      refine .token hgap hspelling htext rfl (ih rest.length ?_ _ _ rfl)
      simp only [← hn, List.length_append]
      omega

/-- The readers that come up when the tokens of a source are read on demand. -/
inductive Lookahead.Reached (source : String) : Lookahead → Prop
  | start : Reached source (.ofSource source)
  | advance {l : Lookahead} : Reached source l → Reached source l.advance
  | advanceIf {l : Lookahead} (k : TokenKind) : Reached source l →
      Reached source (l.advanceIf k).2
  | skipBytes {l l' : Lookahead} {n : Nat} : Reached source l → l.skipBytes? n = some l' →
      Reached source l'

/-- A place between two characters of a source, counted off the text in front of it. -/
def Position.IsIn (source : String) (p : Position) : Prop :=
  ∃ front rest, front ++ rest = source.toList ∧ p = .behind front

theorem splitBytes?_append (cs rest : List Char) :
    splitBytes? (String.ofList cs).utf8ByteSize (cs ++ rest) = some (cs, rest) := by
  induction cs with
  | nil => cases rest <;> rfl
  | cons c cs ih =>
    have hsize : (String.ofList (c :: cs)).utf8ByteSize =
        (c.utf8Size - 1 + (String.ofList cs).utf8ByteSize) + 1 := by
      have hpos := Char.utf8Size_pos c
      rw [String.ofList_cons, String.utf8ByteSize_append, String.utf8ByteSize_singleton]
      omega
    have hpos := Char.utf8Size_pos c
    have hrest : c.utf8Size - 1 + (String.ofList cs).utf8ByteSize + 1 - c.utf8Size =
        (String.ofList cs).utf8ByteSize := by omega
    rw [hsize, List.cons_append, splitBytes?, if_pos (by omega), hrest, ih]
    rfl

theorem append_of_splitBytes? {n : Nat} {cs front rest : List Char}
    (h : splitBytes? n cs = some (front, rest)) : front ++ rest = cs := by
  induction cs generalizing n front with
  | nil =>
    cases n with
    | zero =>
      obtain ⟨rfl, rfl⟩ := Prod.mk.inj (Option.some.inj h)
      rfl
    | succ n => exact nomatch h
  | cons c cs ih =>
    cases n with
    | zero =>
      obtain ⟨rfl, rfl⟩ := Prod.mk.inj (Option.some.inj h)
      rfl
    | succ n =>
      rw [splitBytes?] at h
      split at h
      · obtain ⟨⟨front', rest'⟩, hsplit, heq⟩ := Option.map_eq_some_iff.mp h
        obtain ⟨rfl, rfl⟩ := Prod.mk.inj heq
        rw [List.cons_append, ih hsplit]
      · exact nomatch h

namespace Lookahead

/-- The reader stands behind `front`, and so did it before each of its tokens. -/
structure StandsBehind (source : String) (front : List Char) (l : Lookahead) : Prop where
  split : front ++ l.rest = source.toList
  place : l.place = .behind front
  peeked : l.peeked.place.IsIn source
  previous : l.previous.place.IsIn source

theorem standsBehind_scan {source : String} {front cs : List Char} {t : Token}
    (hsplit : front ++ cs = source.toList) (ht : t.place.IsIn source) :
    ∃ front', StandsBehind source front'
      ⟨(scan (.behind front) cs).token, t, (scan (.behind front) cs).place,
        (scan (.behind front) cs).rest⟩ := by
  rcases scan_cases front cs with ⟨gap, rfl, _, hscan⟩ | ⟨gap, text, rest, k, p, rfl, _, _, hscan⟩
  · rw [hscan]
    have hwhole := (List.append_nil (front ++ cs)).trans hsplit
    exact ⟨_, hwhole, rfl, ⟨_, [], hwhole, rfl⟩, ht⟩
  · rw [hscan]
    have hfront : (front ++ (gap ++ text)) ++ rest = source.toList := by simpa using hsplit
    have hplace : (front ++ gap) ++ (text ++ rest) = source.toList := by simpa using hsplit
    exact ⟨_, hfront, rfl, ⟨_, _, hplace, rfl⟩, ht⟩

theorem StandsBehind.advance {source : String} {front : List Char} {l : Lookahead}
    (h : l.StandsBehind source front) : ∃ front', l.advance.StandsBehind source front' := by
  unfold Lookahead.advance
  rw [h.place]
  exact standsBehind_scan h.split h.peeked

theorem Reached.standsBehind {source : String} {l : Lookahead} (h : Reached source l) :
    ∃ front, l.StandsBehind source front := by
  induction h with
  | start => exact standsBehind_scan (List.nil_append _) ⟨[], _, rfl, rfl⟩
  | advance _ ih =>
    obtain ⟨front, h⟩ := ih
    exact h.advance
  | @advanceIf l k _ ih =>
    obtain ⟨front, h⟩ := ih
    unfold Lookahead.advanceIf
    split
    · exact h.advance
    · exact ⟨front, h⟩
  | @skipBytes l _ _ _ hskip ih =>
    obtain ⟨front, h⟩ := ih
    obtain ⟨⟨skipped, rest⟩, hsplit, rfl⟩ := Option.map_eq_some_iff.mp hskip
    refine ⟨front ++ skipped, ?_, ?_, h.peeked, h.previous⟩
    · rw [List.append_assoc, append_of_splitBytes? hsplit, h.split]
    · show l.place.afterAll skipped = _
      rw [h.place, Position.afterAll_behind]

theorem StandsBehind.skipBytes?_eq {source : String} {front skipped rest : List Char}
    {l : Lookahead} (h : l.StandsBehind source front) (hrest : l.rest = skipped ++ rest) :
    l.skipBytes? (String.ofList skipped).utf8ByteSize =
      some { l with place := .behind (front ++ skipped), rest := rest } := by
  rw [skipBytes?, hrest, splitBytes?_append, h.place]
  simp [Position.afterAll_behind]

end Lookahead

namespace Layout

variable {front cs : List Char} {ts : List Token}

theorem eq_append_endAt (h : Layout front cs ts) :
    ∃ us, ts = us ++ [.endAt (.behind (front ++ cs))] ∧ ∀ t ∈ us, t.kind ≠ .eof := by
  induction h with
  | finish _ => exact ⟨[], rfl, fun t ht => nomatch ht⟩
  | @token front gap text rest t ts _ hspelling _ _ _ ih =>
    obtain ⟨us, hus, hne⟩ := ih
    refine ⟨t :: us, by simp [hus], List.forall_mem_cons.mpr ⟨hspelling.kind_ne_eof, hne⟩⟩

theorem exists_behind_of_mem (h : Layout front cs ts) {t : Token} (ht : t ∈ ts) :
    ∃ front' rest, front' ++ rest = front ++ cs ∧ t.place = .behind front' := by
  induction h with
  | @finish front gap _ =>
    obtain rfl := List.eq_of_mem_singleton ht
    exact ⟨front ++ gap, [], List.append_nil _, rfl⟩
  | @token front gap text rest u ts _ _ _ hplace _ ih =>
    rcases List.mem_cons.mp ht with rfl | ht
    · exact ⟨front ++ gap, text ++ rest, List.append_assoc _ _ _, hplace⟩
    · simpa using ih ht

end Layout

/-- The tokens and the gaps between them make up the source, its end is marked once, and every
place that is handed out, with a list or on demand, is counted off the text in front of it. -/
theorem layout_tokenize (source : String) :
    Layout [] source.toList (tokenize source) ∧
    (∃ ts, tokenize source = ts ++ [.endAt (.behind source.toList)] ∧ ∀ t ∈ ts, t.kind ≠ .eof) ∧
    (Position.behind source.toList).offset = source.utf8ByteSize ∧
    (tokenize source).Pairwise (fun t u => t.place.offset < u.place.offset) ∧
    (∀ t ∈ tokenize source, t.place.IsIn source) ∧
    ∀ l, Lookahead.Reached source l → ∃ front, l.StandsBehind source front ∧
      ∀ skipped rest, l.rest = skipped ++ rest →
        l.skipBytes? (String.ofList skipped).utf8ByteSize =
          some { l with place := .behind (front ++ skipped), rest := rest } := by
  have hlayout : Layout [] source.toList (tokenize source) := layout_tokensFrom [] source.toList
  have hend := hlayout.eq_append_endAt
  rw [List.nil_append] at hend
  refine ⟨hlayout, hend, ?_, pairwise_offset_tokensFrom _ _, fun t ht => ?_, fun l hl => ?_⟩
  · show (String.ofList source.toList).utf8ByteSize = source.utf8ByteSize
    rw [String.ofList_toList]
  · exact hlayout.exists_behind_of_mem ht
  · obtain ⟨front, hfront⟩ := hl.standsBehind
    exact ⟨front, hfront, fun skipped rest hrest => hfront.skipBytes?_eq hrest⟩

theorem standsBehind_of_skipped_newline :
    ∃ l, (Lookahead.ofSource "a;\n# é\n\"s\"").skipBytes? 2 = some l ∧
      l.place = ⟨3, 1, 0⟩ ∧ l.advance.previous = ⟨.identifier, .text "a", ⟨0, 0, 0⟩⟩ ∧
      l.advance.peeked = ⟨.string, .text "s", ⟨8, 2, 0⟩⟩ ∧
      ∃ front, l.advance.StandsBehind "a;\n# é\n\"s\"" front := by
  obtain ⟨l, hskip, hplace, hprevious, hpeeked⟩ :
      ∃ l, (Lookahead.ofSource "a;\n# é\n\"s\"").skipBytes? 2 = some l ∧ l.place = ⟨3, 1, 0⟩ ∧
        l.advance.previous = ⟨.identifier, .text "a", ⟨0, 0, 0⟩⟩ ∧
        l.advance.peeked = ⟨.string, .text "s", ⟨8, 2, 0⟩⟩ :=
    ⟨_, rfl, by decide +kernel⟩
  obtain ⟨front, hfront, _⟩ := (layout_tokenize "a;\n# é\n\"s\"").2.2.2.2.2 l.advance
    (.advance (.skipBytes .start hskip))
  exact ⟨l, hskip, hplace, hprevious, hpeeked, front, hfront⟩

end FrontEnd
