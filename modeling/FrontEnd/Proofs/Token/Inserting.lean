import Mathlib
import FrontEnd.Proofs.Token.Respelling

/-! Text put in before a word. What stands in front of the word is read as before, then the text is
read, and then the word and all behind it. -/

namespace FrontEnd

namespace Lexeme

variable {b c : Char} {cs : List Char}

/-- Whatever word follows the text `c :: cs`, the lexeme at the head ends before it. -/
def EndsIn (c : Char) (cs : List Char) : Prop :=
  (c = '"' → '"' ∈ cs) ∧ (isWordStart c = true → ∃ d ∈ cs, isWordPart d = false)

theorem ne_of_isWordStart (hb : isWordStart b = true) : b ≠ '=' ∧ b ≠ '>' := by
  constructor <;> rintro rfl <;> exact absurd hb (by decide)

/-- A lexeme that ends before a word does not depend on the word. -/
theorem atHead_append_of_endsIn (hb : isWordStart b = true) (h : EndsIn c cs) (ds : List Char) :
    atHead c (cs ++ b :: ds) = atHead c cs := by
  by_cases hword : isWordStart c = true
  · obtain ⟨d, hd, hpart⟩ := h.2 hword
    have hclosed : (c :: cs).dropWhile isWordPart ≠ [] := by
      intro hnil
      have hall := List.dropWhile_eq_nil_iff.mp hnil d (List.mem_cons_of_mem c hd)
      exact Bool.false_ne_true (hpart.symm.trans hall)
    obtain ⟨htake, -⟩ := span_append hclosed (b :: ds)
    rw [atHead_of_isWordStart hword, atHead_of_isWordStart hword, ← List.cons_append, htake]
  · by_cases hquote : c = '"'
    · subst hquote
      have hclosed : cs.dropWhile (· != '"') ≠ [] := by
        intro hnil
        have hall := List.dropWhile_eq_nil_iff.mp hnil '"' (h.1 rfl)
        exact absurd hall (by decide)
      obtain ⟨htake, hdrop⟩ := span_append hclosed (b :: ds)
      obtain ⟨d, rest, hrest⟩ := List.exists_cons_of_ne_nil hclosed
      rw [atHead_quote, atHead_quote]
      simp only [ofQuote, htake, hdrop, hrest, List.cons_append]
    · unfold atHead
      rw [symbol?_append (ne_of_isWordStart hb), ← List.cons_append,
        takeWhile_append_cons (not_isDigit_of_isWordStart hb)]
      simp only [hquote, hword, if_false, Bool.false_eq_true]

theorem endsIn_of_length_le (hb : isWordStart b = true) {ds : List Char}
    (h : (atHead c (cs ++ b :: ds)).text.length ≤ cs.length + 1) : EndsIn c cs := by
  refine ⟨?_, fun hword => ?_⟩
  · rintro rfl
    by_contra hopen
    have hcs : ∀ d ∈ cs, (d != '"') = true := by
      intro d hd
      simp only [bne_iff_ne, ne_eq]
      rintro rfl
      exact hopen hd
    have hb' : (b != '"') = true := by
      simp only [bne_iff_ne, ne_eq]
      rintro rfl
      exact absurd hb (by decide)
    have htake : (cs ++ b :: ds).takeWhile (· != '"') =
        cs ++ b :: ds.takeWhile (· != '"') := by
      rw [List.takeWhile_append_of_pos hcs, List.takeWhile_cons, if_pos hb']
    simp only [atHead_quote, ofQuote, htake] at h
    split at h <;> simp at h
  · by_contra hopen
    have hcs : ∀ d ∈ c :: cs, isWordPart d = true := by
      refine List.forall_mem_cons.mpr ⟨isWordPart_of_isWordStart hword, fun d hd => ?_⟩
      by_contra hpart
      exact hopen ⟨d, hd, Bool.eq_false_iff.mpr hpart⟩
    rw [atHead_of_isWordStart hword, text_ofWord, ← List.cons_append,
      List.takeWhile_append_of_pos hcs,
      List.takeWhile_cons_of_pos (isWordPart_of_isWordStart hb)] at h
    simp at h

end Lexeme

open Lexeme

variable {a b c : Char} {cs ds : List Char} {p : Position} {t : Token}

theorem splitTrivia_word (hb : isWordStart b = true) (ds : List Char) :
    splitTrivia false (b :: ds) = ([], b :: ds) := by
  have hskip : (isBlankBetween b || decide (b = '#')) = false := by
    rw [Bool.eq_false_iff]
    simp only [isBlankBetween, Bool.or_eq_true, decide_eq_true_eq, ne_eq]
    rintro ((((rfl | rfl) | rfl) | rfl) | rfl) <;> exact absurd hb (by decide)
  simp only [splitTrivia, hskip, Bool.false_eq_true, if_false]

/-- If only gaps stand in front of a word, either the word is skipped as part of a comment, or it is
where the next lexeme begins. -/
theorem splitTrivia_of_nil_word {inComment : Bool} (h : (splitTrivia inComment cs).2 = []) :
    (∀ b ds, isWordStart b = true → splitTrivia inComment (cs ++ b :: ds) = (cs, b :: ds)) ∨
      ∀ b ds, isWordStart b = true →
        ∃ skipped, (splitTrivia inComment (cs ++ b :: ds)).1 = cs ++ b :: skipped := by
  induction cs generalizing inComment with
  | nil =>
    cases inComment with
    | true => exact .inr fun b ds _ => ⟨_, rfl⟩
    | false => exact .inl fun b ds hb => splitTrivia_word hb ds
  | cons c cs ih =>
    have hstep : ∃ flag, (splitTrivia flag cs).2 = [] ∧ ∀ ds, splitTrivia inComment (c :: ds) =
        (c :: (splitTrivia flag ds).1, (splitTrivia flag ds).2) := by
      cases inComment with
      | true => exact ⟨c != '\n', h, fun ds => rfl⟩
      | false =>
        by_cases hskip : (isBlankBetween c || decide (c = '#')) = true
        · simp only [splitTrivia, hskip, if_true] at h
          exact ⟨decide (c = '#'), h, fun ds => by simp only [splitTrivia, hskip, if_true]⟩
        · simp only [splitTrivia, hskip, if_false, Bool.false_eq_true] at h
          exact absurd h (List.cons_ne_nil c cs)
    obtain ⟨flag, hnil, hcons⟩ := hstep
    rcases ih hnil with hword | hword
    · exact .inl fun b ds hb => by rw [List.cons_append, hcons, hword b ds hb]
    · refine .inr fun b ds hb => ?_
      obtain ⟨skipped, hskipped⟩ := hword b ds hb
      exact ⟨skipped, by rw [List.cons_append, hcons, hskipped, List.cons_append]⟩

theorem place_scan (p : Position) (cs : List Char) :
    (scan p cs).token.place = p.afterAll (splitTrivia false cs).1 := by
  unfold scan
  generalize splitTrivia false cs = trivia
  obtain ⟨skipped, rest⟩ := trivia
  cases rest <;> rfl

theorem tokensFrom_of_eof (h : (scan p cs).token.kind = .eof) :
    tokensFrom p cs = [(scan p cs).token] := by
  rw [tokensFrom, dif_pos h]

theorem tokensFrom_of_ne_eof (h : (scan p cs).token.kind ≠ .eof) :
    tokensFrom p cs = (scan p cs).token :: tokensFrom (scan p cs).place (scan p cs).rest := by
  rw [tokensFrom, dif_neg h]

theorem exists_tokensFrom_eq_cons (p : Position) (cs : List Char) :
    ∃ ts, tokensFrom p cs = (scan p cs).token :: ts := by
  by_cases hk : (scan p cs).token.kind = .eof
  · exact ⟨_, tokensFrom_of_eof hk⟩
  · exact ⟨_, tokensFrom_of_ne_eof hk⟩

theorem eq_of_mem_tokensFrom {u : Token} (ht : t ∈ tokensFrom p cs) (hu : u ∈ tokensFrom p cs)
    (hplace : t.place = u.place) : t = u := by
  have hpairwise := pairwise_offset_tokensFrom p cs
  have hnodup : ((tokensFrom p cs).map fun t => t.place.offset).Nodup :=
    (List.pairwise_map.mpr hpairwise).imp Nat.ne_of_lt
  exact List.inj_on_of_nodup_map hnodup ht hu (congrArg Position.offset hplace)

theorem offset_skipped_le_of_mem_tokensFrom (ht : t ∈ tokensFrom p cs) :
    (p.afterAll (splitTrivia false cs).1).offset ≤ t.place.offset := by
  rw [← place_scan]
  obtain ⟨ts, hts⟩ := exists_tokensFrom_eq_cons p cs
  have hpairwise := pairwise_offset_tokensFrom p cs
  rw [hts] at ht hpairwise
  rcases List.mem_cons.mp ht with rfl | ht
  · exact Nat.le_refl _
  · exact Nat.le_of_lt ((List.pairwise_cons.mp hpairwise).1 t ht)

/-- The first token of a text with a lexeme in it does not depend on a gap behind it. -/
theorem tokensFrom_append_of_rest {rest : List Char} (h : (splitTrivia false cs).2 = c :: rest)
    (p : Position) (ds : List Char) :
    tokensFrom p (cs ++ ds) =
      ⟨(atHead c (rest ++ ds)).kind, (atHead c (rest ++ ds)).payload,
          p.afterAll (splitTrivia false cs).1⟩ ::
        tokensFrom
          ((p.afterAll (splitTrivia false cs).1).afterAll (atHead c (rest ++ ds)).text)
          ((c :: (rest ++ ds)).drop (atHead c (rest ++ ds)).text.length) := by
  have hscan : scan p (cs ++ ds) =
      ⟨⟨(atHead c (rest ++ ds)).kind, (atHead c (rest ++ ds)).payload,
          p.afterAll (splitTrivia false cs).1⟩,
        (p.afterAll (splitTrivia false cs).1).afterAll (atHead c (rest ++ ds)).text,
        (c :: (rest ++ ds)).drop (atHead c (rest ++ ds)).text.length⟩ := by
    simp only [scan, splitTrivia_of_rest h, first?]
  obtain ⟨_, -, hspelling⟩ := Spelling.of_atHead c (rest ++ ds)
  have hk : (scan p (cs ++ ds)).token.kind ≠ .eof := by
    rw [hscan]
    exact hspelling.kind_ne_eof
  rw [tokensFrom_of_ne_eof hk, hscan]

/-- If one word is the beginning of a token, then every word put in its place is, and the tokens in
front of it do not depend on the word. -/
theorem exists_tokens_before (hb : isWordStart b = true)
    (h : ∃ t ∈ tokensFrom p (cs ++ b :: ds), t.place.offset = (p.afterAll cs).offset) :
    ∃ ts, ∀ a ds, isWordStart a = true →
      tokensFrom p (cs ++ a :: ds) = ts ++ tokensFrom (p.afterAll cs) (a :: ds) := by
  generalize hn : cs.length = n
  induction n using Nat.strongRecOn generalizing p cs with
  | ind n ih =>
    obtain ⟨t, ht, hplace⟩ := h
    have hsplit := splitTrivia_append false cs
    cases hrest : (splitTrivia false cs).2 with
    | nil =>
      rcases splitTrivia_of_nil_word hrest with hword | hword
      · refine ⟨[], fun a ds ha => ?_⟩
        have hscan : scan p (cs ++ a :: ds) = scan (p.afterAll cs) (a :: ds) := by
          simp only [scan, hword a ds ha, splitTrivia_word ha, Position.afterAll_nil]
        rw [List.nil_append, tokensFrom, hscan, ← tokensFrom]
      · -- the word stands in a comment, so no token begins there
        obtain ⟨skipped, hskipped⟩ := hword b ds hb
        have hle := offset_skipped_le_of_mem_tokensFrom ht
        rw [hskipped, Position.afterAll_append] at hle
        have hlt := (p.afterAll cs).offset_lt_afterAll (List.cons_ne_nil b skipped)
        omega
    | cons c rest =>
      generalize hskipped : (splitTrivia false cs).1 = skipped at hsplit
      rw [hrest] at hsplit
      have hfirst := tokensFrom_append_of_rest hrest p
      rw [hskipped] at hfirst
      have hbefore : (p.afterAll skipped).offset < (p.afterAll cs).offset := by
        rw [← hsplit, Position.afterAll_append]
        exact (p.afterAll skipped).offset_lt_afterAll (List.cons_ne_nil c rest)
      -- the token at the word is not the first one
      have ht' : t ∈ tokensFrom ((p.afterAll skipped).afterAll (atHead c (rest ++ b :: ds)).text)
          ((c :: (rest ++ b :: ds)).drop (atHead c (rest ++ b :: ds)).text.length) := by
        rw [hfirst] at ht
        rcases List.mem_cons.mp ht with rfl | ht
        · exact absurd hplace (Nat.ne_of_lt hbefore)
        · exact ht
      by_cases hlength : (atHead c (rest ++ b :: ds)).text.length ≤ rest.length + 1
      · have hends := endsIn_of_length_le hb hlength
        have hhead (a : Char) (ds : List Char) (ha : isWordStart a = true) :
            atHead c (rest ++ a :: ds) = atHead c rest := atHead_append_of_endsIn ha hends ds
        obtain ⟨rest', htext, -⟩ := Spelling.of_atHead c rest
        have hdrop (ds : List Char) :
            (c :: (rest ++ ds)).drop (atHead c rest).text.length = rest' ++ ds := by
          rw [← List.cons_append, ← htext, List.append_assoc, List.drop_left]
        have hafter : ((p.afterAll skipped).afterAll (atHead c rest).text).afterAll rest' =
            p.afterAll cs := by
          rw [← Position.afterAll_append, htext, ← Position.afterAll_append, hsplit]
        have hlt : rest'.length < n := by
          have hpos := List.length_pos_iff.mpr (text_atHead_ne_nil c rest)
          have hlen := congrArg List.length htext
          have hlen' := congrArg List.length hsplit
          rw [List.length_append] at hlen hlen'
          omega
        rw [hhead b ds hb, hdrop] at ht'
        obtain ⟨ts, hts⟩ := ih rest'.length hlt ⟨t, ht', by rw [hafter, hplace]⟩ rfl
        refine ⟨⟨(atHead c rest).kind, (atHead c rest).payload, p.afterAll skipped⟩ :: ts,
          fun a ds ha => ?_⟩
        rw [hfirst, hhead a ds ha, hdrop, hts a ds ha, hafter, List.cons_append]
      · -- the first lexeme goes on behind the beginning of the word
        obtain ⟨rest', htext, -⟩ := Spelling.of_atHead c (rest ++ b :: ds)
        rw [← List.cons_append] at htext
        rcases List.append_eq_append_iff.mp htext with ⟨as, has, -⟩ | ⟨bs, hbs, -⟩
        · have hlen := congrArg List.length has
          rw [List.length_append, List.length_cons] at hlen
          omega
        · have hne : bs ≠ [] := by
            rintro rfl
            rw [hbs, List.append_nil, List.length_cons] at hlength
            omega
          have hle := offset_le_of_mem_tokensFrom ht'
          rw [hbs, Position.afterAll_append, ← Position.afterAll_append p, hsplit] at hle
          have hlt := (p.afterAll cs).offset_lt_afterAll hne
          omega

theorem letter_scan (p q : Position) (cs : List Char) :
    (scan p cs).token.letter = (scan q cs).token.letter ∧ (scan p cs).rest = (scan q cs).rest := by
  unfold scan
  generalize splitTrivia false cs = trivia
  obtain ⟨skipped, rest⟩ := trivia
  cases rest <;> exact ⟨rfl, rfl⟩

/-- What the tokens of a text are does not depend on where the text begins. -/
theorem map_letter_tokensFrom (p q : Position) (cs : List Char) :
    (tokensFrom p cs).map Token.letter = (tokensFrom q cs).map Token.letter := by
  fun_induction tokensFrom p cs generalizing q with
  | case1 p cs s hs =>
    obtain ⟨hletter, -⟩ := letter_scan p q cs
    have hk : (scan q cs).token.kind = .eof := (congrArg Prod.fst hletter).symm.trans hs
    rw [tokensFrom_of_eof hk, List.map_singleton, List.map_singleton, ← hletter]
  | case2 p cs s hs ih =>
    obtain ⟨hletter, hrest⟩ := letter_scan p q cs
    have hk : (scan q cs).token.kind ≠ .eof := fun he => hs ((congrArg Prod.fst hletter).trans he)
    rw [tokensFrom_of_ne_eof hk, List.map_cons, List.map_cons, ← hletter, ← hrest,
      ih (scan q cs).place]

theorem Layout.exists_spelling_of_mem {front : List Char} {ts : List Token}
    (h : Layout front cs ts) (ht : t ∈ ts) (hk : t.kind ≠ .eof) :
    ∃ before text rest, before ++ (text ++ rest) = cs ∧ t.place = .behind (front ++ before) ∧
      Spelling t.kind t.payload text rest := by
  induction h with
  | finish _ =>
    obtain rfl := List.eq_of_mem_singleton ht
    exact absurd rfl hk
  | @token front gap text rest u ts _ hspelling _ hplace _ ih =>
    rcases List.mem_cons.mp ht with rfl | ht
    · exact ⟨gap, text, rest, rfl, hplace, hspelling⟩
    · obtain ⟨before, text', rest', rfl, hplace', hspelling'⟩ := ih ht
      exact ⟨gap ++ (text ++ before), text', rest', by simp, by simpa using hplace', hspelling'⟩

theorem Spelling.text_of_kwVar {payload : Payload} {text rest : List Char}
    (h : Spelling .kwVar payload text rest) : text = ['v', 'a', 'r'] := by
  cases h with
  | fixed _ => rfl

theorem TypeTable.lexes_signature (T : TypeTable) (u : TypeId) :
    Lexes ("of " ++ T.shown u).toList (TokenKind.letter .kwOf :: T.letters u) := by
  have hof : Spelling .kwOf .none ['o', 'f'] [] := .fixed (.inr (by decide))
  have htype : Lexes (T.shown u).toList (T.letters u) := T.lexes_shownWithin _ u
  rw [String.toList_append]
  exact .append (by decide) (.of_spelling hof (by decide)) htype.blank

/-- A source with a text put in behind its first `n` bytes, if these end between two characters. -/
def insertAt? (source : String) (n : Nat) (text : String) : Option String :=
  (splitBytes? n source.toList).map fun (front, rest) =>
    String.ofList (front ++ (text.toList ++ rest))

/-- The tokens of the second text are those of the first one, with the signature `u` in front of the
word `var` that is `word` in the first text and `again` in the second one. -/
structure SignaturePut (T : TypeTable) (u : TypeId) (source source' : String) where
  front : List Token
  word : Token
  back : List Token
  opening : Token
  written : List Token
  again : Token
  back' : List Token
  tokens : tokenize source = front ++ word :: back
  tokens' : tokenize source' = front ++ opening :: (written ++ again :: back')
  word_kind : word.kind = .kwVar
  opening_kind : opening.kind = .kwOf
  letters : written.map Token.letter = T.letters u
  again_kind : again.kind = .kwVar
  alike : back.map Token.letter = back'.map Token.letter

/-- A signature put in before the word `var` is read there, and nothing else is read otherwise. -/
theorem exists_signaturePut {source : String} (ht : t ∈ tokenize source) (hk : t.kind = .kwVar)
    (T : TypeTable) (u : TypeId) :
    ∃ source', insertAt? source t.place.offset ("of " ++ T.shown u ++ " ") = some source' ∧
      ∃ P : SignaturePut T u source source', P.word = t := by
  obtain ⟨front, text, rest, hsource, hplace, hspelling⟩ :=
    (layout_tokensFrom [] source.toList).exists_spelling_of_mem ht (by rw [hk]; decide)
  rw [hk] at hspelling
  obtain rfl := hspelling.text_of_kwVar
  rw [List.nil_append] at hplace
  have hword : isWordStart 'v' = true := by decide
  have hfront : Position.origin.afterAll front = t.place := by
    rw [hplace]
    exact Position.afterAll_behind [] front
  have hmem : t ∈ tokensFrom .origin (front ++ 'v' :: ('a' :: 'r' :: rest)) := by
    rw [show front ++ 'v' :: ('a' :: 'r' :: rest) = source.toList from hsource]
    exact ht
  obtain ⟨ts, hts⟩ := exists_tokens_before hword ⟨t, hmem, by rw [hfront]⟩
  rw [hfront] at hts
  have hsplit : tokenize source = ts ++ tokensFrom t.place ('v' :: 'a' :: 'r' :: rest) := by
    rw [← hts 'v' _ hword]
    exact congrArg (tokensFrom .origin) hsource.symm
  -- the word itself is the first token of the text that begins with it
  obtain ⟨us, hus⟩ := exists_tokensFrom_eq_cons t.place ('v' :: 'a' :: 'r' :: rest)
  have hhead : (scan t.place ('v' :: 'a' :: 'r' :: rest)).token.place = t.place := by
    rw [place_scan, splitTrivia_word hword, Position.afterAll_nil]
  have hself : (scan t.place ('v' :: 'a' :: 'r' :: rest)).token = t := by
    refine (eq_of_mem_tokensFrom ht ?_ hhead.symm).symm
    change _ ∈ tokenize source
    rw [hsplit, hus]
    exact List.mem_append_right _ List.mem_cons_self
  rw [hself] at hus
  obtain ⟨ws, q, hws, hread⟩ := T.lexes_signature u t.place ' ' ('v' :: 'a' :: 'r' :: rest)
    (by decide)
  rw [tokensFrom_blank] at hread
  have hletters := map_letter_tokensFrom t.place (q.after ' ') ('v' :: 'a' :: 'r' :: rest)
  rw [hus, List.map_cons] at hletters
  obtain ⟨k, us', hk', hkletter, hus'⟩ := List.map_eq_cons_iff.mp hletters.symm
  obtain ⟨o, ws, rfl, ho, hws⟩ := List.map_eq_cons_iff.mp hws
  have htext : ("of " ++ T.shown u ++ " ").toList ++ (['v', 'a', 'r'] ++ rest) =
      ("of " ++ T.shown u).toList ++ ' ' :: 'v' :: 'a' :: 'r' :: rest := by
    rw [String.toList_append, List.append_assoc]
    rfl
  have hof : ("of " ++ T.shown u).toList = 'o' :: 'f' :: ' ' :: (T.shown u).toList := by
    rw [String.toList_append]
    rfl
  have hoffset : t.place.offset = (String.ofList front).utf8ByteSize := by rw [hplace]; rfl
  have hread' : tokenize (String.ofList (front ++ (("of " ++ T.shown u).toList ++
      ' ' :: 'v' :: 'a' :: 'r' :: rest))) = ts ++ o :: (ws ++ k :: us') := by
    rw [tokenize, String.toList_ofList, hof, List.cons_append, hts 'o' _ (by decide),
      ← List.cons_append, ← hof, hread, hk', List.cons_append]
  refine ⟨_, ?_, ⟨ts, t, us, o, ws, k, us', by rw [hsplit, hus], hread', hk, congrArg Prod.fst ho,
    hws, (congrArg Prod.fst hkletter).trans hk, hus'.symm⟩, rfl⟩
  simp only [insertAt?, hoffset, ← hsource, splitBytes?_append, Option.map_some, htext]

end FrontEnd
