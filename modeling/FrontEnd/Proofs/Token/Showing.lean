import FrontEnd.Proofs.Grammar.Rereading
import FrontEnd.Proofs.Grammar.Writable
import FrontEnd.Proofs.Token.Inserting

/-! Tokens that are shown one after the other, with a blank between them, are read again as what
they were. An invalid token is shown as something else, and only such a token is not read again. -/

namespace FrontEnd

open Lexeme

theorem Lexeme.open_of_atHead {c : Char} {cs : List Char}
    (h : (atHead c cs).payload = .fault .unterminatedString) : c = '"' ∧ '"' ∉ cs := by
  obtain ⟨rest, htext, hspelling⟩ := Spelling.of_atHead c cs
  rw [h] at hspelling
  generalize (atHead c cs).kind = k, (atHead c cs).text = text at htext hspelling
  cases hspelling with
  | unterminated hopen =>
    rw [List.append_nil] at htext
    obtain ⟨rfl, rfl⟩ := List.cons.inj htext
    exact ⟨rfl, hopen⟩

theorem Lexeme.payload_ofQuote {cs : List Char} (h : '"' ∉ cs) :
    (ofQuote cs).payload = .fault .unterminatedString := by
  have hall : ∀ c ∈ cs, (c != '"') = true := by
    intro c hc
    simp only [bne_iff_ne, ne_eq]
    rintro rfl
    exact h hc
  simp only [ofQuote, List.dropWhile_eq_nil_iff.mpr hall]

theorem open_append_newline {p : Position} {cs : List Char}
    (h : ∃ t ∈ tokensFrom p cs, t.payload = .fault .unterminatedString) :
    ∃ t ∈ tokensFrom p (cs ++ ['\n']), t.payload = .fault .unterminatedString := by
  generalize hn : cs.length = n
  induction n using Nat.strongRecOn generalizing p cs with
  | ind n ih =>
    obtain ⟨t, ht, hs⟩ := h
    cases hrest : (splitTrivia false cs).2 with
    | nil =>
      have hscan : (scan p cs).token = .endAt (p.afterAll (splitTrivia false cs).1) := by
        simp only [scan, hrest, first?]
      rw [tokensFrom_of_eof (by rw [hscan]; rfl), hscan] at ht
      obtain rfl := List.eq_of_mem_singleton ht
      cases hs
    | cons c rest =>
      have hfirst := tokensFrom_append_of_rest hrest p []
      rw [List.append_nil, List.append_nil] at hfirst
      rw [hfirst] at ht
      rw [tokensFrom_append_of_rest hrest p ['\n']]
      by_cases hopen : (atHead c rest).payload = .fault .unterminatedString
      · obtain ⟨rfl, hquote⟩ := open_of_atHead hopen
        refine ⟨_, List.mem_cons_self, ?_⟩
        rw [atHead_quote]
        exact payload_ofQuote (by simpa using hquote)
      · rw [atHead_append (by decide) hopen]
        obtain ⟨rest', htext, -⟩ := Spelling.of_atHead c rest
        have hdrop (ds : List Char) :
            (c :: (rest ++ ds)).drop (atHead c rest).text.length = rest' ++ ds := by
          rw [← List.cons_append, ← htext, List.append_assoc, List.drop_left]
        have hdrop' := hdrop []
        rw [List.append_nil, List.append_nil] at hdrop'
        rw [hdrop'] at ht
        have hbehind := (List.mem_cons.mp ht).resolve_left fun he =>
          hopen ((congrArg Token.payload he).symm.trans hs)
        have hlt : rest'.length < n := by
          have hpos := List.length_pos_iff.mpr (text_atHead_ne_nil c rest)
          have hlen := congrArg List.length htext
          have hlen' := congrArg List.length (splitTrivia_append false cs)
          rw [hrest, List.length_append] at hlen'
          rw [List.length_append] at hlen
          omega
        obtain ⟨u, hu, hu'⟩ := ih _ hlt ⟨t, hbehind, hs⟩ rfl
        exact ⟨u, List.mem_cons_of_mem _ (hdrop ['\n'] ▸ hu), hu'⟩

theorem exists_spelled_tokens (source : String) : ∃ ts q, tokenize source = ts ++ [.endAt q] ∧
    (tokenize source).filter (·.kind ≠ .eof) = ts ∧ ∀ t ∈ ts, t.IsSpelled := by
  have hlayout := layout_tokensFrom [] source.toList
  obtain ⟨ts, hts, hkinds⟩ := hlayout.eq_append_endAt
  have htokens : tokenize source = ts ++ [.endAt (.behind ([] ++ source.toList))] := hts
  refine ⟨ts, _, htokens, ?_, fun t ht => ?_⟩
  · have hall : ts.filter (·.kind ≠ .eof) = ts :=
      List.filter_eq_self.mpr fun t ht => decide_eq_true (hkinds t ht)
    rw [htokens, List.filter_append, hall]
    exact List.append_nil ts
  · exact hlayout.isSpelled (hts ▸ List.mem_append_left _ ht) (hkinds t ht)

namespace Lexes

variable {ls : List Letter}

/-- A text that is read as letters whatever follows it leaves no string open. -/
theorem closed {text : List Char} (h : Lexes text ls) :
    ∀ l ∈ ls, l.2 ≠ .fault .unterminatedString := by
  intro l hl hs
  obtain ⟨ts, q, hts, htokens⟩ := h (.behind []) '\n' ['"'] (by decide)
  obtain ⟨t, ht, rfl⟩ := List.mem_map.mp (hts ▸ hl)
  obtain ⟨us, vs, rfl⟩ := List.append_of_mem ht
  rw [List.append_assoc, List.cons_append] at htokens
  have hlast := (layout_tokensFrom [] _).length_of_unterminated htokens hs
  have hbehind : (tokensFrom q ['\n', '"']).length = 2 := by
    have hletters := congrArg List.length (map_letter_tokensFrom q .origin ['\n', '"'])
    rw [List.length_map, List.length_map] at hletters
    rw [hletters]
    decide +kernel
  rw [List.length_append] at hlast
  omega

/-- Where nothing follows, the letters of a text are all that is read. -/
theorem map_letter_tokenize {source : String} (h : Lexes source.toList ls) :
    (tokenize source).map Token.letter = ls ++ [TokenKind.letter .eof] := by
  obtain ⟨ts, q, hts, htokens⟩ := h .origin '\n' [] (by decide)
  have hend : tokensFrom q ['\n'] = [.endAt (q.after '\n')] := by
    rw [tokensFrom]
    rfl
  rw [hend] at htokens
  have hclosed : ∀ t ∈ tokensFrom .origin source.toList,
      t.payload ≠ .fault .unterminatedString := by
    intro t ht hs
    obtain ⟨u, hu, hpayload⟩ := open_append_newline ⟨t, ht, hs⟩
    rw [htokens] at hu
    rcases List.mem_append.mp hu with hu | hu
    · exact h.closed u.letter (hts ▸ List.mem_map_of_mem hu) hpayload
    · obtain rfl := List.eq_of_mem_singleton hu
      cases hpayload
  have happend := tokensFrom_append_newline hclosed []
  rw [htokens] at happend
  obtain ⟨us, e, hsource, -⟩ := exists_spelled_tokens source
  have hnil (r : Position) : tokensFrom r [] = [.endAt r] := by
    rw [tokensFrom]
    rfl
  have hus : (tokenize source).dropLast = ts := by
    rw [hnil] at happend
    exact (List.append_inj_left' happend rfl).symm
  rw [hsource, List.dropLast_concat] at hus
  rw [hsource, hus, List.map_append, hts]
  rfl

theorem blanks {α : Type} {shown : α → String} {letters : α → List Letter} {as : List α}
    (h : ∀ a ∈ as, Lexes (shown a).toList (letters a)) :
    Lexes (" ".intercalate (as.map shown)).toList (as.flatMap letters) := by
  rw [String.toList_intercalate, List.map_map]
  induction as with
  | nil => exact .nil
  | cons a as ih =>
    rw [List.forall_mem_cons] at h
    cases as with
    | nil => simpa using h.1
    | cons b bs =>
      rw [List.map_cons, List.map_cons, List.intercalate_cons_cons, List.append_assoc,
        List.flatMap_cons]
      exact .append (by decide) h.1 (.blank (ih h.2))

/-- What an invalid token is shown as is read as two symbols with a name between them. -/
theorem invalid : Lexes "<invalid>".toList [TokenKind.letter .less,
    (.identifier, .text "invalid"), TokenKind.letter .greater] := by
  change Lexes ('<' :: "invalid>".toList) _
  refine .symbol rfl (fun _ => rfl) fun p b rest hb => ?_
  obtain ⟨ts, q, hts, htokens⟩ :=
    Lexes.symbol (c := '>') (k := .greater) rfl (fun _ => rfl) .nil
      (p.afterAll "invalid".toList) b rest hb
  refine ⟨⟨.identifier, .text "invalid", p⟩ :: ts, q, by rw [List.map_cons, hts]; rfl, ?_⟩
  rw [List.cons_append, ← htokens]
  exact tokensFrom_of_lexeme (l := ⟨.identifier, .text "invalid", "invalid".toList⟩) p rfl rfl
    (by decide) (by decide)

end Lexes

theorem Token.IsSpelled.lexes {t : Token} (h : t.IsSpelled) (hk : t.kind ≠ .invalid) :
    Lexes t.shown.toList [t.letter] := by
  by_cases hliteral : t.kind ∈ TokenKind.literals
  · exact Word.Legible.literal (T := .initial) (h.literal hliteral)
  · obtain ⟨text, rest, h⟩ := h
    obtain ⟨k, p, place⟩ := t
    cases h with
    | fixed h => exact Word.Legible.plain (T := .initial) rfl h
    | name _ _ _ => exact absurd (by decide : TokenKind.identifier ∈ TokenKind.literals) hliteral
    | string _ => exact absurd (by decide : TokenKind.string ∈ TokenKind.literals) hliteral
    | number _ _ _ => exact absurd (by decide : TokenKind.number ∈ TokenKind.literals) hliteral
    | tooLarge _ _ _ | unterminated _ | unrecognised => exact absurd rfl hk

/-- What the token is read as once it is shown. -/
def Token.lettersShown (t : Token) : List Letter :=
  if t.kind = .invalid then
    [TokenKind.letter .less, (.identifier, .text "invalid"), TokenKind.letter .greater]
  else [t.letter]

theorem Token.lettersShown_of_valid {t : Token} (h : t.kind ≠ .invalid) :
    t.lettersShown = [t.letter] := if_neg h

theorem Token.kind_ne_invalid_of_mem_lettersShown {t : Token} {l : Letter}
    (h : l ∈ t.lettersShown) : l.1 ≠ .invalid := by
  unfold lettersShown at h
  split at h
  · revert l
    decide
  next hk =>
    obtain rfl := List.eq_of_mem_singleton h
    exact hk

theorem Token.IsSpelled.lexes_lettersShown {t : Token} (h : t.IsSpelled) :
    Lexes t.shown.toList t.lettersShown := by
  by_cases hk : t.kind = .invalid
  · obtain ⟨text, rest, hspelling⟩ := h
    obtain ⟨k, p, place⟩ := t
    obtain rfl : k = .invalid := hk
    cases hspelling with
    | fixed h =>
      exact absurd h (by decide : ¬ (TokenKind.invalid ∈ TokenKind.symbols ∨
        TokenKind.invalid ∈ TokenKind.words))
    | tooLarge _ _ _ | unterminated _ | unrecognised => exact .invalid
  · rw [Token.lettersShown_of_valid hk]
    exact h.lexes hk

/-- The text that shows the tokens in front of the end, with a blank between them. -/
def shownTokens (ts : List Token) : String :=
  " ".intercalate ((ts.filter (·.kind ≠ .eof)).map Token.shown)

/-- The tokens of a source that are shown are read again as the same tokens, at other places, just
if all of them are valid. -/
theorem map_letter_tokenize_shownTokens_iff (source : String) :
    (tokenize (shownTokens (tokenize source))).map Token.letter =
        (tokenize source).map Token.letter ↔
      ∀ t ∈ tokenize source, t.kind ≠ .invalid := by
  obtain ⟨ts, q, htokens, hfilter, hspelled⟩ := exists_spelled_tokens source
  have hlexes : Lexes (shownTokens (tokenize source)).toList (ts.flatMap Token.lettersShown) := by
    rw [shownTokens, hfilter]
    exact .blanks fun t ht => (hspelled t ht).lexes_lettersShown
  rw [hlexes.map_letter_tokenize, htokens, List.map_append]
  refine ⟨fun h t ht hk => ?_, fun h => ?_⟩
  · rcases List.mem_append.mp ht with ht | ht
    · have hletters := List.append_inj_left' h rfl
      have hl : t.letter ∈ ts.flatMap Token.lettersShown := hletters ▸ List.mem_map_of_mem ht
      obtain ⟨u, -, hl⟩ := List.mem_flatMap.mp hl
      exact Token.kind_ne_invalid_of_mem_lettersShown hl hk
    · obtain rfl := List.eq_of_mem_singleton ht
      exact nomatch hk
  · have hletters : ts.flatMap Token.lettersShown = ts.map Token.letter := by
      rw [List.map_eq_flatMap]
      exact List.flatMap_congr fun t ht =>
        Token.lettersShown_of_valid (h t (List.mem_append_left _ ht))
    rw [hletters]
    rfl

end FrontEnd
