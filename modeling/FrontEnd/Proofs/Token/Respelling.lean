import FrontEnd.Proofs.Syntax.Rendering
import FrontEnd.Proofs.Token.Joining

/-! A lexeme that is spelled again is read as what it was. Where a character follows that no lexeme
goes on with, what is written behind it does not matter. -/

namespace FrontEnd

namespace Lexeme

theorem symbol?_eq_none {c : Char} (h : isWordPart c = true ∨ c = '"') (cs : List Char) :
    symbol? (c :: cs) = none := by
  have hheads : ∀ k ∈ TokenKind.symbols,
      k.spelling.toList.head?.any (fun d => isWordPart d || d = '"') = false := by decide
  refine List.find?_eq_none.mpr fun k hk hprefix => ?_
  obtain ⟨d, ds, hspelling⟩ := List.exists_cons_of_ne_nil (spelling_ne_nil k)
  rw [hspelling, List.isPrefixOf_cons_cons, Bool.and_eq_true, beq_iff_eq] at hprefix
  obtain ⟨rfl, _⟩ := hprefix
  have hhead := hheads k hk
  rw [hspelling, List.head?_cons, Option.any_some, Bool.or_eq_false_iff, decide_eq_false_iff_not]
    at hhead
  rcases h with h | h
  · exact Bool.false_ne_true (hhead.1.symm.trans h)
  · exact hhead.2 h

theorem not_isDigit_of_isWordStart {c : Char} (h : isWordStart c = true) : c.isDigit = false := by
  rw [Bool.eq_false_iff]
  intro hd
  have hnine : c.toNat ≤ '9'.toNat := (Char.isDigit_iff_toNat.mp hd).2
  rw [isWordStart, Bool.or_eq_true, decide_eq_true_eq] at h
  rcases h with h | rfl
  · rcases Bool.or_eq_true_iff.mp h with h | h
    · have hle : 'A'.toNat ≤ c.toNat := (of_decide_eq_true h).1
      exact absurd (hle.trans hnine) (by decide)
    · have hle : 'a'.toNat ≤ c.toNat := of_decide_eq_true (Bool.and_eq_true_iff.mp h).1
      exact absurd (hle.trans hnine) (by decide)
  · exact absurd hnine (by decide)

theorem isWordPart_of_isDigit {c : Char} (h : c.isDigit = true) : isWordPart c = true := by
  simp [isWordPart, Char.isAlphanum, h]

theorem ne_quote_of_isWordPart {c : Char} (h : isWordPart c = true) : c ≠ '"' := by
  rintro rfl
  exact absurd h (by decide)

theorem atHead_of_isDigit {c : Char} (hc : c.isDigit = true) (cs : List Char) :
    atHead c cs = ofDigits ((c :: cs).takeWhile Char.isDigit) := by
  have hsymbol := symbol?_eq_none (.inl (isWordPart_of_isDigit hc)) cs
  simp only [atHead, hsymbol, hc, if_true]

theorem atHead_of_isWordStart {c : Char} (hc : isWordStart c = true) (cs : List Char) :
    atHead c cs = ofWord ((c :: cs).takeWhile isWordPart) := by
  have hpart := isWordPart_of_isWordStart hc
  have hquote := ne_quote_of_isWordPart hpart
  have hsymbol := symbol?_eq_none (.inl hpart) cs
  simp only [atHead, hsymbol, not_isDigit_of_isWordStart hc, hquote, hc, if_true, if_false,
    Bool.false_eq_true]

theorem atHead_quote (cs : List Char) : atHead '"' cs = ofQuote cs := by
  have hsymbol := symbol?_eq_none (c := '"') (.inr rfl) cs
  have hdigit : ('"' : Char).isDigit = false := by decide
  simp only [atHead, hsymbol, hdigit, if_true, if_false, Bool.false_eq_true]

theorem first?_of_spelling {k : TokenKind} {p : Payload} {text rest : List Char}
    (h : Spelling k p text rest) (hk : k ≠ .invalid) : first? text = some ⟨k, p, text⟩ := by
  cases h with
  | fixed h =>
    exact (by decide +kernel : ∀ k ∈ TokenKind.symbols ++ TokenKind.words,
      first? k.spelling.toList = some ⟨k, .none, k.spelling.toList⟩) k (List.mem_append.mpr h)
  | @name c cs _ hc hcs hfree =>
    have hpart := isWordPart_of_isWordStart hc
    have hreserved : TokenKind.reserved? (String.ofList (c :: cs)) = none :=
      List.find?_eq_none.mpr fun k hk => by simpa using hfree k hk
    have htake : (c :: cs).takeWhile isWordPart = c :: cs :=
      List.takeWhile_eq_self_iff.mpr (List.forall_mem_cons.mpr ⟨hpart, hcs⟩)
    simp only [first?, atHead_of_isWordStart hc, htake, ofWord, hreserved]
  | @string cs _ hcs =>
    have hall : ∀ c ∈ cs, (c != '"') = true := by
      intro c hc
      simp only [bne_iff_ne, ne_eq]
      rintro rfl
      exact hcs hc
    have htake : (cs ++ ['"']).takeWhile (· != '"') = cs := by
      rw [List.takeWhile_append_of_pos hall]
      simp
    have hdrop : (cs ++ ['"']).dropWhile (· != '"') = ['"'] := by
      rw [List.dropWhile_append_of_pos hall]
      rfl
    simp only [first?, atHead_quote, ofQuote, htake, hdrop, List.cons_append]
  | @number _ _ hne hds hbound =>
    obtain ⟨c, cs, rfl⟩ := List.exists_cons_of_ne_nil hne
    have hdigit := hds c List.mem_cons_self
    have htake : (c :: cs).takeWhile Char.isDigit = c :: cs := List.takeWhile_eq_self_iff.mpr hds
    have hlt : decimal (c :: cs) < numberBound := hbound
    simp only [first?, atHead_of_isDigit hdigit, htake, ofDigits, hlt, if_true]
  | tooLarge _ _ _ | unterminated _ | unrecognised => exact absurd rfl hk

theorem atHead_of_skipped {c : Char} (h : (isBlankBetween c || decide (c = '#')) = true)
    (cs : List Char) : (atHead c cs).kind = .invalid := by
  simp only [isBlankBetween, Bool.or_eq_true, decide_eq_true_eq] at h
  rcases h with (((rfl | rfl) | rfl) | rfl) | rfl <;> rfl

end Lexeme

theorem tokensFrom_of_lexeme {c : Char} {cs rest : List Char} {l : Lexeme} (p : Position)
    (hl : Lexeme.atHead c cs = l) (hrest : c :: cs = l.text ++ rest) (hk : l.kind ≠ .eof)
    (hvalid : l.kind ≠ .invalid) :
    tokensFrom p (c :: cs) = ⟨l.kind, l.payload, p⟩ :: tokensFrom (p.afterAll l.text) rest := by
  have hc : (isBlankBetween c || decide (c = '#')) = false := by
    rw [Bool.eq_false_iff]
    intro hc
    exact hvalid (hl ▸ Lexeme.atHead_of_skipped hc cs)
  have hscan : scan p (c :: cs) = ⟨⟨l.kind, l.payload, p⟩, p.afterAll l.text, rest⟩ := by
    simp only [scan, splitTrivia, hc, Bool.false_eq_true, if_false, Lexeme.first?, hl,
      Position.afterAll_nil]
    rw [hrest, List.drop_left]
  rw [tokensFrom, hscan, dif_neg hk]

theorem tokensFrom_blank (p : Position) (cs : List Char) :
    tokensFrom p (' ' :: cs) = tokensFrom (p.after ' ') cs := by
  have hscan : scan p (' ' :: cs) = scan (p.after ' ') cs := by
    have hblank : isBlankBetween ' ' = true := by decide
    simp only [scan, splitTrivia, hblank, Bool.true_or, if_true, Position.afterAll_cons]
    rfl
  rw [tokensFrom, hscan]
  conv => rhs; rw [tokensFrom]

/-- Wherever a character follows that no lexeme goes on with, the tokens of the text are of these
letters, and behind them come those of what follows. -/
def Lexes (text : List Char) (ls : List Letter) : Prop :=
  ∀ (p : Position) (b : Char) (rest : List Char), Lexeme.IsBreak b →
    ∃ ts q, ts.map Token.letter = ls ∧
      tokensFrom p (text ++ b :: rest) = ts ++ tokensFrom q (b :: rest)

namespace Lexes

variable {text text' : List Char} {ls ls' : List Letter}

theorem nil : Lexes [] [] := fun p _ _ _ => ⟨[], p, rfl, rfl⟩

theorem append {b : Char} (hb : Lexeme.IsBreak b) (h : Lexes text ls)
    (h' : Lexes (b :: text') ls') : Lexes (text ++ b :: text') (ls ++ ls') := by
  intro p c rest hc
  obtain ⟨ts, q, hts, htokens⟩ := h p b (text' ++ c :: rest) hb
  obtain ⟨us, r, hus, htokens'⟩ := h' q c rest hc
  refine ⟨ts ++ us, r, by rw [List.map_append, hts, hus], ?_⟩
  rw [List.append_assoc, List.cons_append, htokens, List.append_assoc, ← htokens']
  rfl

theorem blank (h : Lexes text ls) : Lexes (' ' :: text) ls := by
  intro p b rest hb
  rw [List.cons_append, tokensFrom_blank]
  exact h _ b rest hb

theorem of_spelling {k : TokenKind} {p : Payload} {rest : List Char} (h : Spelling k p text rest)
    (hk : k ≠ .invalid) : Lexes text [(k, p)] := by
  intro q b rest hb
  obtain ⟨c, cs, rfl⟩ := List.exists_cons_of_ne_nil h.text_ne_nil
  have hhead : Lexeme.atHead c cs = ⟨k, p, c :: cs⟩ :=
    Option.some.inj (Lexeme.first?_of_spelling h hk)
  have hpayload : (Lexeme.atHead c cs).payload ≠ .fault .unterminatedString := by
    rw [hhead]
    rintro rfl
    exact hk h.of_unterminated.1
  refine ⟨[⟨k, p, q⟩], q.afterAll (c :: cs), rfl, ?_⟩
  exact tokensFrom_of_lexeme (l := ⟨k, p, c :: cs⟩) q
    ((Lexeme.atHead_append hb hpayload rest).trans hhead) rfl h.kind_ne_eof hk

/-- A symbol that begins no other symbol is read whatever follows it. -/
theorem symbol {k : TokenKind} {c : Char} (hk : k.spelling.toList = [c])
    (hsymbol : ∀ cs, Lexeme.symbol? (c :: cs) = some k) (h : Lexes text ls) :
    Lexes (c :: text) (k.letter :: ls) := by
  intro p b rest hb
  have hmem : k ∈ TokenKind.symbols := List.mem_of_find?_eq_some (hsymbol [])
  have hkinds : k ≠ .eof ∧ k ≠ .invalid :=
    (by decide : ∀ k ∈ TokenKind.symbols, k ≠ .eof ∧ k ≠ .invalid) k hmem
  have hhead : Lexeme.atHead c (text ++ b :: rest) = ⟨k, .none, [c]⟩ := by
    simp only [Lexeme.atHead, hsymbol, hk]
  obtain ⟨ts, q, hts, htokens⟩ := h (p.after c) b rest hb
  refine ⟨⟨k, .none, p⟩ :: ts, q, by rw [List.map_cons, hts]; rfl, ?_⟩
  rw [List.cons_append, tokensFrom_of_lexeme p hhead rfl hkinds.1 hkinds.2]
  exact congrArg _ htokens

theorem commas {α : Type} {shown : α → String} {letters : α → List Letter}
    (h : ∀ a, Lexes (shown a).toList (letters a)) (as : List α) :
    Lexes (", ".intercalate (as.map shown)).toList
      ([TokenKind.letter .comma].intercalate (as.map letters)) := by
  rw [String.toList_intercalate, List.map_map]
  induction as with
  | nil => exact .nil
  | cons a as ih =>
    cases as with
    | nil => simpa using h a
    | cons b bs =>
      rw [List.map_cons, List.map_cons, List.map_cons, List.map_cons, List.intercalate_cons_cons,
        List.intercalate_cons_cons, List.append_assoc, List.append_assoc]
      exact .append (by decide) (h a) (.symbol rfl (fun _ => rfl) (.blank ih))

end Lexes

theorem TypeTable.lexes_shownWithin (T : TypeTable) (n : Nat) (t : TypeId) :
    Lexes (T.shownWithin n t).toList (T.lettersWithin n t) := by
  induction n generalizing t with
  | zero => exact .nil
  | succ n ih =>
    unfold shownWithin lettersWithin
    cases T.shape? t with
    | none => exact .nil
    | some shape =>
      cases shape with
      | primitive p =>
        have hspelling : Spelling p.kind .none p.kind.spelling.toList [] :=
          .fixed (.inr (by cases p <;> decide))
        have hname : p.name = p.kind.spelling := by cases p <;> rfl
        simp only [hname]
        exact .of_spelling hspelling (by cases p <;> decide)
      | pointer u =>
        simp only [String.toList_append]
        exact .symbol rfl (fun _ => rfl) (ih u)
      | function as r =>
        have harrow : Spelling .arrow .none ['-', '>'] [] := .fixed (.inl (by decide))
        have hresult : Lexes ('-' :: '>' :: ' ' :: (T.shownWithin n r).toList)
            (TokenKind.letter .arrow :: T.lettersWithin n r) :=
          .append (by decide) (.of_spelling harrow (by decide)) (.blank (ih r))
        simp only [String.toList_append, List.append_assoc]
        exact .symbol rfl (fun _ => rfl) (.append (by decide) (.commas ih as)
          (.symbol rfl (fun _ => rfl) (.blank hresult)))

end FrontEnd
