import FrontEnd.Proofs.Token.Layout

/-! Texts with a blank between them do not share a lexeme. The tokens of the first one are read as
if nothing followed, and those of the second one as if it stood alone. -/

namespace FrontEnd

theorem isPrefixOf_append_cons {l cs ds : List Char} {b : Char} (hb : b ∉ l) :
    l.isPrefixOf (cs ++ b :: ds) = l.isPrefixOf cs := by
  induction l generalizing cs with
  | nil => simp
  | cons c l ih =>
    rw [List.mem_cons, not_or] at hb
    obtain ⟨hne, hb⟩ := hb
    cases cs with
    | nil => simp [List.isPrefixOf, Ne.symm hne]
    | cons d cs => simp only [List.cons_append, List.isPrefixOf_cons_cons, ih hb]

theorem takeWhile_append_cons {p : Char → Bool} {b : Char} (hb : p b = false) (cs ds : List Char) :
    (cs ++ b :: ds).takeWhile p = cs.takeWhile p := by
  induction cs with
  | nil => simp [hb]
  | cons c cs ih =>
    rw [List.cons_append, List.takeWhile_cons, List.takeWhile_cons, ih]

theorem span_append {p : Char → Bool} {cs : List Char} (h : cs.dropWhile p ≠ [])
    (ds : List Char) : (cs ++ ds).takeWhile p = cs.takeWhile p ∧
      (cs ++ ds).dropWhile p = cs.dropWhile p ++ ds := by
  induction cs with
  | nil => exact absurd rfl h
  | cons c cs ih =>
    rw [List.cons_append, List.takeWhile_cons, List.takeWhile_cons, List.dropWhile_cons,
      List.dropWhile_cons]
    by_cases hc : p c = true
    · rw [List.dropWhile_cons_of_pos hc] at h
      obtain ⟨htake, hdrop⟩ := ih h
      simp only [hc, if_true, htake, hdrop, and_self]
    · simp only [hc, if_false, Bool.false_eq_true, List.cons_append, and_self]

namespace Lexeme

/-- Characters that no lexeme before them goes on with, unless it is a string. -/
def IsBreak (b : Char) : Prop := isWordPart b = false ∧ b ≠ '=' ∧ b ≠ '>'

instance (b : Char) : Decidable (IsBreak b) := inferInstanceAs (Decidable (_ ∧ _))

variable {b : Char}

theorem IsBreak.isDigit (hb : IsBreak b) : b.isDigit = false := by
  have hpart := hb.1
  simp only [isWordPart, Char.isAlphanum, Bool.or_eq_false_iff] at hpart
  exact hpart.1.2

theorem symbol?_append (hb : b ≠ '=' ∧ b ≠ '>') (c : Char) (cs ds : List Char) :
    symbol? (c :: (cs ++ b :: ds)) = symbol? (c :: cs) := by
  have hsymbols : ∀ k ∈ TokenKind.symbols, b ∉ k.spelling.toList.tail := by
    have htails : ∀ k ∈ TokenKind.symbols,
        k.spelling.toList.tail.all (fun d => d = '=' || d = '>') = true := by decide
    intro k hk hmem
    have hb' := List.all_eq_true.mp (htails k hk) b hmem
    rw [Bool.or_eq_true, decide_eq_true_eq, decide_eq_true_eq] at hb'
    rcases hb' with rfl | rfl
    · exact hb.1 rfl
    · exact hb.2 rfl
  unfold symbol?
  generalize TokenKind.symbols = ks at hsymbols
  induction ks with
  | nil => rfl
  | cons k ks ih =>
    rw [List.forall_mem_cons] at hsymbols
    have hprefix : k.spelling.toList.isPrefixOf (c :: (cs ++ b :: ds)) =
        k.spelling.toList.isPrefixOf (c :: cs) := by
      generalize k.spelling.toList = l at hsymbols
      cases l with
      | nil => rfl
      | cons d l =>
        have hl : b ∉ l := hsymbols.1
        rw [List.isPrefixOf_cons_cons, List.isPrefixOf_cons_cons, isPrefixOf_append_cons hl]
    rw [List.find?_cons, List.find?_cons, hprefix, ih hsymbols.2]

theorem atHead_append (hb : IsBreak b) {c : Char} {cs : List Char}
    (h : (atHead c cs).payload ≠ .fault .unterminatedString) (ds : List Char) :
    atHead c (cs ++ b :: ds) = atHead c cs := by
  unfold atHead at h ⊢
  rw [symbol?_append hb.2, ← List.cons_append, takeWhile_append_cons hb.isDigit,
    takeWhile_append_cons hb.1]
  cases hsymbol : symbol? (c :: cs) with
  | some k => rfl
  | none =>
    dsimp only
    by_cases hc : c.isDigit = true
    · rw [if_pos hc, if_pos hc]
    · by_cases hq : c = '"'
      · rw [if_neg hc, if_neg hc, if_pos hq, if_pos hq]
        simp only [hsymbol, hc, if_pos hq] at h
        have hclosed : cs.dropWhile (· != '"') ≠ [] := by
          intro hnil
          simp [ofQuote, hnil] at h
        obtain ⟨htake, hdrop⟩ := span_append hclosed (b :: ds)
        obtain ⟨d, rest, hrest⟩ := List.exists_cons_of_ne_nil hclosed
        simp only [ofQuote, htake, hdrop, hrest, List.cons_append]
      · rw [if_neg hc, if_neg hc, if_neg hq, if_neg hq]

end Lexeme

theorem splitTrivia_of_rest {inComment : Bool} {cs rest : List Char} {c : Char}
    (h : (splitTrivia inComment cs).2 = c :: rest) (ds : List Char) :
    splitTrivia inComment (cs ++ ds) = ((splitTrivia inComment cs).1, c :: (rest ++ ds)) := by
  induction cs generalizing inComment with
  | nil => cases inComment <;> exact nomatch h
  | cons d cs ih =>
    cases inComment with
    | true =>
      rw [splitTrivia] at h
      simp only [List.cons_append, splitTrivia, ih h]
    | false =>
      rw [splitTrivia] at h
      rw [List.cons_append, splitTrivia, splitTrivia]
      by_cases hd : (isBlankBetween d || decide (d = '#')) = true
      · rw [if_pos hd] at h
        simp only [hd, if_true, ih h]
      · rw [if_neg hd] at h
        obtain ⟨rfl, rfl⟩ := List.cons.inj h
        simp only [hd, if_false, Bool.false_eq_true]

theorem splitTrivia_of_nil {inComment : Bool} {cs : List Char}
    (h : (splitTrivia inComment cs).2 = []) (ds : List Char) :
    splitTrivia inComment (cs ++ '\n' :: ds) =
      (cs ++ '\n' :: (splitTrivia false ds).1, (splitTrivia false ds).2) := by
  induction cs generalizing inComment with
  | nil => cases inComment <;> rfl
  | cons d cs ih =>
    cases inComment with
    | true =>
      rw [splitTrivia] at h
      simp only [List.cons_append, splitTrivia, ih h]
    | false =>
      rw [splitTrivia] at h
      rw [List.cons_append, splitTrivia]
      by_cases hd : (isBlankBetween d || decide (d = '#')) = true
      · rw [if_pos hd] at h
        simp only [hd, if_true, ih h, List.cons_append]
      · rw [if_neg hd] at h
        cases h

/-- The place `p` of a text, once so many bytes and lines stand in front of the text. -/
def Position.shift (bytes lines : Nat) (p : Position) : Position :=
  ⟨p.offset + bytes, p.line + lines, p.column⟩

def Token.shift (bytes lines : Nat) (t : Token) : Token :=
  { t with place := t.place.shift bytes lines }

namespace Position

theorem shift_after (bytes lines : Nat) (p : Position) (c : Char) :
    (p.shift bytes lines).after c = (p.after c).shift bytes lines := by
  unfold after
  split <;> simp [shift] <;> omega

theorem shift_afterAll (bytes lines : Nat) (p : Position) (cs : List Char) :
    (p.shift bytes lines).afterAll cs = (p.afterAll cs).shift bytes lines := by
  induction cs generalizing p with
  | nil => rfl
  | cons c cs ih => rw [afterAll_cons, afterAll_cons, shift_after, ih]

theorem shift_shift (b l b' l' : Nat) (p : Position) :
    (p.shift b l).shift b' l' = p.shift (b + b') (l + l') := by
  simp only [shift, Nat.add_assoc]

end Position

theorem scan_shift (bytes lines : Nat) (p : Position) (cs : List Char) :
    scan (p.shift bytes lines) cs = ⟨(scan p cs).token.shift bytes lines,
      (scan p cs).place.shift bytes lines, (scan p cs).rest⟩ := by
  unfold scan
  generalize splitTrivia false cs = trivia
  obtain ⟨skipped, rest⟩ := trivia
  dsimp only
  rw [Position.shift_afterAll]
  cases Lexeme.first? rest with
  | none => rfl
  | some l => simp only [Position.shift_afterAll, Token.shift]

theorem tokensFrom_shift (bytes lines : Nat) (p : Position) (cs : List Char) :
    tokensFrom (p.shift bytes lines) cs = (tokensFrom p cs).map (Token.shift bytes lines) := by
  fun_induction tokensFrom p cs with
  | case1 p cs s h =>
    have hs : (scan p cs).token.kind = .eof := h
    rw [tokensFrom, scan_shift]
    simp [Token.shift, hs, s]
  | case2 p cs s h ih =>
    have hs : (scan p cs).token.kind ≠ .eof := h
    rw [tokensFrom, scan_shift]
    simp [Token.shift, hs, s, ih]

theorem scan_append_newline {p : Position} {cs : List Char}
    (hk : (scan p cs).token.kind ≠ .eof)
    (hs : (scan p cs).token.payload ≠ .fault .unterminatedString) (ds : List Char) :
    scan p (cs ++ '\n' :: ds) =
      ⟨(scan p cs).token, (scan p cs).place, (scan p cs).rest ++ '\n' :: ds⟩ := by
  cases hrest : (splitTrivia false cs).2 with
  | nil => simp [scan, hrest, Lexeme.first?] at hk
  | cons c rest =>
    have hsplit := splitTrivia_of_rest hrest ('\n' :: ds)
    simp only [scan, hrest, Lexeme.first?] at hs
    have hhead := Lexeme.atHead_append (b := '\n') (by decide) hs ds
    obtain ⟨rest', htext, _⟩ := Spelling.of_atHead c rest
    simp only [scan, hsplit, hrest, Lexeme.first?, hhead]
    rw [← List.cons_append, ← htext, List.append_assoc, List.drop_left, List.drop_left]

/-- Behind a gap and a newline the next text begins as it would alone. -/
theorem scan_append_of_eof {p : Position} {cs : List Char} (hk : (scan p cs).token.kind = .eof)
    (ds : List Char) : scan p (cs ++ '\n' :: ds) = scan (p.afterAll (cs ++ ['\n'])) ds := by
  cases hrest : (splitTrivia false cs).2 with
  | nil =>
    simp only [scan, splitTrivia_of_nil hrest, Position.afterAll_append, Position.afterAll_cons,
      Position.afterAll_nil]
  | cons c rest =>
    obtain ⟨_, _, hspelling⟩ := Spelling.of_atHead c rest
    simp only [scan, hrest, Lexeme.first?] at hk
    exact absurd hk hspelling.kind_ne_eof

theorem afterAll_rest_scan (p : Position) (cs : List Char) :
    (scan p cs).place.afterAll (scan p cs).rest = p.afterAll cs := by
  have hsplit := splitTrivia_append false cs
  unfold scan
  generalize splitTrivia false cs = trivia at hsplit
  obtain ⟨skipped, rest⟩ := trivia
  rw [← hsplit, Position.afterAll_append]
  cases rest with
  | nil => rfl
  | cons c rest =>
    obtain ⟨rest', htext, _⟩ := Spelling.of_atHead c rest
    simp only [Lexeme.first?]
    rw [← Position.afterAll_append, ← htext, List.drop_left]

theorem tokensFrom_append_newline {p : Position} {cs : List Char}
    (h : ∀ t ∈ tokensFrom p cs, t.payload ≠ .fault .unterminatedString) (ds : List Char) :
    tokensFrom p (cs ++ '\n' :: ds) =
      (tokensFrom p cs).dropLast ++ tokensFrom (p.afterAll (cs ++ ['\n'])) ds := by
  fun_induction tokensFrom p cs with
  | case1 p cs s hk =>
    have hscan : scan p (cs ++ '\n' :: ds) = scan (p.afterAll (cs ++ ['\n'])) ds :=
      scan_append_of_eof hk ds
    rw [tokensFrom, hscan, List.dropLast_singleton, List.nil_append]
    conv => rhs; rw [tokensFrom]
  | case2 p cs s hk ih =>
    rw [List.forall_mem_cons] at h
    have hscan : scan p (cs ++ '\n' :: ds) = ⟨s.token, s.place, s.rest ++ '\n' :: ds⟩ :=
      scan_append_newline hk h.1 ds
    have hplace : s.place.afterAll (s.rest ++ ['\n']) = p.afterAll (cs ++ ['\n']) := by
      rw [Position.afterAll_append, Position.afterAll_append, afterAll_rest_scan p cs]
    rw [tokensFrom, hscan, List.dropLast_cons_of_ne_nil (tokensFrom_ne_nil _ _)]
    simp only [hk, dif_neg, not_false_eq_true, ih h.2, hplace, List.cons_append]

theorem Spelling.of_unterminated {k : TokenKind} {text rest : List Char}
    (h : Spelling k (.fault .unterminatedString) text rest) : k = .invalid ∧ rest = [] := by
  cases h
  exact ⟨rfl, rfl⟩

theorem Layout.length_of_nil {front cs : List Char} {ts : List Token} (h : Layout front cs ts)
    (hcs : cs = []) : ts.length = 1 := by
  cases h with
  | finish _ => rfl
  | token _ _ hne _ _ =>
    obtain ⟨_, happend⟩ := List.append_eq_nil_iff.mp hcs
    exact absurd (List.append_eq_nil_iff.mp happend).1 hne

/-- A string that is not closed takes the rest of the text and is the last token. -/
theorem Layout.getLast?_of_unterminated {front cs : List Char} {ts : List Token}
    (h : Layout front cs ts) {t : Token} (ht : t ∈ ts)
    (hs : t.payload = .fault .unterminatedString) :
    (ts.dropLast.map Token.kind).getLast? = some .invalid := by
  induction h with
  | finish _ =>
    obtain rfl := List.eq_of_mem_singleton ht
    exact nomatch hs
  | @token front gap text rest u ts _ hspelling _ _ hts ih =>
    obtain ⟨us, rfl, _⟩ := hts.eq_append_endAt
    rw [List.dropLast_concat] at ih
    rw [← List.cons_append, List.dropLast_concat, List.map_cons]
    rcases List.mem_cons.mp ht with rfl | ht
    · rw [hs] at hspelling
      obtain ⟨hk, rfl⟩ := hspelling.of_unterminated
      have hus : us = [] := by
        have hlength := hts.length_of_nil rfl
        simpa using hlength
      rw [hus, hk]
      rfl
    · have hlast := ih ht
      rw [List.getLast?_cons_of_ne_nil, hlast]
      intro hnil
      rw [hnil] at hlast
      exact nomatch hlast

/-- The place `p` of a text on the lines below the text `a`. -/
def Position.below (a : String) (p : Position) : Position :=
  p.shift (a.utf8ByteSize + 1) (a.toList.count '\n' + 1)

def Token.below (a : String) (t : Token) : Token := { t with place := t.place.below a }

theorem Position.below_comm (a b : String) (p : Position) :
    (p.below a).below b = (p.below b).below a := by
  simp only [below, shift_shift, Nat.add_comm]

theorem tokenize_append {a : String}
    (h : ∀ t ∈ tokenize a, t.payload ≠ .fault .unterminatedString) (b : String) :
    tokenize (a ++ "\n" ++ b) = (tokenize a).dropLast ++ (tokenize b).map (Token.below a) := by
  have hplace : Position.origin.afterAll (a.toList ++ ['\n']) = Position.origin.below a := by
    rw [← Position.behind_nil, Position.afterAll_behind]
    simp [Position.behind, Position.below, Position.shift, String.utf8ByteSize_append]
    rfl
  have hbelow : (tokenize b).map (Token.below a) =
      tokensFrom (Position.origin.below a) b.toList := (tokensFrom_shift _ _ _ _).symm
  rw [hbelow, ← hplace]
  unfold tokenize
  rw [← tokensFrom_append_newline h]
  simp

/-- Behind a string that is not closed comes nothing but the end. -/
theorem Layout.length_of_unterminated {front cs : List Char} {ts us vs : List Token} {t : Token}
    (h : Layout front cs ts) (hts : ts = us ++ t :: vs)
    (hs : t.payload = .fault .unterminatedString) : vs.length = 1 := by
  induction h generalizing us with
  | finish _ =>
    cases us with
    | nil =>
      obtain ⟨rfl, -⟩ := List.cons.inj hts
      exact nomatch hs
    | cons _ us => simp at hts
  | @token _ _ _ _ _ ts _ hspelling _ _ hrest ih =>
    cases us with
    | nil =>
      obtain ⟨rfl, rfl⟩ := List.cons.inj hts
      rw [hs] at hspelling
      exact hrest.length_of_nil hspelling.of_unterminated.2
    | cons _ us => exact ih (List.cons.inj hts).2

/-- Two texts with a newline between them are read one after the other, whatever the second one is,
just if the first one leaves no string open. -/
theorem tokenize_append_newline_iff (a : String) :
    (∀ b, tokenize (a ++ "\n" ++ b) = (tokenize a).dropLast ++ (tokenize b).map fun t =>
      { t with place :=
        { offset := t.place.offset + (a.utf8ByteSize + 1)
          line := t.place.line + (a.toList.count '\n' + 1)
          column := t.place.column } }) ↔
    ∀ t ∈ tokenize a, t.payload ≠ .fault .unterminatedString := by
  refine ⟨fun h t ht hs => ?_, tokenize_append⟩
  obtain ⟨us, hus, -⟩ := (layout_tokensFrom [] a.toList).eq_append_endAt
  have htokens : tokenize a = us ++ [.endAt (.behind ([] ++ a.toList))] := hus
  have hmem : t ∈ us := by
    rw [htokens] at ht
    rcases List.mem_append.mp ht with ht | ht
    · exact ht
    · obtain rfl := List.eq_of_mem_singleton ht
      exact nomatch hs
  obtain ⟨vs, ws, rfl⟩ := List.append_of_mem hmem
  -- a second string that is not closed would stand behind the first one
  have hquote : tokenize "\"" =
      [⟨.invalid, .fault .unterminatedString, .origin⟩, .endAt ⟨1, 0, 1⟩] := by decide +kernel
  have hjoined := h "\""
  rw [hquote, htokens, List.dropLast_concat, List.append_assoc, List.cons_append] at hjoined
  have hlength := (layout_tokensFrom [] (a ++ "\n" ++ "\"").toList).length_of_unterminated hjoined hs
  simp at hlength

end FrontEnd
