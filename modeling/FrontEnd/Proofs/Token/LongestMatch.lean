import FrontEnd.Proofs.Token.Respelling
import Mathlib.Data.List.Induction
import Mathlib.Data.Nat.Digits.Defs

/-! The classes of texts that a token is made of, in the order in which they are tried. The first
class of which a text stands at the head of what is left also has the longest one there. -/

namespace FrontEnd

inductive TokenClass where
  | symbol (kind : TokenKind)
  | digits | string | openString | word
deriving DecidableEq, Repr

namespace TokenClass

/-- Symbols are tried first, and of two of them the longer one. -/
def inOrder : List TokenClass :=
  TokenKind.symbols.map symbol ++ [digits, string, openString, word]

/-- A text of the class, with `rest` behind it. Only a string that is not closed depends on that. -/
inductive Matches : TokenClass → List Char → List Char → Prop
  | symbol {k : TokenKind} {rest : List Char} : Matches (.symbol k) k.spelling.toList rest
  | digits {ds rest : List Char} (hne : ds ≠ []) (hds : ∀ d ∈ ds, d.isDigit = true) :
      Matches .digits ds rest
  | string {cs rest : List Char} (h : '"' ∉ cs) : Matches .string ('"' :: (cs ++ ['"'])) rest
  | openString {cs : List Char} (h : '"' ∉ cs) : Matches .openString ('"' :: cs) []
  | word {c : Char} {cs rest : List Char} (hc : Lexeme.isWordStart c = true)
      (hcs : ∀ d ∈ cs, Lexeme.isWordPart d = true) : Matches .word (c :: cs) rest

/-- At the head of `ahead` stands `text`, which is of the class. -/
def Begins (q : TokenClass) (text ahead : List Char) : Prop :=
  ∃ rest, text ++ rest = ahead ∧ q.Matches text rest

/-- Of no class a text stands at the head of `ahead`. -/
def NoneBegins (ahead : List Char) : Prop := ∀ q ∈ inOrder, ∀ text, ¬ q.Begins text ahead

/-- No class that is tried before `q` has a text at the head of `ahead`, and none has one there that
is longer than `text`. -/
structure Wins (q : TokenClass) (text ahead : List Char) : Prop where
  begins : q.Begins text ahead
  first : ∃ before behind, inOrder = before ++ q :: behind ∧
    ∀ q' ∈ before, ∀ text', ¬ q'.Begins text' ahead
  longest : ∀ q' ∈ inOrder, ∀ text', q'.Begins text' ahead → text' <+: text

variable {q : TokenClass} {k : TokenKind} {c : Char} {cs text ahead : List Char}

theorem Wins.mem (h : q.Wins text ahead) : q ∈ inOrder := by
  obtain ⟨before, behind, hsplit, _⟩ := h.first
  simp [hsplit]

theorem forall_mem_inOrder {P : TokenClass → Prop} : (∀ q ∈ inOrder, P q) ↔
    (∀ k ∈ TokenKind.symbols, P (symbol k)) ∧ P digits ∧ P string ∧ P openString ∧ P word := by
  simp [inOrder, or_imp, forall_and]

theorem Begins.isPrefix (h : q.Begins text ahead) : text <+: ahead := by
  obtain ⟨rest, hrest, _⟩ := h
  exact ⟨rest, hrest⟩

theorem Begins.ne_nil (h : q.Begins text ahead) : text ≠ [] := by
  obtain ⟨rest, _, hmatches⟩ := h
  cases hmatches with
  | symbol => exact Lexeme.spelling_ne_nil _
  | digits hne _ => exact hne
  | _ => exact List.cons_ne_nil _ _

theorem noneBegins_nil : NoneBegins [] := fun _ _ _ h =>
  h.ne_nil (List.prefix_nil.mp h.isPrefix)

theorem symbol_begins_iff :
    (symbol k).Begins text ahead ↔ text = k.spelling.toList ∧ k.spelling.toList <+: ahead := by
  constructor
  · rintro ⟨rest, hrest, ⟨⟩⟩
    exact ⟨rfl, rest, hrest⟩
  · rintro ⟨rfl, rest, hrest⟩
    exact ⟨rest, hrest, .symbol⟩

theorem prefix_takeWhile {p : Char → Bool} (h : text <+: ahead) (ht : ∀ d ∈ text, p d = true) :
    text <+: ahead.takeWhile p := by
  obtain ⟨rest, rfl⟩ := h
  rw [List.takeWhile_append_of_pos ht]
  exact List.prefix_append _ _

theorem of_digits_begins (h : digits.Begins text (c :: cs)) :
    c.isDigit = true ∧ text <+: (c :: cs).takeWhile Char.isDigit := by
  have hspelled := h.isPrefix
  obtain ⟨rest, hrest, ⟨⟩ | ⟨hne, hds⟩⟩ := h
  obtain ⟨d, ds, rfl⟩ := List.exists_cons_of_ne_nil hne
  obtain ⟨rfl, _⟩ := List.cons.inj hrest
  exact ⟨hds _ List.mem_cons_self, prefix_takeWhile hspelled hds⟩

theorem of_word_begins (h : word.Begins text (c :: cs)) :
    Lexeme.isWordStart c = true ∧ text <+: (c :: cs).takeWhile Lexeme.isWordPart := by
  have hspelled := h.isPrefix
  obtain ⟨rest, hrest, ⟨⟩ | ⟨⟩ | ⟨⟩ | ⟨⟩ | ⟨hd, hds⟩⟩ := h
  obtain ⟨rfl, _⟩ := List.cons.inj hrest
  have hpart := Lexeme.isWordPart_of_isWordStart hd
  exact ⟨hd, prefix_takeWhile hspelled (List.forall_mem_cons.mpr ⟨hpart, hds⟩)⟩

theorem span_quote {content : List Char} (h : '"' ∉ content) (rest : List Char) :
    (content ++ '"' :: rest).takeWhile (· != '"') = content ∧
      (content ++ '"' :: rest).dropWhile (· != '"') = '"' :: rest := by
  have hall : ∀ d ∈ content, (d != '"') = true := by
    intro d hd
    rw [bne_iff_ne]
    rintro rfl
    exact h hd
  rw [List.takeWhile_append_of_pos hall, List.dropWhile_append_of_pos hall]
  simp

theorem of_string_begins (h : string.Begins text (c :: cs)) :
    c = '"' ∧ cs.dropWhile (· != '"') ≠ [] ∧ text = (Lexeme.ofQuote cs).text := by
  obtain ⟨rest, hrest, ⟨⟩ | ⟨⟩ | ⟨hcontent⟩⟩ := h
  obtain ⟨rfl, rfl⟩ := List.cons.inj hrest
  obtain ⟨htake, hdrop⟩ := span_quote hcontent rest
  simp [Lexeme.ofQuote, htake, hdrop]

theorem of_openString_begins (h : openString.Begins text (c :: cs)) :
    c = '"' ∧ cs.dropWhile (· != '"') = [] ∧ text = (Lexeme.ofQuote cs).text := by
  obtain ⟨rest, hrest, hmatches⟩ := h
  cases hmatches with
  | @openString content hcontent =>
    rw [List.append_nil] at hrest
    obtain ⟨rfl, rfl⟩ := List.cons.inj hrest
    have hdrop : content.dropWhile (· != '"') = [] := by
      refine List.dropWhile_eq_nil_iff.mpr fun d hd => ?_
      rw [bne_iff_ne]
      rintro rfl
      exact hcontent hd
    exact ⟨rfl, hdrop, by simp only [Lexeme.ofQuote, hdrop]⟩

theorem pairwise_symbols : TokenKind.symbols.Pairwise fun k l =>
    ¬ k.spelling.toList <+: l.spelling.toList := by decide

theorem not_symbol_begins (h : Lexeme.symbol? ahead = none) (hk : k ∈ TokenKind.symbols) :
    ¬ (symbol k).Begins text ahead := by
  intro hbegins
  obtain ⟨_, hspelled⟩ := symbol_begins_iff.mp hbegins
  have hnone := List.find?_eq_none.mp h k hk
  exact hnone (List.isPrefixOf_iff_prefix.mpr hspelled)

theorem symbol_wins (h : Lexeme.symbol? (c :: cs) = some k) :
    (symbol k).Wins k.spelling.toList (c :: cs) := by
  have hplain : Lexeme.isWordPart c = false ∧ c ≠ '"' := by
    refine ⟨Bool.eq_false_iff.mpr fun hc => ?_, fun hc => ?_⟩
    · cases h.symm.trans (Lexeme.symbol?_eq_none (.inl hc) cs)
    · cases h.symm.trans (Lexeme.symbol?_eq_none (.inr hc) cs)
  obtain ⟨hspelled, earlier, later, hsymbols, hearlier⟩ := List.find?_eq_some_iff_append.mp h
  have hspelled := List.isPrefixOf_iff_prefix.mp hspelled
  have hearlier {l : TokenKind} (hl : l ∈ earlier) (text : List Char) :
      ¬ (symbol l).Begins text (c :: cs) := by
    intro hbegins
    have hnot := hearlier l hl
    rw [List.isPrefixOf_iff_prefix.mpr (symbol_begins_iff.mp hbegins).2] at hnot
    cases hnot
  refine ⟨symbol_begins_iff.mpr ⟨rfl, hspelled⟩,
    ⟨earlier.map symbol, later.map symbol ++ [digits, string, openString, word], ?_, ?_⟩,
    forall_mem_inOrder.mpr ⟨fun l hl text hbegins => ?_, ?_, ?_, ?_, ?_⟩⟩
  · simp [inOrder, hsymbols]
  · rintro q hq text
    obtain ⟨l, hl, rfl⟩ := List.mem_map.mp hq
    exact hearlier hl text
  · obtain ⟨rfl, hl'⟩ := symbol_begins_iff.mp hbegins
    rw [hsymbols] at hl
    rcases List.mem_append.mp hl with hl | hl
    · exact absurd hbegins (hearlier hl _)
    · rcases List.mem_cons.mp hl with rfl | hl
      · exact List.prefix_rfl
      · have hordered := pairwise_symbols
        rw [hsymbols, List.pairwise_append, List.pairwise_cons] at hordered
        exact (List.prefix_or_prefix_of_prefix hl' hspelled).resolve_right (hordered.2.1.1 l hl)
  · intro text hbegins
    have hpart := Lexeme.isWordPart_of_isDigit (of_digits_begins hbegins).1
    exact absurd (hplain.1.symm.trans hpart) Bool.false_ne_true
  · exact fun text hbegins => absurd (of_string_begins hbegins).1 hplain.2
  · exact fun text hbegins => absurd (of_openString_begins hbegins).1 hplain.2
  · intro text hbegins
    have hpart := Lexeme.isWordPart_of_isWordStart (of_word_begins hbegins).1
    exact absurd (hplain.1.symm.trans hpart) Bool.false_ne_true

/-- Where one class only has texts at the head, none is tried before it with success. -/
theorem Begins.wins (h : q.Begins text ahead) (hq : q ∈ inOrder)
    (honly : ∀ q' ∈ inOrder, ∀ text', q'.Begins text' ahead → q' = q ∧ text' <+: text) :
    q.Wins text ahead := by
  obtain ⟨before, behind, hsplit, hbefore⟩ := List.eq_append_cons_of_mem hq
  refine ⟨h, ⟨before, behind, hsplit, fun q' hq' text' h' => ?_⟩,
    fun q' hq' text' h' => (honly q' hq' text' h').2⟩
  obtain ⟨rfl, _⟩ := honly q' (hsplit ▸ List.mem_append_left _ hq') text' h'
  exact hbefore hq'

theorem digits_wins (hc : c.isDigit = true) :
    digits.Wins ((c :: cs).takeWhile Char.isDigit) (c :: cs) := by
  have hpart := Lexeme.isWordPart_of_isDigit hc
  have hsymbol : Lexeme.symbol? (c :: cs) = none := Lexeme.symbol?_eq_none (.inl hpart) cs
  have hquote := Lexeme.ne_quote_of_isWordPart hpart
  have hbegins : digits.Begins ((c :: cs).takeWhile Char.isDigit) (c :: cs) :=
    ⟨_, List.takeWhile_append_dropWhile, .digits (by simp [hc]) fun _ => List.mem_takeWhile_imp⟩
  refine hbegins.wins (by simp [inOrder])
    (forall_mem_inOrder.mpr ⟨fun l hl text h => ?_, ?_, ?_, ?_, ?_⟩)
  · exact absurd h (not_symbol_begins hsymbol hl)
  · exact fun text h => ⟨rfl, (of_digits_begins h).2⟩
  · exact fun text h => absurd (of_string_begins h).1 hquote
  · exact fun text h => absurd (of_openString_begins h).1 hquote
  · intro text h
    have hword := Lexeme.not_isDigit_of_isWordStart (of_word_begins h).1
    exact absurd (hword.symm.trans hc) Bool.false_ne_true

theorem word_wins (hc : Lexeme.isWordStart c = true) :
    word.Wins ((c :: cs).takeWhile Lexeme.isWordPart) (c :: cs) := by
  have hpart := Lexeme.isWordPart_of_isWordStart hc
  have hsymbol : Lexeme.symbol? (c :: cs) = none := Lexeme.symbol?_eq_none (.inl hpart) cs
  have hquote := Lexeme.ne_quote_of_isWordPart hpart
  have hbegins : word.Begins ((c :: cs).takeWhile Lexeme.isWordPart) (c :: cs) := by
    rw [List.takeWhile_cons_of_pos hpart]
    refine ⟨cs.dropWhile Lexeme.isWordPart, ?_, .word hc fun _ => List.mem_takeWhile_imp⟩
    rw [List.cons_append, List.takeWhile_append_dropWhile]
  refine hbegins.wins (by simp [inOrder])
    (forall_mem_inOrder.mpr ⟨fun l hl text h => ?_, ?_, ?_, ?_, ?_⟩)
  · exact absurd h (not_symbol_begins hsymbol hl)
  · intro text h
    have hdigit := Lexeme.not_isDigit_of_isWordStart hc
    exact absurd (hdigit.symm.trans (of_digits_begins h).1) Bool.false_ne_true
  · exact fun text h => absurd (of_string_begins h).1 hquote
  · exact fun text h => absurd (of_openString_begins h).1 hquote
  · exact fun text h => ⟨rfl, (of_word_begins h).2⟩

/-- Of the two classes that begin with a quote, one only has a text at the head. -/
theorem Begins.wins_of_quote (h : q.Begins (Lexeme.ofQuote cs).text ('"' :: cs)) (hq : q ∈ inOrder)
    (hstring : cs.dropWhile (· != '"') ≠ [] → q = string)
    (hopen : cs.dropWhile (· != '"') = [] → q = openString) :
    q.Wins (Lexeme.ofQuote cs).text ('"' :: cs) := by
  have hsymbol : Lexeme.symbol? ('"' :: cs) = none := Lexeme.symbol?_eq_none (.inr rfl) cs
  refine h.wins hq (forall_mem_inOrder.mpr
    ⟨fun l hl text h => ?_, fun text h => ?_, fun text h => ?_, fun text h => ?_, fun text h => ?_⟩)
  · exact absurd h (not_symbol_begins hsymbol hl)
  · exact absurd (of_digits_begins h).1 (by decide)
  · obtain ⟨_, hdrop, rfl⟩ := of_string_begins h
    exact ⟨(hstring hdrop).symm, List.prefix_rfl⟩
  · obtain ⟨_, hdrop, rfl⟩ := of_openString_begins h
    exact ⟨(hopen hdrop).symm, List.prefix_rfl⟩
  · exact absurd (of_word_begins h).1 (by decide)

theorem quote_wins (cs : List Char) :
    ∃ q : TokenClass, q.Wins (Lexeme.ofQuote cs).text ('"' :: cs) := by
  by_cases hdrop : cs.dropWhile (· != '"') = []
  · have hcontent : '"' ∉ cs := fun h => by simpa using List.dropWhile_eq_nil_iff.mp hdrop _ h
    have hbegins : openString.Begins (Lexeme.ofQuote cs).text ('"' :: cs) := by
      simp only [Lexeme.ofQuote, hdrop]
      exact ⟨[], List.append_nil _, .openString hcontent⟩
    exact ⟨openString, hbegins.wins_of_quote (by simp [inOrder]) (absurd hdrop) fun _ => rfl⟩
  · have hcontent : '"' ∉ cs.takeWhile (· != '"') := fun h => by
      simpa using List.mem_takeWhile_imp h
    obtain ⟨d, rest, hrest⟩ := List.exists_cons_of_ne_nil hdrop
    have hd : d = '"' := by
      have hhead := List.head?_dropWhile_not (· != '"') cs
      simpa [hrest] using hhead
    have hsplit := List.takeWhile_append_dropWhile (p := (· != '"')) (l := cs)
    have hbegins : string.Begins (Lexeme.ofQuote cs).text ('"' :: cs) := by
      simp only [Lexeme.ofQuote, hrest]
      refine ⟨rest, ?_, .string hcontent⟩
      rw [hrest, hd] at hsplit
      simpa using hsplit
    exact ⟨string, hbegins.wins_of_quote (by simp [inOrder]) (fun _ => rfl) fun h => absurd h hdrop⟩

/-- Nothing else than symbols, digits, quotes and words begins a lexeme of a class. -/
theorem noneBegins_of_plain (hsymbol : Lexeme.symbol? (c :: cs) = none)
    (hdigit : ¬ c.isDigit = true) (hquote : c ≠ '"') (hword : ¬ Lexeme.isWordStart c = true) :
    NoneBegins (c :: cs) :=
  forall_mem_inOrder.mpr ⟨fun _ hl _ => not_symbol_begins hsymbol hl,
    fun _ h => hdigit (of_digits_begins h).1, fun _ h => hquote (of_string_begins h).1,
    fun _ h => hquote (of_openString_begins h).1, fun _ h => hword (of_word_begins h).1⟩

end TokenClass

theorem Spelling.text_of_symbol {k : TokenKind} {p : Payload} {text rest : List Char}
    (h : Spelling k p text rest) (hk : k ∈ TokenKind.symbols) : text = k.spelling.toList := by
  cases h with
  | fixed _ => rfl
  | _ => exact absurd hk (by decide)

namespace Lexeme

open TokenClass

variable {c : Char} {cs : List Char} {k : TokenKind}

theorem decimal_eq_ofDigits (ds : List Char) :
    decimal ds = Nat.ofDigits 10 (ds.reverse.map fun c => c.toNat - '0'.toNat) := by
  induction ds using List.reverseRecOn with
  | nil => rfl
  | append_singleton ds c ih =>
    rw [List.reverse_append, List.reverse_singleton, List.singleton_append, List.map_cons,
      Nat.ofDigits_cons, ← ih, decimal, List.foldl_append]
    exact Nat.add_comm _ _

/-- The lexeme at the head is of the class that wins there, or of none. -/
theorem atHead_cases (c : Char) (cs : List Char) :
    (∃ q : TokenClass, q.Wins (atHead c cs).text (c :: cs)) ∧
        (∀ x, (atHead c cs).payload ≠ .fault (.unrecognised x)) ∨
      NoneBegins (c :: cs) ∧
        atHead c cs = ⟨.invalid, .fault (.unrecognised (String.singleton c)), [c]⟩ := by
  cases hsymbol : symbol? (c :: cs) with
  | some k =>
    simp only [atHead, hsymbol]
    exact .inl ⟨⟨_, symbol_wins hsymbol⟩, fun x => by simp⟩
  | none =>
    by_cases hdigit : c.isDigit = true
    · rw [atHead_of_isDigit hdigit, text_ofDigits]
      refine .inl ⟨⟨_, digits_wins hdigit⟩, fun x => ?_⟩
      unfold ofDigits
      split <;> simp
    · by_cases hword : isWordStart c = true
      · rw [atHead_of_isWordStart hword, text_ofWord]
        refine .inl ⟨⟨_, word_wins hword⟩, fun x => ?_⟩
        unfold ofWord
        split <;> simp
      · simp only [atHead, hsymbol, hdigit, hword, if_false, Bool.false_eq_true]
        by_cases hquote : c = '"'
        · subst hquote
          refine .inl ⟨quote_wins cs, fun x => ?_⟩
          simp only [if_true, ofQuote]
          split <;> simp
        · rw [if_neg hquote]
          exact .inr ⟨noneBegins_of_plain hsymbol hdigit hquote hword, rfl⟩

theorem kind_ofWord_iff (hk : k ∈ TokenKind.words) (cs : List Char) :
    (ofWord cs).kind = k ↔ cs = k.spelling.toList := by
  unfold ofWord
  constructor
  · intro h
    split at h
    next l hl =>
      obtain rfl : l = k := h
      rw [(TokenKind.mem_words_of_reserved? hl).2, String.toList_ofList]
    next =>
      obtain rfl : .identifier = k := h
      exact absurd hk (by decide)
  · rintro rfl
    rw [String.ofList_toList, TokenKind.reserved?_spelling hk]

theorem exists_of_kind_ofWord (h : (ofWord cs).kind ∉ TokenKind.words) :
    (ofWord cs).kind = .identifier ∧ ∀ k ∈ TokenKind.words, cs ≠ k.spelling.toList := by
  refine ⟨?_, fun k hk hcs => h (by rwa [(kind_ofWord_iff hk cs).mpr hcs])⟩
  unfold ofWord at h ⊢
  split at h
  next l hl => exact absurd (TokenKind.mem_words_of_reserved? hl).1 h
  next => rfl

theorem head_words (hk : k ∈ TokenKind.words) (h : k.spelling.toList <+: c :: cs) :
    isWordStart c = true := by
  have hheads : ∀ k ∈ TokenKind.words, k.spelling.toList.head?.any isWordStart = true := by decide
  obtain ⟨d, ds, hspelling⟩ := List.exists_cons_of_ne_nil (spelling_ne_nil k)
  have hhead := hheads k hk
  rw [hspelling] at h hhead
  obtain ⟨rfl, _⟩ := List.cons_prefix_cons.mp h
  exact hhead

theorem isWordStart_of_kind (h : (atHead c cs).kind ∈ .identifier :: TokenKind.words) :
    isWordStart c = true := by
  obtain ⟨rest, hsplit, hspelling⟩ := Spelling.of_atHead c cs
  generalize (atHead c cs).text = text, (atHead c cs).payload = p,
    (atHead c cs).kind = k at h hsplit hspelling
  cases hspelling with
  | fixed hfixed =>
    rcases hfixed with hfixed | hfixed
    · exact absurd h ((by decide : ∀ k ∈ TokenKind.symbols,
        k ∉ .identifier :: TokenKind.words) k hfixed)
    · exact head_words hfixed ⟨rest, hsplit⟩
  | name hc _ _ =>
    obtain ⟨rfl, _⟩ := List.cons.inj hsplit
    exact hc
  | _ => exact absurd h (by decide)

/-- The whole run of word characters decides whether a word is reserved. -/
theorem kind_atHead_iff (hk : k ∈ TokenKind.words) : (atHead c cs).kind = k ↔
    (c :: cs).takeWhile isWordPart = k.spelling.toList := by
  constructor
  · intro h
    have hc : isWordStart c = true := isWordStart_of_kind (h ▸ List.mem_cons_of_mem _ hk)
    rw [atHead_of_isWordStart hc] at h
    exact (kind_ofWord_iff hk _).mp h
  · intro h
    have hc : isWordStart c = true := head_words hk (h ▸ List.takeWhile_prefix _)
    rw [atHead_of_isWordStart hc]
    exact (kind_ofWord_iff hk _).mpr h

theorem kind_atHead_eq_identifier_iff : (atHead c cs).kind = .identifier ↔ isWordStart c = true ∧
    ∀ k ∈ TokenKind.words, (c :: cs).takeWhile isWordPart ≠ k.spelling.toList := by
  constructor
  · intro h
    have hc : isWordStart c = true := isWordStart_of_kind (by rw [h]; exact List.mem_cons_self)
    rw [atHead_of_isWordStart hc] at h
    exact ⟨hc, (exists_of_kind_ofWord (by rw [h]; decide)).2⟩
  · rintro ⟨hc, hfree⟩
    rw [atHead_of_isWordStart hc]
    refine (exists_of_kind_ofWord fun hk => hfree _ hk ?_).1
    exact (kind_ofWord_iff hk _).mp rfl

/-- Behind a symbol there is no character that makes it a longer symbol. -/
theorem not_extended {l : TokenKind} (hk : k ∈ TokenKind.symbols) (hl : l ∈ TokenKind.symbols)
    {d : Char} (hlonger : l.spelling.toList = k.spelling.toList ++ [d])
    (h : (atHead c cs).kind = k) {rest : List Char}
    (hsplit : (atHead c cs).text ++ rest = c :: cs) : d ∉ rest.head? := by
  have htext : (atHead c cs).text = k.spelling.toList := by
    obtain ⟨_, _, hspelling⟩ := Spelling.of_atHead c cs
    exact (h ▸ hspelling).text_of_symbol hk
  intro hd
  obtain ⟨tail, rfl⟩ := List.head?_eq_some_iff.mp hd
  rcases atHead_cases c cs with ⟨⟨q, hq⟩, _⟩ | ⟨_, hplain⟩
  · have hbegins : (symbol l).Begins l.spelling.toList (c :: cs) :=
      symbol_begins_iff.mpr ⟨rfl, tail, by rw [← hsplit, hlonger, htext]; simp⟩
    have hspelled := hq.longest _ (by simp [inOrder, hl]) _ hbegins
    have hlength := hspelled.length_le
    rw [hlonger, htext, List.length_append] at hlength
    simp at hlength
  · obtain rfl : .invalid = k := (congrArg Lexeme.kind hplain).symm.trans h
    exact absurd hk (by decide)

end Lexeme

open TokenClass in
/-- The token of the scan `s` is taken off the head of the text `ahead` that a gap leaves. -/
structure Scan.Takes (s : Scan) (text ahead : List Char) : Prop where
  split : text ++ s.rest = ahead
  place : s.place = s.token.place.afterAll text
  ended : s.token.kind = .eof ↔ ahead = []
  wins : ¬ NoneBegins ahead → ∃ q : TokenClass, q.Wins text ahead
  unrecognised : (∃ x, s.token.payload = .fault (.unrecognised x)) ↔ ahead ≠ [] ∧ NoneBegins ahead
  single : ∀ x, s.token.payload = .fault (.unrecognised x) →
    s.token.kind = .invalid ∧ ∃ c, text = [c] ∧ x = String.singleton c
  assign : s.token.kind = .assign → '=' ∉ s.rest.head?
  bang : s.token.kind = .bang → '=' ∉ s.rest.head?
  minus : s.token.kind = .minus → '>' ∉ s.rest.head?
  word : (∃ c ∈ ahead.head?, Lexeme.isWordStart c = true) → text = ahead.takeWhile Lexeme.isWordPart
  reserved : ∀ k ∈ TokenKind.words,
    (s.token.kind = k ↔ ahead.takeWhile Lexeme.isWordPart = k.spelling.toList)
  identifier : s.token.kind = .identifier ↔ (∃ c ∈ ahead.head?, Lexeme.isWordStart c = true) ∧
    ∀ k ∈ TokenKind.words, ahead.takeWhile Lexeme.isWordPart ≠ k.spelling.toList
  number : (∃ c ∈ ahead.head?, c.isDigit = true) → text = ahead.takeWhile Char.isDigit ∧
    ∃ v : Nat, v = Nat.ofDigits 10 (text.reverse.map fun c => c.toNat - '0'.toNat) ∧
      (s.token.kind, s.token.payload) = if v < 2 ^ 63 then (.number, .int v)
        else (.invalid, .fault (.numberTooLarge (String.ofList text)))
  unterminated : s.token.payload = .fault .unterminatedString → s.rest = []

theorem Scan.takes_nil (p : Position) : Scan.Takes ⟨.endAt p, p, []⟩ [] [] where
  split := rfl
  place := rfl
  ended := by simp
  wins h := absurd TokenClass.noneBegins_nil h
  unrecognised := by simp [Token.endAt]
  single := nofun
  assign := nofun
  bang := nofun
  minus := nofun
  word := nofun
  reserved k hk := by
    refine iff_of_false (fun h => ?_) (Lexeme.spelling_ne_nil k).symm
    obtain rfl : .eof = k := h
    exact absurd hk (by decide)
  identifier := by simp
  number := nofun
  unterminated := nofun

theorem Scan.takes_cons (p : Position) (c : Char) (cs : List Char) :
    Scan.Takes ⟨⟨(Lexeme.atHead c cs).kind, (Lexeme.atHead c cs).payload, p⟩,
      p.afterAll (Lexeme.atHead c cs).text, (c :: cs).drop (Lexeme.atHead c cs).text.length⟩
      (Lexeme.atHead c cs).text (c :: cs) := by
  obtain ⟨rest, hsplit, hspelling⟩ := Spelling.of_atHead c cs
  have hdrop : (c :: cs).drop (Lexeme.atHead c cs).text.length = rest := by
    rw [← hsplit, List.drop_left]
  rw [hdrop]
  refine {
    split := hsplit, place := rfl
    ended := iff_of_false hspelling.kind_ne_eof (List.cons_ne_nil c cs)
    wins := fun h => ?_, unrecognised := ?_, single := fun x hx => ?_
    assign := fun h => Lexeme.not_extended (l := .equals) (by decide) (by decide) rfl h hsplit
    bang := fun h => Lexeme.not_extended (l := .notEquals) (by decide) (by decide) rfl h hsplit
    minus := fun h => Lexeme.not_extended (l := .arrow) (by decide) (by decide) rfl h hsplit
    word := ?_, reserved := fun k hk => Lexeme.kind_atHead_iff hk
    identifier := by simpa using Lexeme.kind_atHead_eq_identifier_iff
    number := ?_, unterminated := fun h => ?_ }
  · rcases Lexeme.atHead_cases c cs with ⟨hwins, _⟩ | ⟨hnone, _⟩
    · exact hwins
    · exact absurd hnone h
  · rcases Lexeme.atHead_cases c cs with ⟨⟨q, hq⟩, hvalid⟩ | ⟨hnone, hhead⟩
    · refine iff_of_false (fun ⟨x, hx⟩ => hvalid x hx) fun ⟨_, hnone⟩ => ?_
      exact hnone q hq.mem _ hq.begins
    · exact iff_of_true ⟨_, by rw [hhead]⟩ ⟨List.cons_ne_nil c cs, hnone⟩
  · rcases Lexeme.atHead_cases c cs with ⟨_, hvalid⟩ | ⟨_, hhead⟩
    · exact absurd hx (hvalid x)
    · rw [hhead] at hx ⊢
      exact ⟨rfl, c, rfl, by simpa using hx.symm⟩
  · rintro ⟨d, hd, hstart⟩
    obtain rfl : c = d := Option.some.inj hd
    rw [Lexeme.atHead_of_isWordStart hstart, Lexeme.text_ofWord]
  · rintro ⟨d, hd, hdigit⟩
    obtain rfl : c = d := Option.some.inj hd
    rw [Lexeme.atHead_of_isDigit hdigit, Lexeme.text_ofDigits]
    refine ⟨rfl, _, Lexeme.decimal_eq_ofDigits _, ?_⟩
    unfold Lexeme.ofDigits
    split
    next hbound => exact (if_pos hbound).symm
    next hbound => exact (if_neg hbound).symm
  · have hpayload : (Lexeme.atHead c cs).payload = .fault .unterminatedString := h
    rw [hpayload] at hspelling
    exact hspelling.of_unterminated.2

/-- Whatever the text is, one scan takes the longest text that some class has behind the gap. -/
theorem takes_scan (p : Position) (cs : List Char) :
    ∃ text, (scan p cs).Takes text (splitTrivia false cs).2 := by
  unfold scan
  generalize splitTrivia false cs = trivia
  obtain ⟨skipped, rest⟩ := trivia
  cases rest with
  | nil => exact ⟨[], Scan.takes_nil _⟩
  | cons c rest => exact ⟨_, Scan.takes_cons _ c rest⟩

theorem exists_scan_of_mem {front cs : List Char} {t : Token}
    (ht : t ∈ tokensFrom (.behind front) cs) :
    ∃ front' rest, front' ++ rest = front ++ cs ∧ (scan (.behind front') rest).token = t := by
  induction hn : cs.length using Nat.strong_induction_on generalizing front cs with
  | _ n ih =>
    rw [tokensFrom] at ht
    rcases scan_cases front cs with ⟨gap, _, _, hscan⟩ |
      ⟨gap, text, rest, k, p, rfl, _, hspelling, hscan⟩
    · simp only [hscan, Token.kind_endAt, dif_pos, List.mem_singleton] at ht
      exact ⟨front, cs, rfl, by rw [hscan, ht]⟩
    · simp only [hscan, hspelling.kind_ne_eof, dif_neg, not_false_eq_true, List.mem_cons] at ht
      rcases ht with rfl | ht
      · exact ⟨front, _, rfl, by rw [hscan]⟩
      · have hlength := List.length_pos_iff.mpr hspelling.text_ne_nil
        obtain ⟨front', rest', hsplit, hscan'⟩ :=
          ih rest.length (by simp only [← hn, List.length_append]; omega) ht rfl
        exact ⟨front', rest', by simpa using hsplit, hscan'⟩

/-- Wherever a token is scanned, the class that is tried first with success has the longest text of
all classes there, and that text becomes the token. Only a string that is not closed takes all that
is left, so it is the last token before the end. -/
theorem scan_takes_longest :
    (∀ p cs, ∃ text, (scan p cs).Takes text (splitTrivia false cs).2) ∧
    (∀ source, ∀ t ∈ tokenize source, ∃ front rest, front ++ rest = source.toList ∧
      (scan (.behind front) rest).token = t) ∧
    ∀ source us t vs, tokenize source = us ++ t :: vs →
      t.payload = .fault .unterminatedString → vs = [.endAt (.behind source.toList)] := by
  refine ⟨takes_scan, fun source t ht => ?_, fun source us t vs hts hs => ?_⟩
  · have ht : t ∈ tokensFrom (.behind []) source.toList := ht
    simpa using exists_scan_of_mem ht
  · have hlayout : Layout [] source.toList (tokenize source) := layout_tokensFrom [] source.toList
    have hlength := hlayout.length_of_unterminated hts hs
    obtain ⟨ws, hws, _⟩ := hlayout.eq_append_endAt
    obtain ⟨v, rfl⟩ := List.length_eq_one_iff.mp hlength
    have hlast : us ++ [t] ++ [v] = ws ++ [.endAt (.behind ([] ++ source.toList))] := by
      rw [← hws, hts, List.append_assoc, List.singleton_append]
    exact (List.append_inj' hlast rfl).2

theorem scan_takes_longest_of_open_string :
    (∃ text, (scan ⟨2, 0, 2⟩ "=\"=".toList).Takes text "=\"=".toList) ∧
      tokenize "!==\"=" = [⟨.notEquals, .none, ⟨0, 0, 0⟩⟩, ⟨.assign, .none, ⟨2, 0, 2⟩⟩] ++
        ⟨.invalid, .fault .unterminatedString, ⟨3, 0, 3⟩⟩ :: [.endAt ⟨5, 0, 5⟩] ∧
      [Token.endAt ⟨5, 0, 5⟩] = [.endAt (.behind "!==\"=".toList)] := by
  have htokens : tokenize "!==\"=" =
      [⟨.notEquals, .none, ⟨0, 0, 0⟩⟩, ⟨.assign, .none, ⟨2, 0, 2⟩⟩] ++
        ⟨.invalid, .fault .unterminatedString, ⟨3, 0, 3⟩⟩ :: [.endAt ⟨5, 0, 5⟩] := by
    decide +kernel
  exact ⟨scan_takes_longest.1 _ _, htokens, scan_takes_longest.2.2 _ _ _ _ htokens rfl⟩

end FrontEnd
