import FrontEnd.Proofs.Token.Inserting

/-! Other words in place of some of the names of a text. The text is read as before, with the new
word for each of these names. -/

namespace FrontEnd

/-- The word can be written as a name: it is read as one, and as nothing less. -/
def IsName (word : String) : Prop :=
  Lexeme.first? word.toList = some ⟨.identifier, .text word, word.toList⟩

instance (word : String) : Decidable (IsName word) := inferInstanceAs (Decidable (_ = _))

/-- The text that begins at `p`, without the first characters that are to be skipped, and with the
word in place of so many characters at each of the places. -/
def replaceFrom (places : List Position) (length : Nat) (word : List Char) :
    Nat → Position → List Char → List Char
  | _, _, [] => []
  | skip + 1, p, c :: cs => replaceFrom places length word skip (p.after c) cs
  | 0, p, c :: cs =>
    if p ∈ places then word ++ replaceFrom places length word (length - 1) (p.after c) cs
    else c :: replaceFrom places length word 0 (p.after c) cs

/-- The source with the word `new` in place of the word `old` at each of the places. -/
def replaceAt (places : List Position) (old new source : String) : String :=
  String.ofList (replaceFrom places old.length new.toList 0 .origin source.toList)

/-- The token with the text `n`, if it carries the text `old` and stands at one of the places. -/
def Token.respell (places : List Position) (old n : String) (k : Token) : Token :=
  if k.payload = .text old ∧ k.place ∈ places then { k with payload := .text n } else k

namespace Token

variable {places : List Position} {old n : String} {k : Token}

theorem payload_of_text_ne (h : k.text ≠ "") : k.payload = .text k.text := by
  unfold text at h ⊢
  split at h
  next hk => rw [hk]
  next => exact absurd rfl h

theorem respell_of_mem (hk : k.payload = .text old) (hplace : k.place ∈ places) :
    k.respell places old n = { k with payload := .text n } := if_pos ⟨hk, hplace⟩

theorem respell_of_not_mem (hplace : k.place ∉ places) : k.respell places old n = k :=
  if_neg fun h => hplace h.2

end Token

namespace Lexeme

variable {c : Char} {cs rest : List Char} {word : String}

theorem atHead_of_identifier (h : (atHead c cs).kind = .identifier) : isWordStart c = true ∧
    atHead c cs = ⟨.identifier, .text (String.ofList ((c :: cs).takeWhile isWordPart)),
      (c :: cs).takeWhile isWordPart⟩ := by
  have hword : isWordStart c = true := by
    by_contra hword
    unfold atHead at h
    split at h
    next k hk =>
      have hsymbols : .identifier ∉ TokenKind.symbols := by decide
      exact hsymbols (h ▸ List.mem_of_find?_eq_some hk)
    next =>
      simp only [hword, if_false] at h
      split at h
      next =>
        unfold ofDigits at h
        split at h <;> exact nomatch h
      next =>
        split at h
        next =>
          unfold ofQuote at h
          dsimp only at h
          split at h <;> exact nomatch h
        next => exact nomatch h
  refine ⟨hword, ?_⟩
  rw [atHead_of_isWordStart hword] at h ⊢
  unfold ofWord at h ⊢
  split
  next k hk =>
    have hwords : .identifier ∉ TokenKind.words := by decide
    simp only [hk] at h
    exact absurd (h ▸ (TokenKind.mem_words_of_reserved? hk).1) hwords
  next => rfl

end Lexeme

open Lexeme

section Words

variable {c : Char} {cs rest : List Char} {word : String} (p : Position)

theorem tokensFrom_of_identifier (h : (atHead c cs).kind = .identifier) :
    tokensFrom p (c :: cs) =
      ⟨.identifier, .text (String.ofList ((c :: cs).takeWhile isWordPart)), p⟩ ::
        tokensFrom (p.afterAll ((c :: cs).takeWhile isWordPart))
          ((c :: cs).dropWhile isWordPart) := by
  have hhead := (atHead_of_identifier h).2
  exact tokensFrom_of_lexeme p hhead List.takeWhile_append_dropWhile.symm
    TokenKind.noConfusion TokenKind.noConfusion

theorem IsName.exists_cons (h : IsName word) : ∃ c cs, word.toList = c :: cs ∧
    isWordStart c = true ∧ atHead c cs = ⟨.identifier, .text word, c :: cs⟩ := by
  unfold IsName at h
  cases hword : word.toList with
  | nil => rw [hword] at h; exact nomatch h
  | cons c cs =>
    rw [hword] at h
    have hhead := Option.some.inj h
    exact ⟨c, cs, rfl, (atHead_of_identifier (congrArg Lexeme.kind hhead)).1, hhead⟩

/-- A name is read where it is written if no character of a word follows. -/
theorem IsName.tokensFrom_eq (h : IsName word) (hrest : ∀ d ∈ rest.head?, isWordPart d = false) :
    tokensFrom p (word.toList ++ rest) =
      ⟨.identifier, .text word, p⟩ :: tokensFrom (p.afterAll word.toList) rest := by
  obtain ⟨c, cs, hword, hstart, hhead⟩ := h.exists_cons
  have htake : (c :: cs).takeWhile isWordPart = c :: cs := by
    have hname := (atHead_of_identifier (congrArg Lexeme.kind hhead)).2
    exact (congrArg Lexeme.text (hhead.symm.trans hname)).symm
  have hstop : rest.takeWhile isWordPart = [] := by
    cases rest with
    | nil => rfl
    | cons d ds =>
      have hd := hrest d rfl
      rw [List.takeWhile_cons_of_neg (by rw [hd]; decide)]
  have hboth : (c :: (cs ++ rest)).takeWhile isWordPart = c :: cs := by
    have hall := List.takeWhile_eq_self_iff.mp htake
    rw [← List.cons_append, List.takeWhile_append_of_pos hall, hstop, List.append_nil]
  have hhead' : atHead c (cs ++ rest) = ⟨.identifier, .text word, c :: cs⟩ := by
    rw [atHead_of_isWordStart hstart, hboth, ← htake, ← atHead_of_isWordStart hstart, hhead, htake]
  rw [hword, List.cons_append]
  exact tokensFrom_of_lexeme p hhead' rfl TokenKind.noConfusion TokenKind.noConfusion

end Words

section Replacing

variable {places : List Position} {length : Nat} {word : List Char} {p : Position}
  {c : Char} {cs : List Char}

theorem replaceFrom_skip (n : Nat) (p : Position) (cs : List Char) :
    replaceFrom places length word n p cs =
      replaceFrom places length word 0 (p.afterAll (cs.take n)) (cs.drop n) := by
  induction n generalizing p cs with
  | zero => rfl
  | succ n ih =>
    cases cs with
    | nil => rfl
    | cons c cs => exact ih (p.after c) cs

/-- A stretch of text in which no place is chosen stays as it is. -/
theorem replaceFrom_append {before : List Char}
    (h : ∀ q ∈ places, p.offset ≤ q.offset → (p.afterAll before).offset ≤ q.offset)
    (cs : List Char) : replaceFrom places length word 0 p (before ++ cs) =
      before ++ replaceFrom places length word 0 (p.afterAll before) cs := by
  induction before generalizing p with
  | nil => rfl
  | cons b before ih =>
    have hfirst : p ∉ places := by
      intro hp
      have hlt := p.offset_lt_afterAll (List.cons_ne_nil b before)
      have hle := h p hp (Nat.le_refl _)
      omega
    have hnext : p.offset ≤ (p.after b).offset := p.offset_le_afterAll [b]
    rw [List.cons_append, replaceFrom, if_neg hfirst,
      ih fun q hq hle => h q hq (hnext.trans hle)]
    rfl

theorem replaceFrom_of_mem (hp : p ∈ places) (hlength : 0 < length) :
    replaceFrom places length word 0 p (c :: cs) =
      word ++ replaceFrom places length word 0 (p.afterAll ((c :: cs).take length))
        ((c :: cs).drop length) := by
  obtain ⟨n, rfl⟩ := Nat.exists_eq_add_of_lt hlength
  rw [replaceFrom, if_pos hp, replaceFrom_skip]
  simp only [Nat.zero_add, Nat.add_sub_cancel, List.take_succ_cons, List.drop_succ_cons]
  rfl

end Replacing

section Names

variable {front cs : List Char} {t : Token}

theorem Spelling.exists_word {payload : Payload} {text rest : List Char}
    (h : Spelling .identifier payload text rest) :
    ∃ c cs, text = c :: cs ∧ isWordStart c = true := by
  cases h with
  | fixed h => exact absurd h (by decide)
  | name hc _ _ => exact ⟨_, _, rfl, hc⟩

/-- Where the name `t` stands in the text `cs` behind `front`. The tokens in front of it are the
same with every other word in its place. -/
structure NameIn (front cs : List Char) (t : Token) where
  before : List Char
  rest : List Char
  tokens : List Token
  text_eq : cs = before ++ (t.text.toList ++ rest)
  word : ∃ c cs, t.text.toList = c :: cs ∧ isWordStart c = true
  place_eq : t.place = .behind (front ++ before)
  stop : ∀ d ∈ rest.head?, isWordPart d = false
  tokens_eq : tokensFrom (.behind front) cs =
    tokens ++ t :: tokensFrom (.behind (front ++ (before ++ t.text.toList))) rest
  again (a : Char) (ds : List Char) : isWordStart a = true →
    tokensFrom (.behind front) (before ++ a :: ds) = tokens ++ tokensFrom t.place (a :: ds)

theorem NameIn.text_ne (N : NameIn front cs t) : t.text ≠ "" := by
  obtain ⟨c, ds, htext, -⟩ := N.word
  rintro hempty
  rw [hempty] at htext
  exact nomatch htext

theorem NameIn.afterAll_before (N : NameIn front cs t) :
    (Position.behind front).afterAll N.before = t.place := by
  rw [Position.afterAll_behind, N.place_eq]

/-- Up to the first name that is replaced the text stays as it is. -/
theorem NameIn.replaceFrom_eq (N : NameIn front cs t) {places : List Position}
    (hplace : t.place ∈ places)
    (hfirst : ∀ q ∈ places, (Position.behind front).offset ≤ q.offset →
      t.place.offset ≤ q.offset) (word : List Char) :
    replaceFrom places t.text.length word 0 (.behind front) cs = N.before ++ (word ++
      replaceFrom places t.text.length word 0
        (.behind (front ++ (N.before ++ t.text.toList))) N.rest) := by
  obtain ⟨c, ds, hname, -⟩ := N.word
  have hlength : t.text.length = (c :: ds).length := by rw [← hname, String.length_toList]
  have hbehind : t.place.afterAll (c :: ds) =
      .behind (front ++ (N.before ++ t.text.toList)) := by
    rw [hname, N.place_eq, Position.afterAll_behind, List.append_assoc]
  have htake : (c :: (ds ++ N.rest)).take t.text.length = c :: ds := by
    rw [hlength, ← List.cons_append, List.take_left]
  have hdrop : (c :: (ds ++ N.rest)).drop t.text.length = N.rest := by
    rw [hlength, ← List.cons_append, List.drop_left]
  conv => lhs; rw [N.text_eq]
  rw [replaceFrom_append (by rwa [N.afterAll_before]), N.afterAll_before, hname, List.cons_append,
    replaceFrom_of_mem hplace (by rw [hlength]; exact Nat.succ_pos _), htake, hdrop, hbehind, hname]

/-- The tokens in front of the first name that is replaced are not respelled. -/
theorem NameIn.respell_of_mem_tokens (N : NameIn front cs t) {places : List Position}
    (hfirst : ∀ q ∈ places, (Position.behind front).offset ≤ q.offset →
      t.place.offset ≤ q.offset) (old n : String) {u : Token} (hu : u ∈ N.tokens) :
    u.respell places old n = u := by
  refine Token.respell_of_not_mem fun hp => ?_
  have hpairwise := pairwise_offset_tokensFrom (.behind front) cs
  rw [N.tokens_eq] at hpairwise
  have hlt := (List.pairwise_append.mp hpairwise).2.2 u hu t List.mem_cons_self
  have hmem : u ∈ tokensFrom (.behind front) cs := by
    rw [N.tokens_eq]
    exact List.mem_append_left _ hu
  have hle := hfirst u.place hp (offset_le_of_mem_tokensFrom hmem)
  omega

theorem exists_nameIn (ht : t ∈ tokensFrom (.behind front) cs) (hk : t.kind = .identifier) :
    Nonempty (NameIn front cs t) := by
  obtain ⟨before, text, rest, rfl, hplace, hspelling⟩ :=
    (layout_tokensFrom front cs).exists_spelling_of_mem ht (by rw [hk]; exact TokenKind.noConfusion)
  rw [hk] at hspelling
  obtain ⟨c, text, rfl, hc⟩ := hspelling.exists_word
  rw [List.cons_append] at ht ⊢
  have hstart : (Position.behind front).afterAll before = t.place := by
    rw [Position.afterAll_behind, hplace]
  obtain ⟨us, hus⟩ := exists_tokens_before hc ⟨t, ht, by rw [hstart]⟩
  rw [hstart] at hus
  -- the name is the first token of the text that begins with it
  have hscan : (scan t.place (c :: (text ++ rest))).token =
      ⟨(atHead c (text ++ rest)).kind, (atHead c (text ++ rest)).payload, t.place⟩ := by
    rw [scan, splitTrivia_word hc]
    rfl
  obtain ⟨vs, hvs⟩ := exists_tokensFrom_eq_cons t.place (c :: (text ++ rest))
  have hself : (scan t.place (c :: (text ++ rest))).token = t := by
    refine eq_of_mem_tokensFrom (p := .behind front) ?_ ht (by rw [hscan])
    rw [hus c _ hc, hvs]
    exact List.mem_append_right _ List.mem_cons_self
  have hkind : (atHead c (text ++ rest)).kind = .identifier :=
    ((congrArg Token.kind (hscan.symm.trans hself)).trans hk)
  have htokens := tokensFrom_of_identifier t.place hkind
  have htoken := List.cons.inj (hvs.symm.trans htokens)
  rw [hself] at htoken
  have hname : t.text.toList = (c :: (text ++ rest)).takeWhile isWordPart := by
    rw [htoken.1, Token.text, String.toList_ofList]
  have hpart := isWordPart_of_isWordStart hc
  refine ⟨⟨before, (c :: (text ++ rest)).dropWhile isWordPart, us, ?_, ?_, hplace, ?_, ?_, hus⟩⟩
  · rw [hname, List.takeWhile_append_dropWhile]
  · rw [hname, List.takeWhile_cons_of_pos hpart]
    exact ⟨c, _, rfl, hc⟩
  · intro d hd
    have hhead := List.head?_dropWhile_not isWordPart (c :: (text ++ rest))
    rw [Option.mem_def.mp hd] at hhead
    simpa using hhead
  · rw [hus c _ hc, htokens, ← htoken.1, ← hname, hplace, Position.afterAll_behind,
      List.append_assoc]

end Names

/-- At each of the places behind `front` the name `old` stands. -/
def StandsAt (places : List Position) (old : String) (front cs : List Char) : Prop :=
  ∀ q ∈ places, (Position.behind front).offset ≤ q.offset →
    ∃ t ∈ tokensFrom (.behind front) cs, t.place = q ∧ t.kind = .identifier ∧ t.text = old

namespace StandsAt

variable {places : List Position} {old n : String} {front cs : List Char} {t : Token}

/-- Behind one of the names the others still stand. -/
theorem behind (h : StandsAt places old front cs) (N : NameIn front cs t) :
    StandsAt places old (front ++ (N.before ++ t.text.toList)) N.rest := by
  intro q hq hle
  have hfront : (Position.behind front).offset ≤
      (Position.behind (front ++ (N.before ++ t.text.toList))).offset := by
    rw [← Position.afterAll_behind]
    exact Position.offset_le_afterAll _ _
  obtain ⟨u, hu, rfl, hkind, htext⟩ := h q hq (hfront.trans hle)
  have hname : t.place.offset <
      (Position.behind (front ++ (N.before ++ t.text.toList))).offset := by
    rw [N.place_eq, ← List.append_assoc, ← Position.afterAll_behind (front ++ N.before)]
    exact Position.offset_lt_afterAll _ (by simpa using N.text_ne)
  have hpairwise := pairwise_offset_tokensFrom (.behind front) cs
  rw [N.tokens_eq] at hu hpairwise
  obtain ⟨-, -, hbefore⟩ := List.pairwise_append.mp hpairwise
  rcases List.mem_append.mp hu with hu | hu
  · have hlt := hbefore u hu t List.mem_cons_self
    omega
  · rcases List.mem_cons.mp hu with rfl | hu
    · omega
    · exact ⟨u, hu, rfl, hkind, htext⟩

theorem head?_replaceFrom (h : StandsAt places old front cs)
    (hcs : ∀ d ∈ cs.head?, isWordPart d = false) (length : Nat) (word : List Char) :
    ∀ d ∈ (replaceFrom places length word 0 (.behind front) cs).head?, isWordPart d = false := by
  cases cs with
  | nil => exact nofun
  | cons c cs =>
    have hfirst : Position.behind front ∉ places := by
      intro hp
      obtain ⟨t, ht, hplace, hkind, -⟩ := h _ hp (Nat.le_refl _)
      obtain ⟨N⟩ := exists_nameIn ht hkind
      have hbefore : N.before = [] := by
        by_contra hne
        have hlt := (Position.behind front).offset_lt_afterAll hne
        rw [Position.afterAll_behind, ← N.place_eq, hplace] at hlt
        omega
      obtain ⟨b, bs, htext, hb⟩ := N.word
      have hhead := N.text_eq
      rw [hbefore, htext, List.nil_append, List.cons_append] at hhead
      obtain ⟨rfl, -⟩ := List.cons.inj hhead
      exact Bool.false_ne_true ((hcs c rfl).symm.trans (isWordPart_of_isWordStart hb))
    rw [replaceFrom, if_neg hfirst]
    exact hcs

/-- Unless no token stands at one of the places, some name stands at the first of them. -/
theorem exists_first (h : StandsAt places old front cs) :
    (∀ t ∈ tokensFrom (.behind front) cs, t.place ∉ places) ∨
      ∃ t, Nonempty (NameIn front cs t) ∧ t.place ∈ places ∧ t.kind = .identifier ∧ t.text = old ∧
        ∀ q ∈ places, (Position.behind front).offset ≤ q.offset → t.place.offset ≤ q.offset := by
  cases hfind : (tokensFrom (.behind front) cs).find? (·.place ∈ places) with
  | none =>
    have hnone := List.find?_eq_none.mp hfind
    exact .inl fun t ht hp => hnone t ht (decide_eq_true hp)
  | some t =>
    obtain ⟨hchosen, us, vs, hsplit, hus⟩ := List.find?_eq_some_iff_append.mp hfind
    have ht : t ∈ tokensFrom (.behind front) cs := by
      rw [hsplit]
      exact List.mem_append_right us List.mem_cons_self
    have hplace : t.place ∈ places := of_decide_eq_true hchosen
    obtain ⟨t', ht', he, hkind, htext⟩ := h t.place hplace (offset_le_of_mem_tokensFrom ht)
    obtain rfl := eq_of_mem_tokensFrom ht' ht he
    refine .inr ⟨t', exists_nameIn ht hkind, hplace, hkind, htext, fun q hq hle => ?_⟩
    obtain ⟨u, hu, rfl, -⟩ := h q hq hle
    have hpairwise := pairwise_offset_tokensFrom (.behind front) cs
    rw [hsplit] at hu hpairwise
    rcases List.mem_append.mp hu with hu | hu
    · exact absurd (decide_eq_true hq) (by simpa using hus u hu)
    · rcases List.mem_cons.mp hu with rfl | hu
      · exact Nat.le_refl _
      · have hbehind := (List.pairwise_append.mp hpairwise).2.1
        exact Nat.le_of_lt ((List.pairwise_cons.mp hbehind).1 u hu)

/-- The new word is read in place of the old one, and nothing else is read otherwise. -/
theorem map_letter_replaceFrom (hn : IsName n) (h : StandsAt places old front cs) :
    (tokensFrom (.behind front)
      (replaceFrom places old.length n.toList 0 (.behind front) cs)).map Token.letter =
        (tokensFrom (.behind front) cs).map fun t => (t.respell places old n).letter := by
  generalize hlength : cs.length = l
  induction l using Nat.strongRecOn generalizing front cs with
  | ind l ih =>
    rcases h.exists_first with hnone | ⟨t, ⟨N⟩, hplace, hkind, rfl, hfirst⟩
    · have hkept : replaceFrom places old.length n.toList 0 (.behind front) (cs ++ []) = cs := by
        rw [replaceFrom_append, replaceFrom, List.append_nil]
        intro q hq hle
        obtain ⟨t, ht, rfl, -⟩ := h q hq hle
        exact absurd hq (hnone t ht)
      rw [List.append_nil] at hkept
      rw [hkept]
      refine List.map_congr_left fun t ht => ?_
      rw [Token.respell_of_not_mem (hnone t ht)]
    · have hlt : N.rest.length < l := by
        obtain ⟨c, ds, hname, -⟩ := N.word
        have hlengths := congrArg List.length N.text_eq
        simp only [hname, List.length_append, List.length_cons] at hlengths
        omega
      have hrest := ih N.rest.length hlt (h.behind N) rfl
      have hstop := (h.behind N).head?_replaceFrom N.stop t.text.length n.toList
      rw [N.replaceFrom_eq hplace hfirst, N.tokens_eq, List.map_append, List.map_cons,
        Token.respell_of_mem (Token.payload_of_text_ne N.text_ne) hplace]
      generalize replaceFrom places _ _ _ _ _ = rest at hrest hstop
      have hread : tokensFrom (.behind front) (N.before ++ (n.toList ++ rest)) = N.tokens ++
          ⟨.identifier, .text n, t.place⟩ :: tokensFrom (t.place.afterAll n.toList) rest := by
        have hself := hn.tokensFrom_eq t.place hstop
        obtain ⟨a, as, hword, hstart, -⟩ := hn.exists_cons
        rw [hword, List.cons_append] at hself ⊢
        rw [N.again a _ hstart, hself]
      rw [hread, List.map_append, List.map_cons, map_letter_tokensFrom _ _ rest, hrest]
      refine congrArg₂ _ (List.map_congr_left fun u hu => ?_) ?_
      · rw [N.respell_of_mem_tokens hfirst _ n hu]
      · rw [Token.letter, Token.letter, hkind]

end StandsAt

/-- The tokens of the source with the names replaced are its tokens with the names respelled. -/
theorem map_letter_tokenize_replaceAt {places : List Position} {old n source : String}
    (hn : IsName n) (h : ∀ q ∈ places, ∃ t ∈ tokenize source,
      t.place = q ∧ t.kind = .identifier ∧ t.text = old) :
    (tokenize (replaceAt places old n source)).map Token.letter =
      (tokenize source).map fun t => (t.respell places old n).letter := by
  have hstands : StandsAt places old [] source.toList := fun q hq _ => h q hq
  rw [tokenize, replaceAt, String.toList_ofList]
  exact hstands.map_letter_replaceFrom hn

end FrontEnd
