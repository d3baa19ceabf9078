import HexConfig.Proofs.Characters
import HexConfig.Proofs.Token.Proper

/-!
# Cutting texts that were put together

The words of a text do not depend on where it stands, so they can be read off the characters alone
(`wordsAhead`). When a text is put together from pieces of another and from words spelled out, its
words are those of its parts, as long as no part grows into the next. Two things see to that.

* A piece that was cut off a text is cut off again when something else stands behind it, if that starts
  with the same character or with a blank (`Lexeme.cut_of_joins`). The one exception is a string that
  nothing closes; nothing stands behind such a string, and nothing may be put there.
* A word spelled out with a blank behind it is cut off whatever comes then (`wordsAhead_spelling`).
-/

namespace HexConfig

/-! ## Words by characters -/

/-- The words of the characters ahead. -/
def wordsAhead (cs : List Char) : List Word := (Cursor.tokens ⟨.start, cs⟩).words

namespace Cursor

/-- Where nothing but blanks is left there is no token. -/
theorem next?_of_nil {c : Cursor} (h : c.rest.dropWhile isBlank = []) : c.next? = none := by
  unfold next?
  rw [show c.skipBlanks.rest = [] from h]

/-- The word of the next token, and what is left after it, do not depend on the place. -/
theorem next?_of_cons {c : Cursor} {ch : Char} {cs : List Char}
    (h : c.rest.dropWhile isBlank = ch :: cs) :
    ∃ t d, c.next? = some (t, d) ∧
      t.word = ((Lexeme.cut ch cs).kind, String.ofList (Lexeme.cut ch cs).text) ∧
      d.rest = (Lexeme.cut ch cs).rest := by
  unfold next?
  rw [show c.skipBlanks.rest = ch :: cs from h]
  exact ⟨_, _, rfl, rfl, rfl⟩

theorem words_tokens_of_nil {c : Cursor} (h : c.rest.dropWhile isBlank = []) :
    c.tokens.words = [] := by
  rw [tokens_of_none (next?_of_nil h)]
  rfl

/-- The words from a cursor on do not depend on its place. -/
theorem words_tokens (c : Cursor) : c.tokens.words = wordsAhead c.rest := by
  induction hn : c.rest.length using Nat.strongRecOn generalizing c with
  | ind n ih =>
    rw [wordsAhead]
    cases hrest : c.rest.dropWhile isBlank with
    | nil => rw [words_tokens_of_nil hrest, words_tokens_of_nil (c := ⟨.start, c.rest⟩) hrest]
    | cons ch cs =>
      obtain ⟨t, d, hnext, hword, hd⟩ := next?_of_cons hrest
      obtain ⟨t', d', hnext', hword', hd'⟩ := next?_of_cons (c := ⟨.start, c.rest⟩) hrest
      have hlt : d.rest.length < c.rest.length := next?_shrinks hnext
      have hlt' : d'.rest.length < c.rest.length := next?_shrinks (c := ⟨.start, c.rest⟩) hnext'
      have h := ih d.rest.length (hn ▸ hlt) d rfl
      have h' := ih d'.rest.length (hn ▸ hlt') d' rfl
      rw [tokens_of_some hnext, tokens_of_some hnext']
      show t.word :: d.tokens.words = t'.word :: d'.tokens.words
      rw [h, h', hword, hword', hd, hd']

end Cursor

theorem words_ofText (s : String) : (Tokens.ofText s).words = wordsAhead s.toList := rfl

/-- Where nothing but blanks is left there is no word. -/
theorem wordsAhead_of_nil {cs : List Char} (h : cs.dropWhile isBlank = []) : wordsAhead cs = [] :=
  Cursor.words_tokens_of_nil h

/-- The first word ahead, and the words after it. -/
theorem wordsAhead_of_cons {cs ds : List Char} {c : Char} (h : cs.dropWhile isBlank = c :: ds) :
    wordsAhead cs = ((Lexeme.cut c ds).kind, String.ofList (Lexeme.cut c ds).text) ::
      wordsAhead (Lexeme.cut c ds).rest := by
  obtain ⟨t, d, hnext, hword, hd⟩ := Cursor.next?_of_cons (c := ⟨.start, cs⟩) h
  rw [wordsAhead, Cursor.tokens_of_some hnext]
  show t.word :: d.tokens.words = _
  rw [d.words_tokens, hword, hd]

/-- Blanks in front change nothing. -/
theorem wordsAhead_blanks_append {bs : List Char} (hbs : ∀ b ∈ bs, isBlank b = true)
    (cs : List Char) : wordsAhead (bs ++ cs) = wordsAhead cs := by
  have hdrop : (bs ++ cs).dropWhile isBlank = cs.dropWhile isBlank :=
    List.dropWhile_append_of_pos hbs
  cases hrest : cs.dropWhile isBlank with
  | nil => rw [wordsAhead_of_nil hrest, wordsAhead_of_nil (hdrop.trans hrest)]
  | cons c ds => rw [wordsAhead_of_cons hrest, wordsAhead_of_cons (hdrop.trans hrest)]

/-! ## Pieces cut off again -/

/-- What may come behind a piece in place of `rest`: something that starts in the same way, or, if
`rest` is something, with a blank. -/
def Joins (rest r : List Char) : Prop :=
  r.head? = rest.head? ∨ rest ≠ [] ∧ ∃ b, r.head? = some b ∧ isBlank b = true

theorem joins_refl (rest : List Char) : Joins rest rest := .inl rfl

/-- The blanks are six characters. -/
theorem eq_of_isBlank {b : Char} (h : isBlank b = true) :
    b = ' ' ∨ b = '\t' ∨ b = '\r' ∨ b = '\n' ∨ b = '\x0c' ∨ b = '\x0b' := by
  simpa [isBlank, or_assoc] using h

/-- Blanks belong to no number. -/
theorem isDigit_of_isBlank {b : Char} (h : isBlank b = true) : Hex.isDigit b = false := by
  rcases eq_of_isBlank h with rfl | rfl | rfl | rfl | rfl | rfl <;> decide

/-- Blanks belong to no word. -/
theorem isWordChar_of_isBlank {b : Char} (h : isBlank b = true) : isWordChar b = false := by
  rcases eq_of_isBlank h with rfl | rfl | rfl | rfl | rfl | rfl <;> decide

/-- A run of characters that no blank belongs to ends where it did. -/
theorem Joins.ends {p : Char → Bool} (hp : ∀ b, isBlank b = true → p b = false) {cs r : List Char}
    (h : Joins (cs.dropWhile p) r) : Ends p r := by
  intro d hd
  rcases h with h | ⟨-, b, hb, hblank⟩
  · exact ends_dropWhile p cs d (h ▸ hd)
  · obtain rfl : d = b := Option.some.inj (hd.symm.trans hb)
    exact hp d hblank

namespace Lexeme

/-- The inside of a string goes up to a quote. -/
theorem eq_quote_of_dropWhile {c : Char} {cs r : List Char} (h : cs.dropWhile (· != '"') = c :: r) :
    c = '"' := by
  simpa using eq_false_of_dropWhile h

/-- What is read up to a quote holds none. -/
theorem quote_notMem_takeWhile (cs : List Char) : '"' ∉ cs.takeWhile (· != '"') := fun hquote =>
  absurd (List.mem_takeWhile_imp hquote) (by decide)

/-- A number is cut off the same where something else that joins it is behind it. -/
theorem number_of_joins (mark : List Char) {cs r : List Char} (h : Joins (number mark cs).rest r) :
    number mark (cs.takeWhile Hex.isDigit ++ r) = { number mark cs with rest := r } := by
  have hall : ∀ c ∈ cs.takeWhile Hex.isDigit, Hex.isDigit c = true := fun c hc =>
    List.mem_takeWhile_imp hc
  obtain ⟨htake, hdrop⟩ := run_append_of_all hall (h.ends fun _ => isDigit_of_isBlank)
  simp only [number, htake, hdrop]

/-- A word is cut off the same where something else that joins it is behind it. -/
theorem word_of_joins (c : Char) {cs r : List Char} (h : Joins (word c cs).rest r) :
    word c (cs.takeWhile isWordChar ++ r) = { word c cs with rest := r } := by
  have hall : ∀ c ∈ cs.takeWhile isWordChar, isWordChar c = true := fun c hc =>
    List.mem_takeWhile_imp hc
  obtain ⟨htake, hdrop⟩ := run_append_of_all hall (h.ends fun _ => isWordChar_of_isBlank)
  simp only [word, htake, hdrop]

/-- A string that is closed is closed in the same place, whatever comes behind it. -/
theorem quoted_of_joins {cs r : List Char} (h : Joins (quoted cs).rest r) :
    quoted (cs.takeWhile (· != '"') ++ (cs.dropWhile (· != '"')).take 1 ++ r) =
      { quoted cs with rest := r } := by
  have hall : ∀ c ∈ cs.takeWhile (· != '"'), (c != '"') = true := fun c hc =>
    List.mem_takeWhile_imp (p := (· != '"')) hc
  cases hrest : cs.dropWhile (· != '"') with
  | nil =>
    -- nothing closes the string, so nothing stands behind it
    have hr : r = [] := by
      rw [quoted, hrest] at h
      rcases h with h | ⟨hne, -⟩
      · exact List.head?_eq_none_iff.mp h
      · exact absurd rfl hne
    subst hr
    have hself : cs.takeWhile (· != '"') = cs := by
      have := List.takeWhile_append_dropWhile (p := (· != '"')) (l := cs)
      rwa [hrest, List.append_nil] at this
    simp [quoted, hself, hrest]
  | cons a ds =>
    obtain rfl : a = '"' := eq_quote_of_dropWhile hrest
    simp [quoted, hrest, List.takeWhile_append_of_pos hall, List.dropWhile_append_of_pos hall]

theorem cut_word {c : Char} (halpha : c.isAlpha = true) (cs : List Char) :
    cut c cs = word c cs := by
  unfold cut
  split
  · exact absurd halpha (by decide)
  · exact absurd halpha (by decide)
  · exact absurd halpha (by decide)
  · rw [if_pos halpha]

/-- What starts neither a string nor a word nor a number is cut off as a single character. -/
theorem cut_single {c : Char} {cs : List Char} (hquote : c ≠ '"') (halpha : c.isAlpha = false)
    (hmark : ∀ d, cs.head? = some d → c = '0' → d ≠ 'x' ∧ d ≠ 'X') : cut c cs = single c cs := by
  unfold cut
  split
  · exact absurd rfl (hmark 'x' rfl rfl).1
  · exact absurd rfl (hmark 'X' rfl rfl).2
  · exact absurd rfl hquote
  · rw [if_neg (by rw [halpha]; exact Bool.false_ne_true)]

/-- A number is cut off with all its digits. -/
theorem cut_number_of_ends {mark : Char} {digits rest : List Char} (hmark : mark = 'x' ∨ mark = 'X')
    (hdigits : ∀ d ∈ digits, Hex.isDigit d = true) (h : Ends Hex.isDigit rest) :
    cut '0' (mark :: (digits ++ rest)) = ⟨.number, digits, '0' :: mark :: digits, rest⟩ := by
  obtain ⟨htake, hdrop⟩ := run_append_of_all hdigits h
  rcases hmark with rfl | rfl <;> simp [cut, number, htake, hdrop]

/-- A word that starts with a letter is cut off whole. -/
theorem cut_word_of_ends {c : Char} {cs rest : List Char} (hc : c.isAlpha = true)
    (hcs : ∀ d ∈ cs, isWordChar d = true) (h : Ends isWordChar rest) :
    cut c (cs ++ rest) = ⟨.ofWord (c :: cs), c :: cs, c :: cs, rest⟩ := by
  obtain ⟨htake, hdrop⟩ := run_append_of_all hcs h
  rw [cut_word hc, word, htake, hdrop]

/-- A string is cut off at the first quote behind its own. -/
theorem cut_quoted_of_not_mem {inside rest : List Char} (h : '"' ∉ inside) :
    cut '"' (inside ++ '"' :: rest) = ⟨.text, inside, '"' :: (inside ++ ['"']), rest⟩ := by
  have hinside : ∀ c ∈ inside, (c != '"') = true := fun c hc =>
    bne_iff_ne.mpr fun heq => h (heq ▸ hc)
  have hends : Ends (· != '"') ('"' :: rest) := ends_cons (by decide) rest
  obtain ⟨htake, hdrop⟩ := run_append_of_all hinside hends
  show quoted (inside ++ '"' :: rest) = _
  rw [quoted, htake, hdrop]
  rfl

/-- A piece is cut off again when something else that joins it is behind it. -/
theorem cut_of_joins {c : Char} {cs r : List Char} (h : Joins (cut c cs).rest r) :
    ∃ w, (cut c cs).covered = c :: w ∧ cut c (w ++ r) = { cut c cs with rest := r } := by
  generalize hcut : cut c cs = L at h ⊢
  unfold cut at hcut
  split at hcut
  · subst hcut
    exact ⟨_, rfl, number_of_joins _ h⟩
  · subst hcut
    exact ⟨_, rfl, number_of_joins _ h⟩
  · subst hcut
    exact ⟨_, rfl, quoted_of_joins h⟩
  · next hquote hx hX =>
    split at hcut
    · next halpha =>
      subst hcut
      exact ⟨_, rfl, (cut_word halpha _).trans (word_of_joins c h)⟩
    · next halpha =>
      subst hcut
      refine ⟨[], rfl, cut_single hquote (Bool.eq_false_iff.mpr halpha) fun d hd hc => ?_⟩
      subst hc
      rcases h with h | ⟨-, b, hb, hblank⟩
      · obtain ⟨ds, rfl⟩ : ∃ ds, cs = d :: ds := List.head?_eq_some_iff.mp (h.symm.trans hd)
        exact ⟨fun hd => hx ds rfl (by rw [hd]), fun hd => hX ds rfl (by rw [hd])⟩
      · obtain rfl : d = b := Option.some.inj (hd.symm.trans hb)
        rcases eq_of_isBlank hblank with rfl | rfl | rfl | rfl | rfl | rfl <;> decide

end Lexeme

/-! ## Words spelled out -/

/-- A spelling of a word: numbers get their mark, strings their quotes. -/
def Word.spelling (w : Word) : List Char :=
  match w.1 with
  | .number => '0' :: 'x' :: w.2.toList
  | .text => '"' :: (w.2.toList ++ ['"'])
  | _ => w.2.toList

theorem wordsAhead_space (r : List Char) : wordsAhead (' ' :: r) = wordsAhead r := by
  have hblank : ∀ b ∈ [' '], isBlank b = true := by simp [isBlank]
  exact wordsAhead_blanks_append hblank r

/-- A piece that ends at a blank, and the words after it. -/
theorem wordsAhead_of_cut {ds text covered r : List Char} {c : Char} {k : Token.Kind}
    (hc : isBlank c = false) (hcut : Lexeme.cut c ds = ⟨k, text, covered, ' ' :: r⟩) :
    wordsAhead (c :: ds) = (k, String.ofList text) :: wordsAhead r := by
  have hdrop : (c :: ds).dropWhile isBlank = c :: ds :=
    List.dropWhile_cons_of_neg (by rw [hc]; exact Bool.false_ne_true)
  rw [wordsAhead_of_cons hdrop, hcut, wordsAhead_space]

/-- A letter is no blank. -/
theorem isBlank_of_isAlpha {c : Char} (h : c.isAlpha = true) : isBlank c = false := by
  rw [Bool.eq_false_iff]
  intro hblank
  rcases eq_of_isBlank hblank with rfl | rfl | rfl | rfl | rfl | rfl <;> exact absurd h (by decide)

/-- A proper word that is spelled out is cut off, if a blank is behind it. Only a character that the
grammar has no use for may be part of something longer. -/
theorem wordsAhead_spelling {w : Word} (h : w.Proper) (hvalid : w.1 ≠ .invalid) (r : List Char) :
    wordsAhead (w.spelling ++ ' ' :: r) = w :: wordsAhead r := by
  obtain ⟨k, s⟩ := w
  cases k with
  | number =>
    show wordsAhead ('0' :: 'x' :: (s.toList ++ ' ' :: r)) = _
    rw [wordsAhead_of_cut rfl (Lexeme.cut_number_of_ends (.inl rfl) h (ends_cons (by decide) r)), String.ofList_toList]
  | text =>
    have hspelling : Word.spelling (.text, s) ++ ' ' :: r = '"' :: (s.toList ++ '"' :: ' ' :: r) := by
      simp [Word.spelling]
    rw [hspelling, wordsAhead_of_cut rfl (Lexeme.cut_quoted_of_not_mem h), String.ofList_toList]
  | identifier =>
    obtain ⟨c, cs, hs, halpha, hcs, hkind⟩ := h
    have hs : s.toList = c :: cs := hs
    have hkind : Token.Kind.ofWord (c :: cs) = .identifier := hs ▸ hkind
    have hends : Ends isWordChar (' ' :: r) := ends_cons (by decide) r
    have hcut := Lexeme.cut_word_of_ends halpha hcs hends
    rw [hkind] at hcut
    show wordsAhead (s.toList ++ ' ' :: r) = _
    rw [hs, List.cons_append, wordsAhead_of_cut (isBlank_of_isAlpha halpha) hcut, ← hs,
      String.ofList_toList]
  | finish => exact h.elim
  | invalid => exact absurd rfl hvalid
  | _ =>
    obtain rfl := Option.some.inj h
    exact wordsAhead_of_cut rfl rfl

/-- Words spelled out with a blank behind each. -/
def spellings (ws : List Word) : List Char := ws.flatMap fun w => w.spelling ++ [' ']

/-- A row of words that is spelled out is cut off, whatever comes then. -/
theorem wordsAhead_spellings {ws : List Word} (h : ∀ w ∈ ws, w.Proper ∧ w.1 ≠ .invalid)
    (r : List Char) : wordsAhead (spellings ws ++ r) = ws ++ wordsAhead r := by
  induction ws with
  | nil => rfl
  | cons w ws ih =>
    obtain ⟨hproper, hvalid⟩ := h w List.mem_cons_self
    have hws := ih fun w' hw' => h w' (List.mem_cons_of_mem _ hw')
    have hsplit : spellings (w :: ws) ++ r = w.spelling ++ ' ' :: (spellings ws ++ r) := by
      simp [spellings]
    rw [hsplit, wordsAhead_spelling hproper hvalid, hws, List.cons_append]

end HexConfig
