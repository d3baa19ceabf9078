import HexConfig.Proofs.Token.Spelling

/-!
# Texts that close their strings

What is put behind a text, with blanks between, leaves the tokens of the text as they are and adds its own
(`Cursor.tokens_append`), unless the text leaves a string open, which would take in whatever comes. Strings
hold no quotes, and nothing but a string begins with one, so a text closes its strings exactly if its
quotes come in pairs. That is what `Terminated` says. It is passed on from a text to what is left of it:
whatever is cut off has its quotes in pairs, but for an open string, which is the last thing in the text
(`Lexeme.terminated_covered`).
-/

namespace HexConfig

/-- The quotes come in pairs, so no string is left open. -/
def Terminated (cs : List Char) : Prop := cs.count '"' % 2 = 0

instance : DecidablePred Terminated := fun cs => inferInstanceAs (Decidable (cs.count '"' % 2 = 0))

/-- Blanks, at least one. -/
def Separates (bs : List Char) : Prop := bs ≠ [] ∧ ∀ b ∈ bs, isBlank b = true

variable {b c : Char} {bs cs ds r : List Char}

theorem separates_singleton (h : isBlank b = true) : Separates [b] :=
  ⟨List.cons_ne_nil b [], List.forall_mem_singleton.mpr h⟩

/-- A text without a quote has no string to close. -/
theorem terminated_of_not_mem (h : '"' ∉ cs) : Terminated cs := by
  rw [Terminated, List.count_eq_zero.mpr h]

theorem terminated_blanks (h : ∀ b ∈ bs, isBlank b = true) : Terminated bs :=
  terminated_of_not_mem fun hquote => absurd (h _ hquote) (by decide)

/-- Behind a text that closes its strings, another closes its own. -/
theorem terminated_append_iff (h : Terminated cs) : Terminated (cs ++ ds) ↔ Terminated ds := by
  unfold Terminated at h ⊢
  rw [List.count_append]
  omega

/-- A string that is closed. -/
theorem mem_of_terminated_quote (h : Terminated ('"' :: cs)) : '"' ∈ cs := by
  by_contra hquote
  rw [Terminated, List.count_cons_self, List.count_eq_zero.mpr hquote] at h
  exact absurd h (by decide)

/-- Nothing that no blank belongs to goes on with one. -/
theorem ends_of_blank {p : Char → Bool} (hr : ∃ b, r.head? = some b ∧ isBlank b = true)
    (hp : ∀ b, isBlank b = true → p b = false) : Ends p r := by
  obtain ⟨b, hb, hblank⟩ := hr
  intro d hd
  obtain rfl : b = d := Option.some.inj (hb.symm.trans hd)
  exact hp b hblank

namespace Lexeme

/-- A string with its quotes holds two of them, if it is closed. -/
theorem terminated_quoted (h : '"' ∈ cs) : Terminated (quoted cs).covered := by
  have hinside := quote_notMem_takeWhile cs
  cases hrest : cs.dropWhile (· != '"') with
  | nil =>
    have hall := List.dropWhile_eq_nil_iff.mp hrest '"' h
    exact absurd hall (by decide)
  | cons a ds =>
    obtain rfl : a = '"' := eq_quote_of_dropWhile hrest
    simp [Terminated, quoted, hrest, List.count_eq_zero.mpr hinside]

theorem terminated_number {mark : List Char} (hmark : '"' ∉ mark) (cs : List Char) :
    Terminated (number mark cs).covered := by
  refine terminated_of_not_mem fun hquote => ?_
  rcases List.mem_append.mp hquote with hquote | hquote
  · exact hmark hquote
  · exact absurd (List.mem_takeWhile_imp hquote) (by decide)

/-- Whatever is cut off a text that closes its strings has its quotes in pairs, and what is left has. -/
theorem terminated_covered (h : Terminated (c :: cs)) :
    Terminated (cut c cs).covered ∧ Terminated (cut c cs).rest := by
  suffices hcovered : Terminated (cut c cs).covered by
    refine ⟨hcovered, (terminated_append_iff hcovered).mp ?_⟩
    rwa [covers_cut]
  unfold cut
  split
  · exact terminated_number (by decide) _
  · exact terminated_number (by decide) _
  · exact terminated_quoted (mem_of_terminated_quote h)
  · next hne _ _ =>
    split
    · exact terminated_of_not_mem fun hquote => by
        rcases List.mem_cons.mp hquote with rfl | hquote
        · exact hne rfl
        · exact absurd (List.mem_takeWhile_imp hquote) (by decide)
    · exact terminated_of_not_mem fun hquote => hne (List.mem_singleton.mp hquote).symm

/-! Pieces of a text that closes its strings, with something behind it that starts with a blank. -/

/-- A number ends at a blank, whatever stands behind. -/
theorem number_append (mark : List Char) (hr : ∃ b, r.head? = some b ∧ isBlank b = true) :
    number mark (cs ++ r) = { number mark cs with rest := (number mark cs).rest ++ r } := by
  obtain ⟨htake, hdrop⟩ := run_append cs (.inr (ends_of_blank hr fun _ => isDigit_of_isBlank))
  simp only [number, htake, hdrop]

/-- A word ends at a blank, whatever stands behind. -/
theorem word_append (hr : ∃ b, r.head? = some b ∧ isBlank b = true) :
    word c (cs ++ r) = { word c cs with rest := (word c cs).rest ++ r } := by
  obtain ⟨htake, hdrop⟩ := run_append cs (.inr (ends_of_blank hr fun _ => isWordChar_of_isBlank))
  simp only [word, htake, hdrop]

/-- A string that is closed ends at its quote, whatever stands behind. -/
theorem quoted_append (hquote : '"' ∈ cs) :
    quoted (cs ++ r) = { quoted cs with rest := (quoted cs).rest ++ r } := by
  have hne : cs.dropWhile (· != '"') ≠ [] := fun hnil =>
    absurd (List.dropWhile_eq_nil_iff.mp hnil '"' hquote) (by decide)
  have hlength := List.length_pos_iff.mpr hne
  obtain ⟨htake, hdrop⟩ := run_append (r := r) cs (.inl hne)
  simp only [quoted, htake, hdrop, List.take_append_of_le_length hlength,
    List.drop_append_of_le_length hlength]

/-- A token that closes its string ends at a blank at the latest, whatever stands behind. -/
theorem cut_append (h : Terminated (c :: cs)) (hr : ∃ b, r.head? = some b ∧ isBlank b = true) :
    cut c (cs ++ r) = { cut c cs with rest := (cut c cs).rest ++ r } := by
  generalize hcut : cut c cs = L
  unfold cut at hcut
  split at hcut
  · subst hcut
    exact number_append _ hr
  · subst hcut
    exact number_append _ hr
  · subst hcut
    exact quoted_append (mem_of_terminated_quote h)
  · next hquote hx hX =>
    split at hcut
    · next halpha =>
      subst hcut
      rw [cut_word halpha, word_append hr]
    · next halpha =>
      subst hcut
      refine cut_single hquote (Bool.eq_false_iff.mpr halpha) fun d hd hc => ?_
      subst hc
      cases cs with
      | nil =>
        obtain ⟨b, hb, hblank⟩ := hr
        obtain rfl : d = b := Option.some.inj (hd.symm.trans hb)
        rcases eq_of_isBlank hblank with rfl | rfl | rfl | rfl | rfl | rfl <;> decide
      | cons a ds =>
        obtain rfl : a = d := Option.some.inj hd
        exact ⟨fun ha => hx ds rfl (by rw [ha]), fun ha => hX ds rfl (by rw [ha])⟩

end Lexeme

namespace Cursor

/-- The tokens ahead are told by what is ahead of the blanks. -/
theorem tokens_congr {c d : Cursor} (h : c.skipBlanks = d.skipBlanks) : c.tokens = d.tokens := by
  have hnext : c.next? = d.next? := by simp only [next?, h]
  cases hd : d.next? with
  | none =>
    rw [hd] at hnext
    rw [tokens_of_none hnext, tokens_of_none hd, h]
  | some next =>
    rw [hd] at hnext
    rw [tokens_of_some hnext, tokens_of_some hd]

/-- Blanks ahead are skipped. -/
theorem tokens_blanks_append {p : Position} (hbs : ∀ b ∈ bs, isBlank b = true) (cs : List Char) :
    tokens ⟨p, bs ++ cs⟩ = tokens ⟨p.afterAll bs, cs⟩ := by
  apply tokens_congr
  simp only [skipBlanks, List.takeWhile_append_of_pos hbs, List.dropWhile_append_of_pos hbs,
    Position.afterAll, List.foldl_append]

/-- The tokens of a text that closes its strings stay what they are when something is put behind it, with
a blank in front. -/
theorem tokens_append {p : Position} (hcs : Terminated cs)
    (hr : ∃ b, r.head? = some b ∧ isBlank b = true) :
    tokens ⟨p, cs ++ r⟩ = { tokens ⟨p.afterAll cs, r⟩ with
      list := (tokens ⟨p, cs⟩).list ++ (tokens ⟨p.afterAll cs, r⟩).list } := by
  induction hn : cs.length using Nat.strongRecOn generalizing cs p with
  | ind n ih =>
    have hsplit := List.takeWhile_append_dropWhile (p := isBlank) (l := cs)
    have hblanks : ∀ b ∈ cs.takeWhile isBlank, isBlank b = true := by
      intro b hb
      exact List.mem_takeWhile_imp hb
    cases hrest : cs.dropWhile isBlank with
    | nil =>
      -- only blanks are in front, and there is no token before those of `r`
      rw [hrest, List.append_nil] at hsplit
      have hnone : (tokens ⟨p, cs⟩).list = [] := by rw [tokens_of_none (next?_of_nil hrest)]
      rw [hsplit] at hblanks
      rw [hnone, tokens_blanks_append hblanks, List.nil_append]
    | cons c ds =>
      rw [hrest] at hsplit
      have hcds : Terminated (c :: ds) := by
        rwa [← hsplit, terminated_append_iff (terminated_blanks hblanks)] at hcs
      obtain ⟨htake, hdrop⟩ := run_append (r := r) cs (.inl (hrest ▸ List.cons_ne_nil c ds))
      rw [hrest, List.cons_append] at hdrop
      have hlt : (Lexeme.cut c ds).rest.length < n := by
        have hle := Lexeme.rest_cut_length_le c ds
        have hlength := congrArg List.length hsplit
        rw [List.length_append, List.length_cons] at hlength
        omega
      let start := p.afterAll (cs.takeWhile isBlank)
      let token : Token := ⟨(Lexeme.cut c ds).kind, String.ofList (Lexeme.cut c ds).text, start⟩
      have hnext : next? ⟨p, cs⟩ =
          some (token, ⟨start.afterAll (Lexeme.cut c ds).covered, (Lexeme.cut c ds).rest⟩) := by
        simp only [next?, skipBlanks, hrest, token, start]
      have hnext' : next? ⟨p, cs ++ r⟩ =
          some (token, ⟨start.afterAll (Lexeme.cut c ds).covered, (Lexeme.cut c ds).rest ++ r⟩) := by
        simp only [next?, skipBlanks, hdrop, htake, Lexeme.cut_append hcds hr, token, start]
      have hplace : (start.afterAll (Lexeme.cut c ds).covered).afterAll (Lexeme.cut c ds).rest =
          p.afterAll cs := by
        simp only [start, Position.afterAll, ← List.foldl_append, Lexeme.covers_cut, hsplit,
          List.append_assoc]
      rw [tokens_of_some hnext', tokens_of_some hnext, ih _ hlt (Lexeme.terminated_covered hcds).2 rfl,
        hplace, List.cons_append]

end Cursor

/-- The words of a text that closes its strings stay what they are when something is put behind it, with
a blank in front. -/
theorem wordsAhead_append (hcs : Terminated cs) (hr : ∃ b, r.head? = some b ∧ isBlank b = true) :
    wordsAhead (cs ++ r) = wordsAhead cs ++ wordsAhead r := by
  have hwords := Cursor.words_tokens ⟨Position.start.afterAll cs, r⟩
  rw [wordsAhead, Cursor.tokens_append hcs hr, Tokens.words, List.map_append]
  exact congrArg (wordsAhead cs ++ ·) hwords

/-- The same with the blanks apart. -/
theorem wordsAhead_append_separated (hcs : Terminated cs) (hbs : Separates bs) (r : List Char) :
    wordsAhead (cs ++ (bs ++ r)) = wordsAhead cs ++ wordsAhead r := by
  obtain ⟨hne, hblanks⟩ := hbs
  have hhead : ∃ b, (bs ++ r).head? = some b ∧ isBlank b = true := by
    cases bs with
    | nil => exact absurd rfl hne
    | cons b bs => exact ⟨b, rfl, hblanks b List.mem_cons_self⟩
  rw [wordsAhead_append hcs hhead, wordsAhead_blanks_append hblanks]

end HexConfig
