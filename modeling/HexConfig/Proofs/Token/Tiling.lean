import HexConfig.Proofs.Token.Spelling
import Mathlib.Data.List.Induction

/-!
# How tokens tile a text

What the tokens of a text are, said without cutting: the text is a row of *tiles* and some blanks behind
them. A tile is a run of blanks, perhaps empty, and the characters of one word behind them; which
characters a word covers, and what may not come next because the word would have gone on with it, is
`Word.Covers`.

Every text is tiled (`exists_tiled`), and in one way only (`Tiled.unique`), and cutting finds the tiles:
the tokens are their words, each placed where its tile has skipped its blanks (`toList_tokens`). A place
is told by what stands before it alone, by the line feeds in it and by the characters behind the last of
them (`Position.behind`).
-/

namespace HexConfig

/-! ## Places -/

/-- The place behind a run of characters that starts a text. -/
def Position.behind (cs : List Char) : Position :=
  ⟨1 + cs.count '\n', 1 + (cs.reverse.takeWhile (· != '\n')).length⟩

/-- Going on character by character from the start comes to the place behind them all. -/
theorem Position.afterAll_start (cs : List Char) : start.afterAll cs = behind cs := by
  induction cs using List.reverseRecOn with
  | nil => rfl
  | append_singleton cs c ih =>
    rw [afterAll, List.foldl_append, List.foldl_cons, List.foldl_nil, ← afterAll, ih]
    by_cases hc : c = '\n'
    · simp [behind, after, hc, List.count_append, Nat.add_assoc]
    · simp [behind, after, hc, List.count_append, Nat.add_comm]

/-- The place behind a text and another is that behind both. -/
theorem Position.afterAll_behind (before cs : List Char) :
    (behind before).afterAll cs = behind (before ++ cs) := by
  rw [← afterAll_start, ← afterAll_start, afterAll, afterAll, afterAll, List.foldl_append]

/-! ## What a word covers -/

/-- A word covers these characters where `rest` follows them. -/
inductive Word.Covers : Word → List Char → List Char → Prop
  | number {mark : Char} {digits rest : List Char} : mark = 'x' ∨ mark = 'X' →
      (∀ d ∈ digits, Hex.isDigit d = true) → Ends Hex.isDigit rest →
      Covers (.number, String.ofList digits) ('0' :: mark :: digits) rest
  | global {rest : List Char} : Ends isWordChar rest →
      Covers (.global, "global") "global".toList rest
  | boolean {s : String} {rest : List Char} : s = "true" ∨ s = "false" → Ends isWordChar rest →
      Covers (.text, s) s.toList rest
  | name {c : Char} {cs rest : List Char} : c.isAlpha = true → (∀ d ∈ cs, isWordChar d = true) →
      String.ofList (c :: cs) ∉ ["global", "true", "false"] → Ends isWordChar rest →
      Covers (.identifier, String.ofList (c :: cs)) (c :: cs) rest
  | closed {inside rest : List Char} : '"' ∉ inside →
      Covers (.text, String.ofList inside) ('"' :: (inside ++ ['"'])) rest
  /-- A string that nothing closes goes on to the end of the text. -/
  | unclosed {inside : List Char} : '"' ∉ inside →
      Covers (.text, String.ofList inside) ('"' :: inside) []
  | sign {kind : Token.Kind} {s : String} {rest : List Char} : kind.sign? = some s →
      kind ≠ .global → Covers (kind, s) s.toList rest
  /-- A character that the language has no use for, here. -/
  | invalid {c : Char} {rest : List Char} : isBlank c = false → c.isAlpha = false → c ≠ '"' →
      (∀ kind, Token.Kind.sign? kind ≠ some (String.singleton c)) →
      (c = '0' → rest.head? ≠ some 'x' ∧ rest.head? ≠ some 'X') →
      Covers (.invalid, String.singleton c) [c] rest

namespace Token.Kind

variable {c : Char}

/-- A character with a use is the sign of its kind. -/
theorem sign?_ofChar (h : ofChar c ≠ .invalid) : (ofChar c).sign? = some (String.singleton c) := by
  unfold ofChar at h ⊢
  split at h
  all_goals first
    | rfl
    | exact absurd rfl h

theorem ofChar_ne_global : ofChar c ≠ .global := by
  unfold ofChar
  split <;> nofun

/-- A sign of one character is that of the character's kind. -/
theorem ofChar_of_sign {kind : Kind} (h : kind.sign? = some (String.singleton c)) :
    ofChar c = kind := by
  have hc : ∀ s, kind.sign? = some s → s.toList = [c] := fun s hs => by
    rw [Option.some.inj (hs.symm.trans h), String.toList_singleton]
  cases kind with
  | number | text | identifier | finish | invalid => exact nomatch h
  | global => exact absurd (hc _ rfl) (by simp)
  | _ =>
    obtain rfl := List.head_eq_of_cons_eq (hc _ rfl)
    rfl

/-- The words that are no names. -/
theorem ofWord_eq_identifier_iff {cs : List Char} :
    ofWord cs = .identifier ↔ String.ofList cs ∉ ["global", "true", "false"] := by
  have hword : String.ofList cs ∉ ["global", "true", "false"] ↔
      ¬ cs = "global".toList ∧ ¬ (cs = "true".toList ∨ cs = "false".toList) := by
    simp only [List.mem_cons, List.not_mem_nil, or_false, not_or, ← String.toList_inj,
      String.toList_ofList]
  rw [hword, ofWord]
  split
  · next h => simp [h]
  · next hglobal =>
    split
    · next hbool => exact ⟨fun h => absurd h (by decide), fun h => absurd hbool h.2⟩
    · next hbool => exact ⟨fun _ => ⟨hglobal, hbool⟩, fun _ => rfl⟩

end Token.Kind

namespace Lexeme

/-- A string that is never closed takes in all there is. -/
theorem cut_unclosed {inside : List Char} (h : '"' ∉ inside) :
    cut '"' inside = ⟨.text, inside, '"' :: inside, []⟩ := by
  have hinside : ∀ c ∈ inside, (c != '"') = true := fun c hc =>
    bne_iff_ne.mpr fun heq => h (heq ▸ hc)
  have hends : Ends (· != '"') [] := nofun
  obtain ⟨htake, hdrop⟩ := run_append_of_all hinside hends
  rw [List.append_nil] at htake hdrop
  show quoted inside = _
  rw [quoted, htake, hdrop]
  simp

end Lexeme

/-- What is cut off where a word covers what is in front: that word, and what it covers. -/
theorem Word.Covers.cut {w : Word} {covered rest : List Char} (h : w.Covers covered rest) :
    ∃ c cs, covered ++ rest = c :: cs ∧ isBlank c = false ∧
      Lexeme.cut c cs = ⟨w.1, w.2.toList, covered, rest⟩ := by
  cases h with
  | @number mark digits _ hmark hdigits hends =>
    refine ⟨'0', mark :: (digits ++ rest), rfl, rfl, ?_⟩
    rw [Lexeme.cut_number_of_ends hmark hdigits hends, String.toList_ofList]
  | global hends =>
    have hcut : Lexeme.cut 'g' ("lobal".toList ++ rest) = _ :=
      Lexeme.cut_word_of_ends rfl (List.all_eq_true.mp rfl) hends
    exact ⟨'g', _, rfl, rfl, hcut⟩
  | boolean hs hends =>
    rcases hs with rfl | rfl
    · have hcut : Lexeme.cut 't' ("rue".toList ++ rest) = _ :=
        Lexeme.cut_word_of_ends rfl (List.all_eq_true.mp rfl) hends
      exact ⟨'t', _, rfl, rfl, hcut⟩
    · have hcut : Lexeme.cut 'f' ("alse".toList ++ rest) = _ :=
        Lexeme.cut_word_of_ends rfl (List.all_eq_true.mp rfl) hends
      exact ⟨'f', _, rfl, rfl, hcut⟩
  | @name c cs _ hc hcs hreserved hends =>
    have hkind := Token.Kind.ofWord_eq_identifier_iff.mpr hreserved
    refine ⟨c, cs ++ rest, rfl, isBlank_of_isAlpha hc, ?_⟩
    rw [Lexeme.cut_word_of_ends hc hcs hends, hkind, String.toList_ofList]
  | @closed inside _ hquote =>
    refine ⟨'"', inside ++ '"' :: rest, congrArg ('"' :: ·) (List.append_assoc ..), rfl, ?_⟩
    rw [Lexeme.cut_quoted_of_not_mem hquote, String.toList_ofList]
  | @unclosed inside hquote =>
    refine ⟨'"', inside, List.append_nil _, rfl, ?_⟩
    rw [Lexeme.cut_unclosed hquote, String.toList_ofList]
  | @sign kind s _ hsign hglobal =>
    cases kind with
    | global => exact absurd rfl hglobal
    | number | text | identifier | finish | invalid => exact nomatch hsign
    | _ =>
      obtain rfl := Option.some.inj hsign
      exact ⟨_, rest, rfl, rfl, rfl⟩
  | @invalid c _ hblank halpha hquote hsign hzero =>
    have hkind : Token.Kind.ofChar c = .invalid := by
      by_contra hne
      exact hsign _ (Token.Kind.sign?_ofChar hne)
    refine ⟨c, rest, rfl, hblank, ?_⟩
    rw [Lexeme.cut_single hquote halpha fun d hd hc => ?_, Lexeme.single, hkind,
      String.toList_singleton]
    obtain ⟨hx, hX⟩ := hzero hc
    exact ⟨fun heq => hx (heq ▸ hd), fun heq => hX (heq ▸ hd)⟩

namespace Lexeme

/-- A string that is cut off is covered by its characters and its quotes. -/
theorem covers_quoted (cs : List Char) :
    Word.Covers (.text, String.ofList (quoted cs).text) (quoted cs).covered (quoted cs).rest := by
  have hinside := quote_notMem_takeWhile cs
  unfold quoted
  cases hrest : cs.dropWhile (· != '"') with
  | nil => simpa using Word.Covers.unclosed hinside
  | cons a ds =>
    obtain rfl : a = '"' := eq_quote_of_dropWhile hrest
    exact .closed hinside

/-- A word that is cut off is covered by its characters. -/
theorem covers_word {c : Char} (hc : c.isAlpha = true) (cs : List Char) :
    Word.Covers ((word c cs).kind, String.ofList (word c cs).text) (word c cs).covered
      (word c cs).rest := by
  have hrest : ∀ d ∈ cs.takeWhile isWordChar, isWordChar d = true := fun d hd =>
    List.mem_takeWhile_imp hd
  have hends := ends_dropWhile isWordChar cs
  unfold word
  generalize cs.takeWhile isWordChar = ds, cs.dropWhile isWordChar = rest at hrest hends
  by_cases hglobal : c :: ds = "global".toList
  · rw [hglobal]
    exact .global hends
  · by_cases hbool : c :: ds = "true".toList ∨ c :: ds = "false".toList
    · rcases hbool with h | h <;> rw [h]
      · exact .boolean (.inl rfl) hends
      · exact .boolean (.inr rfl) hends
    · have hkind : Token.Kind.ofWord (c :: ds) = .identifier := by
        rw [Token.Kind.ofWord, if_neg hglobal, if_neg hbool]
      have hname := Word.Covers.name hc hrest (Token.Kind.ofWord_eq_identifier_iff.mp hkind) hends
      rwa [← hkind] at hname

/-- A single character that is cut off covers itself. -/
theorem covers_single {c : Char} {cs : List Char} (hblank : isBlank c = false)
    (halpha : c.isAlpha = false) (hquote : c ≠ '"')
    (hzero : c = '0' → cs.head? ≠ some 'x' ∧ cs.head? ≠ some 'X') :
    Word.Covers ((single c cs).kind, String.ofList (single c cs).text) (single c cs).covered
      (single c cs).rest := by
  show Word.Covers (Token.Kind.ofChar c, String.singleton c) [c] cs
  by_cases hkind : Token.Kind.ofChar c = .invalid
  · rw [hkind]
    refine .invalid hblank halpha hquote (fun kind hsign => ?_) hzero
    rw [← Token.Kind.ofChar_of_sign hsign, hkind] at hsign
    exact nomatch hsign
  · have hsign := Token.Kind.sign?_ofChar hkind
    rw [← String.toList_singleton (c := c)]
    exact .sign hsign Token.Kind.ofChar_ne_global

/-- What is cut off covers what was cut. -/
theorem covers {c : Char} (hblank : isBlank c = false) (cs : List Char) :
    Word.Covers ((cut c cs).kind, String.ofList (cut c cs).text) (cut c cs).covered
      (cut c cs).rest := by
  generalize hcut : cut c cs = L
  unfold cut at hcut
  split at hcut
  · subst hcut
    exact .number (.inl rfl) (fun d hd => List.mem_takeWhile_imp hd) (ends_dropWhile _ _)
  · subst hcut
    exact .number (.inr rfl) (fun d hd => List.mem_takeWhile_imp hd) (ends_dropWhile _ _)
  · subst hcut
    exact covers_quoted _
  · next hquote hx hX =>
    split at hcut
    · next halpha =>
      subst hcut
      exact covers_word halpha cs
    · next halpha =>
      subst hcut
      refine covers_single hblank (Bool.eq_false_iff.mpr halpha) hquote fun hzero => ⟨?_, ?_⟩
      · intro hhead
        obtain ⟨ds, rfl⟩ := List.head?_eq_some_iff.mp hhead
        exact hx ds hzero rfl
      · intro hhead
        obtain ⟨ds, rfl⟩ := List.head?_eq_some_iff.mp hhead
        exact hX ds hzero rfl

end Lexeme

/-- The word and what it covers are told by the text alone. -/
theorem Word.Covers.unique {w w' : Word} {covered covered' rest rest' : List Char}
    (h : w.Covers covered rest) (h' : w'.Covers covered' rest')
    (heq : covered ++ rest = covered' ++ rest') : w = w' ∧ covered = covered' ∧ rest = rest' := by
  obtain ⟨c, cs, hsplit, -, hcut⟩ := h.cut
  obtain ⟨c', cs', hsplit', -, hcut'⟩ := h'.cut
  obtain ⟨rfl, rfl⟩ := List.cons.inj (hsplit.symm.trans (heq.trans hsplit'))
  obtain ⟨hkind, htext, hcovered, hrest⟩ := Lexeme.mk.inj (hcut.symm.trans hcut')
  exact ⟨Prod.ext hkind (String.toList_inj.mp htext), hcovered, hrest⟩

/-- A word covers something, and that starts with no blank. -/
theorem Word.Covers.exists_cons {w : Word} {covered rest : List Char} (h : w.Covers covered rest) :
    ∃ c cs, covered = c :: cs ∧ isBlank c = false := by
  obtain ⟨c, cs, hsplit, hblank, hcut⟩ := h.cut
  cases covered with
  | nil =>
    have hle := Lexeme.rest_cut_length_le c cs
    rw [hcut] at hle
    rw [List.nil_append] at hsplit
    rw [hsplit, List.length_cons] at hle
    exact absurd hle (Nat.not_succ_le_self _)
  | cons d ds =>
    obtain ⟨rfl, -⟩ := List.cons.inj hsplit
    exact ⟨d, ds, rfl, hblank⟩

/-! ## Tiles -/

/-- A run of blanks, and the characters of one word behind them. -/
structure Tile where
  blanks : List Char
  covered : List Char
  word : Word

/-- The characters of a tile. -/
def Tile.chars (t : Tile) : List Char := t.blanks ++ t.covered

/-- The characters of tiles in a row, with `last` behind them. -/
def together (tiles : List Tile) (last : List Char) : List Char :=
  tiles.flatMap Tile.chars ++ last

/-- Each tile is blanks and what its word covers there, and behind them there are only blanks. -/
def Tiled : List Tile → List Char → Prop
  | [], last => ∀ b ∈ last, isBlank b = true
  | t :: ts, last => (∀ b ∈ t.blanks, isBlank b = true) ∧
      t.word.Covers t.covered (together ts last) ∧ Tiled ts last

/-- The tokens of tiles that stand behind other characters, with the mark of the end. -/
def tokensOfTiles (before : List Char) : List Tile → List Char → List Token
  | [], last => [Token.finish (.behind (before ++ last))]
  | t :: ts, last => ⟨t.word.1, t.word.2, .behind (before ++ t.blanks)⟩ ::
      tokensOfTiles (before ++ t.chars) ts last

variable {t : Tile} {ts ts' : List Tile} {last last' : List Char}

theorem together_cons (t : Tile) (ts : List Tile) (last : List Char) :
    together (t :: ts) last = t.blanks ++ (t.covered ++ together ts last) := by
  simp [together, Tile.chars]

/-- The blanks of a tile are all those in front. -/
theorem Tiled.skip (h : Tiled (t :: ts) last) :
    (together (t :: ts) last).takeWhile isBlank = t.blanks ∧
      (together (t :: ts) last).dropWhile isBlank = t.covered ++ together ts last := by
  obtain ⟨hblanks, hcovers, -⟩ := h
  obtain ⟨c, cs, hcovered, hblank⟩ := hcovers.exists_cons
  rw [together_cons]
  refine run_append_of_all hblanks fun d hd => ?_
  rw [hcovered] at hd
  obtain rfl : c = d := Option.some.inj hd
  exact hblank

/-- Every tile covers its word, in front of what is behind it. -/
theorem Tiled.exists_covers (h : Tiled ts last) (ht : t ∈ ts) :
    ∃ rest, t.word.Covers t.covered rest := by
  induction ts with
  | nil => exact absurd ht List.not_mem_nil
  | cons u ts ih =>
    rcases List.mem_cons.mp ht with rfl | ht
    · exact ⟨_, h.2.1⟩
    · exact ih h.2.2 ht

theorem Tiled.skip_last (h : Tiled [] last) :
    last.takeWhile isBlank = last ∧ last.dropWhile isBlank = [] :=
  ⟨List.takeWhile_eq_self_iff.mpr h, List.dropWhile_eq_nil_iff.mpr h⟩

/-- A text is tiled in one way only. -/
theorem Tiled.unique (h : Tiled ts last) (h' : Tiled ts' last')
    (heq : together ts last = together ts' last') : ts = ts' ∧ last = last' := by
  induction ts generalizing ts' with
  | nil =>
    cases ts' with
    | nil => exact ⟨rfl, heq⟩
    | cons t' ts' =>
      have hskip : (together ([] : List Tile) last).dropWhile isBlank = [] := h.skip_last.2
      obtain ⟨c, cs, hcovered, -⟩ := h'.2.1.exists_cons
      rw [heq, h'.skip.2, hcovered] at hskip
      exact nomatch hskip
  | cons t ts ih =>
    cases ts' with
    | nil =>
      have hskip : (together ([] : List Tile) last').dropWhile isBlank = [] := h'.skip_last.2
      obtain ⟨c, cs, hcovered, -⟩ := h.2.1.exists_cons
      rw [← heq, h.skip.2, hcovered] at hskip
      exact nomatch hskip
    | cons t' ts' =>
      have hblanks : t.blanks = t'.blanks := by rw [← h.skip.1, heq, h'.skip.1]
      have hrest : t.covered ++ together ts last = t'.covered ++ together ts' last' := by
        rw [← h.skip.2, heq, h'.skip.2]
      obtain ⟨hword, hcovered, htogether⟩ := h.2.1.unique h'.2.1 hrest
      obtain ⟨rfl, rfl⟩ := ih h.2.2 h'.2.2 htogether
      obtain ⟨blanks, covered, word⟩ := t
      obtain ⟨blanks', covered', word'⟩ := t'
      cases hblanks
      cases hcovered
      cases hword
      exact ⟨rfl, rfl⟩

/-- Every text is tiled. -/
theorem exists_tiled (cs : List Char) : ∃ ts last, Tiled ts last ∧ together ts last = cs := by
  induction hn : cs.length using Nat.strongRecOn generalizing cs with
  | ind n ih =>
    have hsplit := List.takeWhile_append_dropWhile (p := isBlank) (l := cs)
    have hblanks : ∀ b ∈ cs.takeWhile isBlank, isBlank b = true := fun b hb =>
      List.mem_takeWhile_imp hb
    cases hrest : cs.dropWhile isBlank with
    | nil =>
      rw [hrest, List.append_nil] at hsplit
      exact ⟨[], cs, hsplit ▸ hblanks, rfl⟩
    | cons c ds =>
      rw [hrest] at hsplit
      have hblank : isBlank c = false := eq_false_of_dropWhile hrest
      have hlt : (Lexeme.cut c ds).rest.length < n := by
        have hle := Lexeme.rest_cut_length_le c ds
        have hlength := congrArg List.length hsplit
        rw [List.length_append, List.length_cons] at hlength
        omega
      obtain ⟨ts, last, htiled, htogether⟩ := ih _ hlt _ rfl
      have hcovers := Lexeme.covers hblank ds
      rw [← htogether] at hcovers
      refine ⟨⟨cs.takeWhile isBlank, _, _⟩ :: ts, last, ⟨hblanks, hcovers, htiled⟩, ?_⟩
      rw [together_cons, htogether, Lexeme.covers_cut, hsplit]

namespace Cursor

variable {before : List Char}

/-- A tile is one token. -/
theorem next?_of_tiled (h : Tiled (t :: ts) last) :
    next? ⟨.behind before, together (t :: ts) last⟩ =
      some (⟨t.word.1, t.word.2, .behind (before ++ t.blanks)⟩,
        ⟨.behind (before ++ t.chars), together ts last⟩) := by
  obtain ⟨c, cs, hsplit, -, hcut⟩ := h.2.1.cut
  have hskip : skipBlanks ⟨.behind before, together (t :: ts) last⟩ =
      ⟨.behind (before ++ t.blanks), c :: cs⟩ := by
    rw [skipBlanks, h.skip.1, h.skip.2, hsplit, Position.afterAll_behind]
  rw [next?, hskip]
  simp only [hcut, Position.afterAll_behind, String.ofList_toList, Tile.chars, List.append_assoc]

/-- The tokens from a place on are those of the tiles there. -/
theorem toList_tokens (h : Tiled ts last) :
    (tokens ⟨.behind before, together ts last⟩).toList = tokensOfTiles before ts last := by
  induction ts generalizing before with
  | nil =>
    have hskip : skipBlanks ⟨.behind before, together [] last⟩ = ⟨.behind (before ++ last), []⟩ := by
      rw [skipBlanks, together, List.flatMap_nil, List.nil_append, h.skip_last.1, h.skip_last.2,
        Position.afterAll_behind]
    have hnext : next? ⟨.behind before, together [] last⟩ = none := by rw [next?, hskip]
    rw [tokens_of_none hnext, hskip]
    rfl
  | cons t ts ih =>
    rw [tokens_of_some (next?_of_tiled h), tokensOfTiles, ← ih h.2.2]
    rfl

end Cursor

/-- The tokens of a text that is tiled. -/
theorem Tokens.toList_ofText {s : String} (htogether : together ts last = s.toList)
    (h : Tiled ts last) : (ofText s).toList = tokensOfTiles [] ts last := by
  rw [← Cursor.toList_tokens h, htogether]
  rfl

/-- Every text is a row of tiles with blanks behind them, in one way only; its tokens are the words of
the tiles, each at the place of the first character it covers, and then the mark of the end at the end
of the text, which no other token is. What a word covers is never empty and starts with no blank, so the
blanks of a tile are all there are. -/
theorem ofText_tiled (s : String) :
    ∃ tiles last, together tiles last = s.toList ∧ Tiled tiles last ∧
      (∀ tiles' last', together tiles' last' = s.toList → Tiled tiles' last' →
        tiles' = tiles ∧ last' = last) ∧
      (∀ t ∈ tiles, ∃ c cs, t.covered = c :: cs ∧ isBlank c = false) ∧
      (Tokens.ofText s).toList = tokensOfTiles [] tiles last ∧
      ∀ t ∈ (Tokens.ofText s).list, t.kind ≠ .finish := by
  obtain ⟨tiles, last, htiled, htogether⟩ := exists_tiled s.toList
  refine ⟨tiles, last, htogether, htiled, ?_, ?_, ?_, ?_⟩
  · intro tiles' last' htogether' htiled'
    exact htiled'.unique htiled (htogether'.trans htogether.symm)
  · intro t ht
    obtain ⟨rest, hcovers⟩ := htiled.exists_covers ht
    exact hcovers.exists_cons
  · exact Tokens.toList_ofText htogether htiled
  · intro t ht hfinish
    have hproper := Tokens.proper_of_mem ht
    rw [Token.word, hfinish] at hproper
    exact hproper

/-- An instance: a number and a name with nothing between them, and a string over a line feed that
nothing closes. -/
theorem ofText_tiled_unclosed :
    Tiled [⟨[], "0Xa".toList, (.number, "a")⟩, ⟨[], ['g'], (.identifier, "g")⟩,
      ⟨[' '], "\"\n0x".toList, (.text, "\n0x")⟩] [] ∧
    (Tokens.ofText "0Xag \"\n0x").toList =
      [⟨.number, "a", ⟨1, 1⟩⟩, ⟨.identifier, "g", ⟨1, 4⟩⟩, ⟨.text, "\n0x", ⟨1, 6⟩⟩,
        Token.finish ⟨2, 3⟩] := by
  have htiled : Tiled [⟨[], "0Xa".toList, (.number, "a")⟩, ⟨[], ['g'], (.identifier, "g")⟩,
      ⟨[' '], "\"\n0x".toList, (.text, "\n0x")⟩] [] := by
    have hnumber : Word.Covers (.number, String.ofList ['a']) ['0', 'X', 'a'] "g \"\n0x".toList :=
      .number (.inr rfl) (List.all_eq_true.mp rfl) (by simp [Ends]; decide)
    have hname : Word.Covers (.identifier, String.ofList ['g']) ['g'] " \"\n0x".toList :=
      .name rfl nofun (by decide) (by simp [Ends]; decide)
    exact ⟨nofun, hnumber, nofun, hname, List.all_eq_true.mp rfl, .unclosed (by decide), nofun⟩
  obtain ⟨tiles, last, -, -, hunique, -, htokens, -⟩ := ofText_tiled "0Xag \"\n0x"
  obtain ⟨rfl, rfl⟩ := hunique _ _ rfl htiled
  exact ⟨htiled, htokens⟩

end HexConfig
