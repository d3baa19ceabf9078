import HexConfig.Proofs.Token.Tiling

/-!
# Words laid out

A row of words can be written down in many ways: `0x` or `0X` in front of a number, `true` and `false` with
quotes or without, and any blanks between one word and the next, as long as there are some. However it is
done, the text has these words and no others (`LaidOut.wordsAhead`), if they are words that texts have at
all (`Word.Occurs`).
-/

namespace HexConfig

/-- The word is found in some text. -/
def Word.Occurs (w : Word) : Prop := ∃ covered rest, w.Covers covered rest

/-- A word is written so. -/
inductive Word.Written : Word → List Char → Prop
  | number {mark : Char} {digits : String} : mark = 'x' ∨ mark = 'X' →
      Written (.number, digits) ('0' :: mark :: digits.toList)
  | quoted {s : String} : Written (.text, s) ('"' :: (s.toList ++ ['"']))
  | bare {s : String} : s = "true" ∨ s = "false" → Written (.text, s) s.toList
  | plain {kind : Token.Kind} {s : String} : kind ≠ .number → kind ≠ .text →
      Written (kind, s) s.toList

/-- Words in order, each written in one of its ways, with blanks between any two, perhaps some in front of
the first and behind the last, and nothing else. -/
def LaidOut (ws : List Word) (cs : List Char) : Prop :=
  ∃ tiles last, together tiles last = cs ∧ tiles.map Tile.word = ws ∧
    (∀ t ∈ tiles, t.word.Written t.covered ∧ ∀ b ∈ t.blanks, isBlank b = true) ∧
    (∀ t ∈ tiles.tail, t.blanks ≠ []) ∧ ∀ b ∈ last, isBlank b = true

/-- Blanks come next, or nothing does. -/
def Parted (rest : List Char) : Prop := ∀ d, rest.head? = some d → isBlank d = true

instance : DecidablePred Parted := fun rest =>
  decidable_of_iff (rest.head?.all isBlank = true) (Option.all_eq_true _ _)

variable {w : Word} {covered lexeme rest rest' : List Char}

theorem Parted.ends (h : Parted rest) {p : Char → Bool} (hp : ∀ b, isBlank b = true → p b = false) :
    Ends p rest :=
  fun d hd => hp d (h d hd)

theorem covers_quoted_of_not_mem {s : String} (h : '"' ∉ s.toList) (rest : List Char) :
    Word.Covers (.text, s) ('"' :: (s.toList ++ ['"'])) rest := by
  have hcovers : Word.Covers (.text, String.ofList s.toList) _ rest := .closed h
  rwa [String.ofList_toList] at hcovers

/-- A word that texts have is found where it is written, whichever way, if blanks come next. -/
theorem Word.Covers.of_written (h : w.Covers covered rest) (hw : w.Written lexeme)
    (hrest : Parted rest') : w.Covers lexeme rest' := by
  have hword : Ends isWordChar rest' := hrest.ends fun _ => isWordChar_of_isBlank
  cases h with
  | number _ hdigits _ =>
    cases hw with
    | number hmark =>
      rw [String.toList_ofList]
      exact .number hmark hdigits (hrest.ends fun _ => isDigit_of_isBlank)
    | plain hkind _ => exact absurd rfl hkind
  | global =>
    cases hw
    exact .global hword
  | boolean hs _ =>
    cases hw with
    | quoted => exact covers_quoted_of_not_mem (by rcases hs with rfl | rfl <;> decide) _
    | bare hs => exact .boolean hs hword
    | plain _ hkind => exact absurd rfl hkind
  | name hc hcs hreserved _ =>
    cases hw
    rw [String.toList_ofList]
    exact .name hc hcs hreserved hword
  | closed hquote =>
    cases hw with
    | quoted => exact covers_quoted_of_not_mem (by rwa [String.toList_ofList]) _
    | bare hs => exact .boolean hs hword
    | plain _ hkind => exact absurd rfl hkind
  | unclosed hquote =>
    cases hw with
    | quoted => exact covers_quoted_of_not_mem (by rwa [String.toList_ofList]) _
    | bare hs => exact .boolean hs hword
    | plain _ hkind => exact absurd rfl hkind
  | sign hsign hglobal =>
    cases hw with
    | number => exact nomatch hsign
    | quoted => exact nomatch hsign
    | bare => exact nomatch hsign
    | plain => exact .sign hsign hglobal
  | invalid hblank halpha hquote hsign _ =>
    cases hw
    rw [String.toList_singleton]
    refine .invalid hblank halpha hquote hsign fun _ => ⟨fun hx => ?_, fun hX => ?_⟩
    · exact absurd (hrest _ hx) (by decide)
    · exact absurd (hrest _ hX) (by decide)

/-! ## Words that are found -/

/-- A word that is proper for its kind is found in a text. Only of a character that the language has no
use for that is not known from its word alone. -/
theorem Word.Proper.occurs (h : w.Proper) (hvalid : w.1 ≠ .invalid) : w.Occurs := by
  obtain ⟨k, s⟩ := w
  cases k with
  | number =>
    have hcovers : Word.Covers (.number, String.ofList s.toList) _ [] := .number (.inl rfl) h nofun
    rw [String.ofList_toList] at hcovers
    exact ⟨_, _, hcovers⟩
  | text => exact ⟨_, [], covers_quoted_of_not_mem h []⟩
  | identifier =>
    obtain ⟨c, cs, hs, hc, hcs, hkind⟩ := h
    have hs : s.toList = c :: cs := hs
    have hreserved := Token.Kind.ofWord_eq_identifier_iff.mp (hs ▸ hkind)
    have hcovers : Word.Covers _ _ [] := .name hc hcs hreserved nofun
    rw [← hs, String.ofList_toList] at hcovers
    exact ⟨_, [], hcovers⟩
  | finish => exact h.elim
  | invalid => exact absurd rfl hvalid
  | global =>
    obtain rfl := Option.some.inj h
    exact ⟨_, [], .global nofun⟩
  | _ => exact ⟨_, [], .sign h nofun⟩

/-! ## Rows of words -/

variable {ts : List Tile} {last : List Char}

/-- Tiles whose words are written in one of their ways tile a text, if there are blanks between them. -/
theorem tiled_of_written
    (hwritten : ∀ t ∈ ts, t.word.Written t.covered ∧ ∀ b ∈ t.blanks, isBlank b = true)
    (hoccurs : ∀ t ∈ ts, t.word.Occurs) (hparted : ∀ t ∈ ts.tail, t.blanks ≠ [])
    (hlast : ∀ b ∈ last, isBlank b = true) : Tiled ts last := by
  induction ts with
  | nil => exact hlast
  | cons t ts ih =>
    obtain ⟨hword, hblanks⟩ := hwritten t List.mem_cons_self
    obtain ⟨covered, rest, hcovers⟩ := hoccurs t List.mem_cons_self
    have hrest : Parted (together ts last) := by
      intro d hd
      cases ts with
      | nil => exact hlast d (List.mem_of_mem_head? hd)
      | cons t' ts =>
        obtain ⟨b, bs, hb⟩ := List.exists_cons_of_ne_nil (hparted t' List.mem_cons_self)
        have hblank := (hwritten t' (List.mem_cons_of_mem _ List.mem_cons_self)).2 b
          (hb ▸ List.mem_cons_self)
        rw [together_cons, hb] at hd
        obtain rfl : b = d := Option.some.inj hd
        exact hblank
    refine ⟨hblanks, hcovers.of_written hword hrest, ih ?_ ?_ ?_⟩
    · exact fun t' ht' => hwritten t' (List.mem_cons_of_mem _ ht')
    · exact fun t' ht' => hoccurs t' (List.mem_cons_of_mem _ ht')
    · exact fun t' ht' => hparted t' (List.mem_of_mem_tail ht')

theorem words_tokensOfTiles (before : List Char) (ts : List Tile) (last : List Char) :
    (tokensOfTiles before ts last).map Token.word = ts.map Tile.word ++ [(.finish, "")] := by
  induction ts generalizing before with
  | nil => rfl
  | cons t ts ih => rw [tokensOfTiles, List.map_cons, ih, List.map_cons, List.cons_append]; rfl

/-- The words of a text are those of its tiles. -/
theorem Tokens.words_ofText {s : String} (htogether : together ts last = s.toList) (h : Tiled ts last) :
    (ofText s).words = ts.map Tile.word := by
  have htokens := congrArg (List.map Token.word) (toList_ofText htogether h)
  rw [words_tokensOfTiles, toList, List.map_append] at htokens
  exact List.append_cancel_right htokens

/-- Every word of a text is a word that texts have. -/
theorem Tokens.occurs_of_mem {s : String} (h : w ∈ (ofText s).words) : w.Occurs := by
  obtain ⟨ts, last, htiled, htogether⟩ := exists_tiled s.toList
  rw [words_ofText htogether htiled] at h
  obtain ⟨t, ht, rfl⟩ := List.mem_map.mp h
  obtain ⟨rest, hcovers⟩ := htiled.exists_covers ht
  exact ⟨t.covered, rest, hcovers⟩

/-- However a row of words is laid out, it is the row that is read. -/
theorem LaidOut.words_ofText {ws : List Word} {s : String} (h : LaidOut ws s.toList)
    (hoccurs : ∀ w ∈ ws, w.Occurs) : (Tokens.ofText s).words = ws := by
  obtain ⟨ts, last, htogether, rfl, hwritten, hparted, hlast⟩ := h
  have htiled := tiled_of_written hwritten (fun t ht => hoccurs _ (List.mem_map_of_mem ht)) hparted hlast
  exact Tokens.words_ofText htogether htiled

end HexConfig
