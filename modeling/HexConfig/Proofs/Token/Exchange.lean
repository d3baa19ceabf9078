import HexConfig.Proofs.Token.Laid

/-!
# One word for another in a text

Where a number stands in a text, another number can be written, or a quoted string: all that comes before is cut
as it was, since it cannot tell what the number goes on with behind its zero, and a quote takes nothing in
from in front of it; and what comes behind goes on where the new word ends (`Tiled.exchange`).

So the text has the tokens it had up to the number, at the places they had, then the new word where the number
was, and behind it the words it had (`Hex.Numeral.exists_exchange`). That a number stands between two texts is
said by its token: there is one at the place behind the first.
-/

namespace HexConfig

/-! ## Numbers as they are written -/

/-- A number as it is written: the mark behind the zero, and the digits, one at least. -/
structure Hex.Numeral where
  mark : Char
  digits : String
  marked : mark = 'x' ∨ mark = 'X'
  ne_empty : digits ≠ ""
  hex : ∀ d ∈ digits.toList, Hex.isDigit d = true

namespace Hex.Numeral

/-- The characters of the number. -/
def text (n : Numeral) : String := String.ofList ('0' :: n.mark :: n.digits.toList)

/-- What the digits are worth. -/
def value (n : Numeral) : Nat := Hex.value n.digits.toList

theorem toList_text (n : Numeral) : n.text.toList = '0' :: n.mark :: n.digits.toList :=
  String.toList_ofList

/-- A numeral covers its word where no digit stands behind. -/
theorem covers (n : Numeral) {rest : List Char} (hrest : Ends Hex.isDigit rest) :
    Word.Covers (.number, n.digits) n.text.toList rest := by
  have hcovers : Word.Covers (.number, String.ofList n.digits.toList) _ rest :=
    .number n.marked n.hex hrest
  rwa [String.ofList_toList, ← toList_text] at hcovers

end Hex.Numeral

/-- A word that is a number covers its digits behind the mark. -/
theorem Word.Covers.eq_number {digits : String} {covered rest : List Char}
    (h : Word.Covers (.number, digits) covered rest) :
    (∃ mark, covered = '0' :: mark :: digits.toList) ∧ Ends Hex.isDigit rest := by
  cases h with
  | number _ _ hends => exact ⟨⟨_, by rw [String.toList_ofList]⟩, hends⟩
  | sign hsign => exact nomatch hsign

/-! ## Places -/

section Places

variable {cs ds rest rest' : List Char}

/-- Something behind the characters is at another place. -/
theorem Position.eq_nil_of_behind (h : behind (cs ++ ds) = behind cs) : ds = [] := by
  obtain ⟨hline, hcolumn⟩ := Position.mk.inj h
  rw [List.count_append] at hline
  have hnone : ds.count '\n' = 0 := by omega
  have hline : ∀ d ∈ ds.reverse, (d != '\n') = true := by
    intro d hd
    have hne : d ≠ '\n' := by
      rintro rfl
      exact List.count_eq_zero.mp hnone (List.mem_reverse.mp hd)
    simpa using hne
  rw [List.reverse_append, List.takeWhile_append_of_pos hline, List.length_append,
    List.length_reverse] at hcolumn
  exact List.eq_nil_of_length_eq_zero (by omega)

/-- A place in a text tells what is before it. -/
theorem Position.eq_of_behind (htext : cs ++ rest = ds ++ rest') (h : behind cs = behind ds) : cs = ds := by
  rcases List.append_eq_append_iff.mp htext with ⟨more, rfl, -⟩ | ⟨more, rfl, -⟩
  · rw [eq_nil_of_behind h.symm, List.append_nil]
  · rw [eq_nil_of_behind h, List.append_nil]

end Places

/-! ## Tokens of tiles -/

/-- The tokens of tiles that stand behind other characters. -/
def placed (before : List Char) : List Tile → List Token
  | [] => []
  | t :: ts => ⟨t.word.1, t.word.2, .behind (before ++ t.blanks)⟩ :: placed (before ++ t.chars) ts

section Tiles

variable {t : Token} {ts us : List Tile} {last blanks before : List Char}

/-- The tokens of tiles are the tokens where they are placed, and the mark of the end. -/
theorem tokensOfTiles_eq (before : List Char) (ts : List Tile) (last : List Char) :
    tokensOfTiles before ts last = placed before ts ++ [Token.finish (.behind (before ++ together ts last))] := by
  induction ts generalizing before with
  | nil => rfl
  | cons t ts ih =>
    rw [tokensOfTiles, ih, placed, List.cons_append, together_cons, Tile.chars]
    simp only [List.append_assoc]

/-- Where tiles are placed makes no difference to their words. -/
theorem map_word_placed (before : List Char) (ts : List Tile) :
    (placed before ts).map Token.word = ts.map Tile.word := by
  induction ts generalizing before with
  | nil => rfl
  | cons t ts ih => rw [placed, List.map_cons, ih, List.map_cons]; rfl

/-- Tiles behind others are placed behind the text of those. -/
theorem placed_append (before : List Char) (ts us : List Tile) :
    placed before (ts ++ us) = placed before ts ++ placed (before ++ together ts []) us := by
  induction ts generalizing before with
  | nil => simp [placed, together]
  | cons t ts ih => simp [placed, ih, together_cons, Tile.chars]

/-- The text of tiles side by side. -/
theorem together_append (ts us : List Tile) (last : List Char) :
    together (ts ++ us) last = together ts (together us last) := by
  simp [together]

theorem together_append_right (ts : List Tile) (cs ds : List Char) :
    together ts (cs ++ ds) = together ts cs ++ ds := by
  simp [together]

/-- The row of a text that is tiled. -/
theorem Tokens.ofText_eq {s : String} (htogether : together ts last = s.toList) (h : Tiled ts last) :
    ofText s = ⟨placed [] ts, .behind s.toList⟩ := by
  have htokens := toList_ofText htogether h
  rw [tokensOfTiles_eq, List.nil_append, htogether] at htokens
  obtain ⟨hlist, hfinish⟩ := List.append_inj' htokens rfl
  have hfinish : (ofText s).finish = .behind s.toList :=
    congrArg Token.position (List.head_eq_of_cons_eq hfinish)
  rw [← hlist, ← hfinish]

/-- A token of tiles is that of one of them. -/
theorem exists_tile_of_mem (h : t ∈ placed before ts) :
    ∃ us tile vs, ts = us ++ tile :: vs ∧
      t = ⟨tile.word.1, tile.word.2, .behind (before ++ together us tile.blanks)⟩ := by
  induction ts generalizing before with
  | nil => exact absurd h List.not_mem_nil
  | cons tile ts ih =>
    rcases List.mem_cons.mp h with rfl | h
    · exact ⟨[], tile, ts, rfl, rfl⟩
    · obtain ⟨us, tile', vs, rfl, rfl⟩ := ih h
      refine ⟨tile :: us, tile', vs, rfl, ?_⟩
      rw [together_cons, List.append_assoc, Tile.chars, List.append_assoc]

/-- What is left of a tiling behind some of its tiles is a tiling. -/
theorem Tiled.of_append (h : Tiled (ts ++ us) last) : Tiled us last := by
  induction ts with
  | nil => exact h
  | cons t ts ih => exact ih h.2.2

end Tiles

/-! ## Another word -/

section Exchange

variable {w w' : Word} {covered covered' rest rest' blanks last : List Char} {ts us : List Tile}

/-- What comes next is as it was, or a quote. -/
def Meets (rest rest' : List Char) : Prop := rest'.head? = rest.head? ∨ rest'.head? = some '"'

theorem Meets.append (cs : List Char) (h : Meets rest rest') : Meets (cs ++ rest) (cs ++ rest') := by
  cases cs with
  | nil => exact h
  | cons c cs => exact .inl rfl

/-- What ends a row of characters ends it still, if it is no quote. -/
theorem Meets.ends {p : Char → Bool} (h : Meets rest rest') (hends : Ends p rest) (hquote : p '"' = false) :
    Ends p rest' := by
  intro d hd
  rcases h with heq | heq
  · exact hends d (heq ▸ hd)
  · obtain rfl : '"' = d := Option.some.inj (heq.symm.trans hd)
    exact hquote

/-- A word that something follows is told by its characters and the next. -/
theorem Word.Covers.of_meets (h : w.Covers covered rest) (hrest : rest ≠ []) (hnext : Meets rest rest') :
    w.Covers covered rest' := by
  cases h with
  | number hmark hdigits hends => exact .number hmark hdigits (hnext.ends hends rfl)
  | global hends => exact .global (hnext.ends hends rfl)
  | boolean hs hends => exact .boolean hs (hnext.ends hends rfl)
  | name hc hcs hreserved hends => exact .name hc hcs hreserved (hnext.ends hends rfl)
  | closed hquote => exact .closed hquote
  | unclosed => exact absurd rfl hrest
  | sign hsign hglobal => exact .sign hsign hglobal
  | invalid hblank halpha hquote hsign hzero =>
    refine .invalid hblank halpha hquote hsign fun hc => ?_
    rcases hnext with heq | heq
    · rw [heq]
      exact hzero hc
    · rw [heq]
      exact ⟨by decide, by decide⟩

/-- One word may be exchanged for another that begins as it did or with a quote. -/
theorem Tiled.exchange (h : Tiled (ts ++ ⟨blanks, covered, w⟩ :: us) last)
    (hcovers : w'.Covers covered' (together us last)) (hnext : Meets covered covered') :
    Tiled (ts ++ ⟨blanks, covered', w'⟩ :: us) last := by
  induction ts with
  | nil => exact ⟨h.1, hcovers, h.2.2⟩
  | cons t ts ih =>
    have hrest (cs : List Char) (w : Word) : together (ts ++ ⟨blanks, cs, w⟩ :: us) last =
        together ts blanks ++ (cs ++ together us last) := by
      rw [together_append, together_cons, together_append_right]
    have hword : w.Covers covered (together us last) := h.2.2.of_append.2.1
    obtain ⟨c, cs, rfl, -⟩ := hword.exists_cons
    obtain ⟨c', cs', rfl, -⟩ := hcovers.exists_cons
    have htile : t.word.Covers t.covered (together (ts ++ ⟨blanks, c :: cs, w⟩ :: us) last) := h.2.1
    rw [hrest] at htile
    have hmeets : Meets (c :: cs ++ together us last) (c' :: cs' ++ together us last) := hnext
    have htile' := htile.of_meets (by simp) (hmeets.append (together ts blanks))
    rw [← hrest _ w'] at htile'
    exact ⟨h.1, htile', ih h.2.2⟩

end Exchange

/-! ## Another word for a number -/

namespace Hex.Numeral

variable {n : Numeral} {before after : String}

/-- All numbers begin alike. -/
theorem meets (n n' : Numeral) : Meets n.text.toList n'.text.toList := by
  rw [n.toList_text, n'.toList_text]
  exact .inl rfl

/-- A number between two texts is a tile there. -/
theorem exists_tiled
    (h : ⟨.number, n.digits, .behind before.toList⟩ ∈ (Tokens.ofText (before ++ n.text ++ after)).list) :
    ∃ ts blanks us last, Tiled (ts ++ ⟨blanks, n.text.toList, (.number, n.digits)⟩ :: us) last ∧
      before.toList = together ts blanks ∧ after.toList = together us last := by
  obtain ⟨tiles, last, htiled, htogether⟩ := HexConfig.exists_tiled (before ++ n.text ++ after).toList
  rw [Tokens.ofText_eq htogether htiled] at h
  obtain ⟨ts, ⟨blanks, covered, w⟩, us, rfl, htoken⟩ := exists_tile_of_mem h
  obtain ⟨hkind, htext, hplace⟩ := Token.mk.inj htoken
  obtain rfl : (.number, n.digits) = w := Prod.ext hkind htext
  rw [together_append, together_cons, together_append_right, String.toList_append, String.toList_append,
    List.append_assoc] at htogether
  have hbefore := Position.eq_of_behind htogether hplace.symm
  rw [hbefore] at htogether
  have hcovers : Word.Covers (.number, n.digits) covered (together us last) := htiled.of_append.2.1
  obtain ⟨⟨mark, hcovered⟩, -⟩ := hcovers.eq_number
  have hlength : covered.length = n.text.toList.length := by
    rw [hcovered, n.toList_text]
    rfl
  obtain ⟨rfl, hafter⟩ := List.append_inj (List.append_cancel_left htogether) hlength
  exact ⟨ts, blanks, us, last, htiled, hbefore.symm, hafter.symm⟩

/-- Where a number stands between two texts, any other word can stand that begins as it did or with a quote:
the tokens before it and the words behind are as they were. -/
theorem exists_exchange
    (h : ⟨.number, n.digits, .behind before.toList⟩ ∈ (Tokens.ofText (before ++ n.text ++ after)).list) :
    Ends Hex.isDigit after.toList ∧ ∃ (used : List Token) (ws : List Word), ∀ {w : Word} {lexeme : String},
      w.Covers lexeme.toList after.toList → Meets n.text.toList lexeme.toList →
      ∃ rest finish, Tokens.ofText (before ++ lexeme ++ after) =
        ⟨used ++ ⟨w.1, w.2, .behind before.toList⟩ :: rest, finish⟩ ∧ rest.map Token.word = ws := by
  obtain ⟨ts, blanks, us, last, htiled, hbefore, hafter⟩ := exists_tiled h
  refine ⟨?_, placed [] ts, us.map Tile.word, ?_⟩
  · rw [hafter]
    exact htiled.of_append.2.1.eq_number.2
  · intro w lexeme hcovers hnext
    rw [hafter] at hcovers
    have htogether : together (ts ++ ⟨blanks, lexeme.toList, w⟩ :: us) last =
        (before ++ lexeme ++ after).toList := by
      rw [together_append, together_cons, together_append_right, String.toList_append, String.toList_append,
        hbefore, hafter, List.append_assoc]
    have hplaced : placed [] (ts ++ ⟨blanks, lexeme.toList, w⟩ :: us) = placed [] ts ++
        ⟨w.1, w.2, .behind before.toList⟩ :: placed (before.toList ++ lexeme.toList) us := by
      have hblanks : together ts [] ++ blanks = together ts blanks := (together_append_right ts [] blanks).symm
      rw [placed_append, List.nil_append, placed, Tile.chars, ← List.append_assoc, hblanks, hbefore]
    have htokens := Tokens.ofText_eq htogether (htiled.exchange hcovers hnext)
    rw [hplaced] at htokens
    exact ⟨_, _, htokens, map_word_placed _ us⟩

end Hex.Numeral

end HexConfig
