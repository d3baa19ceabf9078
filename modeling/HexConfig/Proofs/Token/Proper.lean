import HexConfig.Source
import HexConfig.Token.Cursor
import Mathlib.Data.List.TakeWhile

/-!
# What a token of a text can be

Not every pair of a kind and a text is the word of a token. A brace carries a brace, a number only
hexadecimal digits, a string no quote, a name is spelled as names are and is none of the reserved
words: such words are *proper*, and every token that is cut off a text has a proper word
(`Tokens.proper_ofText`). The kind of a sign therefore fixes its text, which is why a row of kinds
says as much of the signs of a text as the row of its tokens.

A text has no more tokens than characters (`Tokens.length_ofText_le`), nor more than bytes: so
nothing that is counted once per token comes near the greatest number a limit can be set to.
-/

namespace HexConfig

/-- The one text that tokens of a kind carry, for the kinds that have one. -/
def Token.Kind.sign? : Token.Kind → Option String
  | leftBrace => some "\x7b"
  | rightBrace => some "\x7d"
  | leftBracket => some "["
  | rightBracket => some "]"
  | leftParen => some "("
  | rightParen => some ")"
  | hash => some "#"
  | equals => some "="
  | question => some "?"
  | global => some "global"
  | number => none
  | text => none
  | identifier => none
  | finish => none
  | invalid => none

/-- What a token of a kind may carry. -/
def Word.Proper (w : Word) : Prop :=
  match w.1 with
  | .number => ∀ c ∈ w.2.toList, Hex.isDigit c = true
  | .text => '"' ∉ w.2.toList
  | .identifier => ∃ c cs, w.2.toList = c :: cs ∧ c.isAlpha = true ∧
      (∀ d ∈ cs, isWordChar d = true) ∧ Token.Kind.ofWord w.2.toList = .identifier
  | .invalid => ∃ c, w.2.toList = [c]
  | .finish => False
  | k => k.sign? = some w.2

/-- A proper word of a kind with a sign carries that sign. -/
theorem Word.Proper.eq_sign {w : Word} (h : w.Proper) {sign : String}
    (hs : w.1.sign? = some sign) : w = (w.1, sign) := by
  obtain ⟨k, text⟩ := w
  cases k <;> simp_all [Word.Proper, Token.Kind.sign?]

namespace Lexeme

/-- A number that is cut off consists of digits. -/
theorem proper_number (mark cs : List Char) :
    Word.Proper (.number, String.ofList (number mark cs).text) := by
  intro c hc
  rw [String.toList_ofList] at hc
  exact List.mem_takeWhile_imp hc

/-- A string that is cut off holds no quote. -/
theorem proper_quoted (cs : List Char) :
    Word.Proper (.text, String.ofList (quoted cs).text) := by
  intro hc
  rw [String.toList_ofList] at hc
  have := List.mem_takeWhile_imp hc
  exact absurd this (by decide)

/-- A single character that is cut off is spelled as its kind is. -/
theorem proper_single (c : Char) (cs : List Char) :
    Word.Proper ((single c cs).kind, String.ofList (single c cs).text) := by
  show Word.Proper (.ofChar c, String.ofList [c])
  unfold Token.Kind.ofChar
  split
  any_goals rfl
  exact ⟨c, String.toList_ofList⟩

/-- A word that is a reserved one carries its spelling, and any other is a name. -/
theorem proper_word {c : Char} (hc : c.isAlpha = true) (cs : List Char) :
    Word.Proper ((word c cs).kind, String.ofList (word c cs).text) := by
  have hrest : ∀ d ∈ cs.takeWhile isWordChar, isWordChar d = true :=
    fun d hd => List.mem_takeWhile_imp hd
  show Word.Proper (.ofWord (c :: cs.takeWhile isWordChar),
    String.ofList (c :: cs.takeWhile isWordChar))
  generalize cs.takeWhile isWordChar = ds at hrest
  by_cases hglobal : c :: ds = "global".toList
  · rw [hglobal]
    rfl
  · by_cases hbool : c :: ds = "true".toList ∨ c :: ds = "false".toList
    · have hkind : Token.Kind.ofWord (c :: ds) = .text := by
        rw [Token.Kind.ofWord, if_neg hglobal, if_pos hbool]
      rw [hkind]
      intro hquote
      rw [String.toList_ofList] at hquote
      rcases hbool with h | h <;> rw [h] at hquote <;> exact absurd hquote (by decide)
    · have hkind : Token.Kind.ofWord (c :: ds) = .identifier := by
        rw [Token.Kind.ofWord, if_neg hglobal, if_neg hbool]
      rw [hkind]
      exact ⟨c, ds, String.toList_ofList, hc, hrest, by rw [String.toList_ofList, hkind]⟩

/-- Whatever is cut off a text makes a proper word. -/
theorem proper_cut (c : Char) (cs : List Char) :
    Word.Proper ((cut c cs).kind, String.ofList (cut c cs).text) := by
  unfold cut
  split
  · exact proper_number _ _
  · exact proper_number _ _
  · exact proper_quoted _
  · split
    · next halpha => exact proper_word halpha _
    · exact proper_single _ _

end Lexeme

namespace Cursor

/-- The next token is spelled as its kind is. -/
theorem proper_next? {c d : Cursor} {t : Token} (h : c.next? = some (t, d)) :
    Word.Proper t.word := by
  unfold next? at h
  split at h
  · exact nomatch h
  · obtain ⟨rfl, -⟩ := Prod.mk.inj (Option.some.inj h)
    exact Lexeme.proper_cut _ _

/-- The row from a cursor on, where nothing but blanks is left. -/
theorem tokens_of_none {c : Cursor} (h : c.next? = none) :
    c.tokens = ⟨[], c.skipBlanks.position⟩ := by
  rw [tokens]
  split
  · rfl
  · next heq =>
    rw [h] at heq
    exact absurd heq.symm (Option.some_ne_none _)

/-- The row from a cursor on, where a token is left. -/
theorem tokens_of_some {c d : Cursor} {t : Token} (h : c.next? = some (t, d)) :
    c.tokens = { d.tokens with list := t :: d.tokens.list } := by
  rw [tokens]
  split
  · next heq =>
    rw [h] at heq
    exact absurd heq (Option.some_ne_none _)
  · next heq =>
    rw [h] at heq
    cases heq
    rfl

/-- Every token of a row is spelled as its kind is. -/
theorem proper_tokens (c : Cursor) : ∀ t ∈ c.tokens.list, Word.Proper t.word := by
  induction hn : c.rest.length using Nat.strongRecOn generalizing c with
  | ind n ih =>
    intro t ht
    cases hnext : c.next? with
    | none =>
      rw [tokens_of_none hnext] at ht
      exact absurd ht List.not_mem_nil
    | some next =>
      obtain ⟨t', d⟩ := next
      rw [tokens_of_some hnext] at ht
      rcases List.mem_cons.mp ht with rfl | ht
      · exact proper_next? hnext
      · exact ih d.rest.length (hn ▸ next?_shrinks hnext) d rfl t ht

/-- A row has no more tokens than the text has characters. -/
theorem length_tokens_le (c : Cursor) : c.tokens.list.length ≤ c.rest.length := by
  induction hn : c.rest.length using Nat.strongRecOn generalizing c with
  | ind n ih =>
    cases hnext : c.next? with
    | none =>
      rw [tokens_of_none hnext]
      exact Nat.zero_le n
    | some next =>
      obtain ⟨t, d⟩ := next
      have hlt : d.rest.length < n := hn ▸ next?_shrinks hnext
      have hle := ih d.rest.length hlt d rfl
      rw [tokens_of_some hnext, List.length_cons]
      omega

end Cursor

/-- A text has no more characters than bytes. -/
theorem length_toList_le_utf8ByteSize (s : String) : s.toList.length ≤ s.utf8ByteSize := by
  rw [← String.ofList_toList (s := s)]
  generalize s.toList = cs
  rw [String.toList_ofList]
  induction cs with
  | nil => exact Nat.zero_le _
  | cons c cs ih =>
    have hsize : (String.ofList (c :: cs)).utf8ByteSize =
        c.utf8Size + (String.ofList cs).utf8ByteSize := by
      rw [String.ofList_cons, String.utf8ByteSize_append, String.utf8ByteSize_singleton]
    have hpos := c.utf8Size_pos
    rw [List.length_cons]
    omega

namespace Tokens

/-- Every token of a text has a proper word. -/
theorem proper_ofText (s : String) : ∀ w ∈ (ofText s).words, w.Proper := by
  intro w hw
  obtain ⟨t, ht, rfl⟩ := List.mem_map.mp hw
  exact (Cursor.ofText s).proper_tokens t ht

theorem proper_of_mem {s : String} {t : Token} (h : t ∈ (ofText s).list) : Word.Proper t.word :=
  proper_ofText s _ (List.mem_map_of_mem h)

/-- A text has no more tokens than bytes. -/
theorem length_ofText_le (s : String) : (ofText s).list.length ≤ s.utf8ByteSize :=
  Nat.le_trans (Cursor.ofText s).length_tokens_le (length_toList_le_utf8ByteSize s)

end Tokens

end HexConfig
