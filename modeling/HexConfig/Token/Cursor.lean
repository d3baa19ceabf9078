import HexConfig.Hex
import HexConfig.Token

/-!
# Cutting a text into tokens

A cursor is a place in a text with the characters still ahead. `Cursor.next` skips blanks and cuts
one token off the front, by the longest match:

* `0x` or `0X`, then as many hexadecimal digits as follow (none will do): a number;
* an ASCII letter, then as many ASCII letters, digits and underscores as follow: a word;
* a quote, then everything up to the next quote, or to the end of the text if there is none: a
  string. There are no escapes, so a string never holds a quote;
* any other character: a token by itself.

Nothing is refused, and nothing is lost: the characters a lexeme covers and the characters after it
are the characters that stood ahead (`Lexeme.covers_cut`). That a lexeme covers at least one of them
is what ends `Cursor.tokens`.
-/

namespace HexConfig

/-- The characters that separate tokens and are otherwise skipped: space, tab, carriage return, line
feed, form feed and vertical tab. No other character is blank, whatever a wider alphabet says. -/
def isBlank (c : Char) : Bool :=
  c = ' ' || c = '\t' || c = '\r' || c = '\n' || c = '\x0c' || c = '\x0b'

/-- The characters a word goes on with. -/
def isWordChar (c : Char) : Bool :=
  c.isAlphanum || c = '_'

/-- A piece cut off the front of a text: the kind of token it makes, the text that token carries,
every character the piece covers, and the characters after it. -/
structure Lexeme where
  kind : Token.Kind
  text : List Char
  covered : List Char
  rest : List Char

namespace Lexeme

/-- A number, after its two-character mark. -/
def number (mark : List Char) (cs : List Char) : Lexeme where
  kind := .number
  text := cs.takeWhile Hex.isDigit
  covered := mark ++ cs.takeWhile Hex.isDigit
  rest := cs.dropWhile Hex.isDigit

/-- A word, from its first letter on. -/
def word (c : Char) (cs : List Char) : Lexeme where
  kind := .ofWord (c :: cs.takeWhile isWordChar)
  text := c :: cs.takeWhile isWordChar
  covered := c :: cs.takeWhile isWordChar
  rest := cs.dropWhile isWordChar

/-- A string, after its opening quote. The closing quote is covered but not carried. -/
def quoted (cs : List Char) : Lexeme where
  kind := .text
  text := cs.takeWhile (· != '"')
  covered := '"' :: (cs.takeWhile (· != '"') ++ (cs.dropWhile (· != '"')).take 1)
  rest := (cs.dropWhile (· != '"')).drop 1

/-- A character by itself. -/
def single (c : Char) (cs : List Char) : Lexeme where
  kind := .ofChar c
  text := [c]
  covered := [c]
  rest := cs

/-- The longest piece at the front of a text that starts with `c`, a character that is not blank. -/
def cut : Char → List Char → Lexeme
  | '0', 'x' :: cs => number ['0', 'x'] cs
  | '0', 'X' :: cs => number ['0', 'X'] cs
  | '"', cs => quoted cs
  | c, cs => if c.isAlpha then word c cs else single c cs

/-- Nothing is lost in cutting. -/
theorem covers_cut (c : Char) (cs : List Char) :
    (cut c cs).covered ++ (cut c cs).rest = c :: cs := by
  unfold cut
  split
  · simp [number]
  · simp [number]
  · simp only [quoted, List.cons_append, List.append_assoc, List.take_append_drop,
      List.takeWhile_append_dropWhile]
  · split <;> simp [word, single]

/-- What is left after cutting is no longer than what stood behind the first character. -/
theorem rest_cut_length_le (c : Char) (cs : List Char) : (cut c cs).rest.length ≤ cs.length := by
  unfold cut
  split
  · exact Nat.le_succ_of_le (List.dropWhile_suffix _).length_le
  · exact Nat.le_succ_of_le (List.dropWhile_suffix _).length_le
  · simp only [quoted, List.length_drop]
    exact Nat.le_trans (Nat.sub_le ..) (List.dropWhile_suffix _).length_le
  · split
    · exact (List.dropWhile_suffix _).length_le
    · exact Nat.le_refl _

end Lexeme

/-- A place in a text, and the characters from there on. -/
structure Cursor where
  position : Position
  rest : List Char

namespace Cursor

/-- The cursor before the first character of a text. -/
def ofText (s : String) : Cursor := ⟨.start, s.toList⟩

/-- The cursor after the blanks ahead. -/
def skipBlanks (c : Cursor) : Cursor where
  position := c.position.afterAll (c.rest.takeWhile isBlank)
  rest := c.rest.dropWhile isBlank

/-- The next token and the cursor after it, or `none` if only blanks are left. -/
def next? (c : Cursor) : Option (Token × Cursor) :=
  match c.skipBlanks.rest with
  | [] => none
  | ch :: cs =>
    let lexeme := Lexeme.cut ch cs
    some (⟨lexeme.kind, String.ofList lexeme.text, c.skipBlanks.position⟩,
      ⟨c.skipBlanks.position.afterAll lexeme.covered, lexeme.rest⟩)

/-- A token uses up at least one character. -/
theorem next?_shrinks {c d : Cursor} {t : Token} (h : c.next? = some (t, d)) :
    d.rest.length < c.rest.length := by
  have hle : c.skipBlanks.rest.length ≤ c.rest.length := (List.dropWhile_suffix _).length_le
  unfold next? at h
  split at h
  · exact nomatch h
  · next ch cs hr =>
    obtain ⟨-, rfl⟩ := Prod.mk.inj (Option.some.inj h)
    rw [hr, List.length_cons] at hle
    exact Nat.lt_of_le_of_lt (Lexeme.rest_cut_length_le ch cs) hle

/-- The next token and the cursor after it. Behind the last token comes the mark of the end, over
and over: reading it moves the cursor to the end of the text and no further. -/
def next (c : Cursor) : Token × Cursor :=
  c.next?.getD (Token.finish c.skipBlanks.position, c.skipBlanks)

/-- The row of tokens from a cursor on. -/
def tokens (c : Cursor) : Tokens :=
  match _h : c.next? with
  | none => ⟨[], c.skipBlanks.position⟩
  | some (t, d) => { d.tokens with list := t :: d.tokens.list }
termination_by c.rest.length
decreasing_by exact next?_shrinks _h

/-- The cursor at the end of the text, blanks skipped. -/
def exhausted (c : Cursor) : Cursor := ⟨c.tokens.finish, []⟩

end Cursor

/-- The row of tokens of a text. -/
def Tokens.ofText (s : String) : Tokens := (Cursor.ofText s).tokens

end HexConfig
