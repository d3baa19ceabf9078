import HexConfig.Token

/-!
# Source trees

What is written in a source text, as trees: the values, with references left as they are written, and
the declarations in their order. A source tree is free of layout; `Program.words` gives its tokens
without their places, so the grammar of the language is this: a text is a source text if the words of
its tokens are the words of a program.

Nothing here reads a text. The tree of a text is spoken of, never computed: reading goes from tokens
to values at once (`HexConfig.Reader.Machine`), and what it must come to is said on trees
(`HexConfig.Source.Meaning`).
-/

namespace HexConfig

/-- A token without its place: its kind and the text it carries. -/
abbrev Word := Token.Kind × String

namespace Token

/-- The word of a token. -/
def word (t : Token) : Word := (t.kind, t.text)

end Token

/-- The words of a row of tokens. -/
def Tokens.words (ts : Tokens) : List Word := ts.list.map Token.word

/-- A value as it is written. -/
inductive Term where
  /-- A number, by its hexadecimal digits. -/
  | number (digits : String)
  /-- A string, quoted or bare. -/
  | string (s : String)
  /-- An array. -/
  | array (items : List Term)
  /-- An object, by its entries in the order they are written, a name perhaps more than once. -/
  | object (entries : List (String × Term))
  /-- A reference to a constant. -/
  | reference (name : String)

/-- A declaration as it is written. -/
inductive Declaration where
  /-- A constant. -/
  | global (name : String) (t : Term)
  /-- An entry of the document. -/
  | entry (key : String) (t : Term)
  /-- A block without a name. -/
  | block (entries : List (String × Term))

/-- A source text as it is written: declarations in order. -/
abbrev Program := List Declaration

/-! ## Words -/

namespace Term

mutual

/-- The words of a value. -/
def words : Term → List Word
  | .number digits => [(.number, digits)]
  | .string s => [(.text, s)]
  | .array items => (.hash, "#") :: (.leftParen, "(") :: (wordsOfItems items ++ [(.rightParen, ")")])
  | .object entries => (.leftBrace, "\x7b") :: (wordsOfEntries entries ++ [(.rightBrace, "\x7d")])
  | .reference name =>
    [(.question, "?"), (.leftBracket, "["), (.identifier, name), (.rightBracket, "]")]
termination_by structural t => t

/-- The words of an array's items, nothing between them. -/
def wordsOfItems : List Term → List Word
  | [] => []
  | t :: ts => words t ++ wordsOfItems ts
termination_by structural ts => ts

/-- The words of an object's entries, nothing between them. -/
def wordsOfEntries : List (String × Term) → List Word
  | [] => []
  | (k, t) :: es => (.identifier, k) :: (.equals, "=") :: (words t ++ wordsOfEntries es)
termination_by structural es => es

end

end Term

/-- The words of a declaration. -/
def Declaration.words : Declaration → List Word
  | global name t => (.global, "global") :: (.identifier, name) :: (.equals, "=") :: t.words
  | entry key t => (.identifier, key) :: (.equals, "=") :: t.words
  | block entries => (Term.object entries).words

/-- The words of a program: those of its declarations, nothing between them. -/
def Program.words (p : Program) : List Word := p.flatMap Declaration.words

end HexConfig
