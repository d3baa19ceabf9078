/-!
# Tokens

A text is a row of characters; a token is a piece of it that the grammar speaks of: what kind of
piece it is, the text it carries, and where it starts. The text carried is not always the text
covered: a number carries its digits without the `0x`, a string its inside without the quotes.

`Tokens` is the whole row of a text. The token that marks the end of input is not in the list: it
stands once after the last one, is never used up, and carries nothing but its place, so a row is the
list together with the place where the text ends.
-/

namespace HexConfig

/-- A place in a text, both numbers counted from one. -/
structure Position where
  line : Nat
  column : Nat
  deriving DecidableEq

namespace Position

/-- Where every text starts. -/
def start : Position := ⟨1, 1⟩

/-- The place after one more character: a line feed opens a new line, and every other character
takes one column. -/
def after (p : Position) (c : Char) : Position :=
  if c = '\n' then ⟨p.line + 1, 1⟩ else ⟨p.line, p.column + 1⟩

/-- The place after a run of characters. -/
def afterAll (p : Position) (cs : List Char) : Position :=
  cs.foldl after p

end Position

/-- The kinds of token. -/
inductive Token.Kind where
  | number
  | text
  | identifier
  | leftBrace
  | rightBrace
  | leftBracket
  | rightBracket
  | leftParen
  | rightParen
  | hash
  | equals
  | question
  | global
  | finish
  | invalid
  deriving DecidableEq

namespace Token.Kind

/-- The name a kind goes by in messages. -/
def name : Kind → String
  | number => "NUMBER"
  | text => "STRING"
  | identifier => "IDENTIFIER"
  | leftBrace => "LBRACE"
  | rightBrace => "RBRACE"
  | leftBracket => "LBRACKET"
  | rightBracket => "RBRACKET"
  | leftParen => "LPAREN"
  | rightParen => "RPAREN"
  | hash => "HASH"
  | equals => "EQUALS"
  | question => "QUESTION"
  | global => "GLOBAL"
  | finish => "END"
  | invalid => "INVALID"

/-- Every kind, once. -/
def all : List Kind :=
  [number, text, identifier, leftBrace, rightBrace, leftBracket, rightBracket, leftParen,
    rightParen, hash, equals, question, global, finish, invalid]

/-- The kind that goes by a name. -/
def ofName? (s : String) : Option Kind :=
  all.find? (·.name = s)

/-- The kind of a character that stands alone. One that the grammar has no use for is a token too,
an invalid one: the text is cut whatever it holds, and the grammar refuses. -/
def ofChar : Char → Kind
  | '{' => leftBrace
  | '}' => rightBrace
  | '[' => leftBracket
  | ']' => rightBracket
  | '(' => leftParen
  | ')' => rightParen
  | '#' => hash
  | '=' => equals
  | '?' => question
  | _ => invalid

/-- The kind of a word. `true` and `false` travel as strings, so that a boolean may be written bare
or quoted. -/
def ofWord (word : List Char) : Kind :=
  if word = "global".toList then global
  else if word = "true".toList ∨ word = "false".toList then text
  else identifier

end Token.Kind

/-- A token: its kind, the text it carries, and the place of its first character. -/
structure Token where
  kind : Token.Kind
  text : String
  position : Position
  deriving DecidableEq

/-- The token that marks the end of input. -/
def Token.finish (p : Position) : Token := ⟨.finish, "", p⟩

/-- The row of tokens of a text, and where the text ends. -/
structure Tokens where
  list : List Token
  finish : Position
  deriving DecidableEq

namespace Tokens

/-- The row with the mark of the end written out. -/
def toList (ts : Tokens) : List Token :=
  ts.list ++ [Token.finish ts.finish]

end Tokens

end HexConfig
