import HexConfig.Proofs.Token.Terminated
import HexConfig.Proofs.Token.Tiling

/-!
# Tokens of a text that stands further down

Where a text starts changes the places of its tokens and nothing else. A text that starts some lines
further down has its tokens so many lines further down, in the same columns (`Cursor.tokens_down`), since
no line feed before it reaches into a column behind it.

So the tokens of two texts with a line feed between them are those of the first and, moved down by its
lines, those of the second (`Tokens.ofText_append_line`). The first has to close its strings: an open one
would take in the line feed and go on.
-/

namespace HexConfig

/-- The place so many lines further down, in the same column. -/
def Position.down (n : Nat) (p : Position) : Position := ⟨p.line + n, p.column⟩

/-- The token at another place. -/
def Token.relocate (f : Position → Position) (t : Token) : Token := { t with position := f t.position }

/-- The row with every token, and the end, at another place. -/
def Tokens.relocate (f : Position → Position) (ts : Tokens) : Tokens where
  list := ts.list.map (Token.relocate f)
  finish := f ts.finish

/-- The cursor so many lines further down. -/
def Cursor.down (n : Nat) (c : Cursor) : Cursor := { c with position := c.position.down n }

variable {n : Nat} {f : Position → Position}

@[simp]
theorem Token.kind_relocate (t : Token) : (t.relocate f).kind = t.kind := rfl

@[simp]
theorem Token.text_relocate (t : Token) : (t.relocate f).text = t.text := rfl

@[simp]
theorem Token.position_relocate (t : Token) : (t.relocate f).position = f t.position := rfl

namespace Position

/-- Moving a position down commutes with passing a character. -/
theorem after_down (p : Position) (c : Char) : (p.down n).after c = (p.after c).down n := by
  unfold after
  split
  · simp [down, Nat.add_right_comm]
  · rfl

/-- Moving a position down commutes with passing any number of characters. -/
theorem afterAll_down (p : Position) (cs : List Char) :
    (p.down n).afterAll cs = (p.afterAll cs).down n := by
  induction cs generalizing p with
  | nil => rfl
  | cons c cs ih =>
    show ((p.down n).after c).afterAll cs = ((p.after c).afterAll cs).down n
    rw [after_down, ih]

end Position

namespace Cursor

variable {c d : Cursor} {t : Token}

/-- Moving a cursor down commutes with skipping blanks. -/
theorem skipBlanks_down (c : Cursor) : (c.down n).skipBlanks = c.skipBlanks.down n := by
  simp only [skipBlanks, down, Position.afterAll_down]

/-- A cursor with no token left has none further down either. -/
theorem next?_down_of_none (h : c.next? = none) : (c.down n).next? = none := by
  unfold next? at h ⊢
  rw [skipBlanks_down]
  split at h
  · next hrest => simp only [down, hrest]
  · exact nomatch h

/-- A cursor moved down gives the same token, moved down. -/
theorem next?_down_of_some (h : c.next? = some (t, d)) :
    (c.down n).next? = some (t.relocate (.down n), d.down n) := by
  unfold next? at h ⊢
  rw [skipBlanks_down]
  split at h
  · exact nomatch h
  · next hrest =>
    cases h
    simp only [down, hrest, Position.afterAll_down, Token.relocate]

/-- The tokens of a text so many lines further down. -/
theorem tokens_down (c : Cursor) : (c.down n).tokens = c.tokens.relocate (.down n) := by
  induction hn : c.rest.length using Nat.strongRecOn generalizing c with
  | ind m ih =>
    cases hnext : c.next? with
    | none =>
      rw [tokens_of_none hnext, tokens_of_none (next?_down_of_none hnext), skipBlanks_down]
      rfl
    | some next =>
      obtain ⟨t, d⟩ := next
      have hd := ih d.rest.length (hn ▸ next?_shrinks hnext) d rfl
      rw [tokens_of_some hnext, tokens_of_some (next?_down_of_some hnext), hd]
      rfl

end Cursor

namespace Tokens

/-- The tokens of two texts with a line feed between them. -/
theorem ofText_append_line {s : String} (hs : Terminated s.toList) (t : String) :
    ofText (s ++ "\n" ++ t) =
      { (ofText t).relocate (.down (1 + s.toList.count '\n')) with
        list := (ofText s).list ++
          ((ofText t).relocate (.down (1 + s.toList.count '\n'))).list } := by
  have hline : ∃ b, ("\n" ++ t).toList.head? = some b ∧ isBlank b = true :=
    ⟨'\n', by simp, rfl⟩
  have hsecond : Cursor.tokens ⟨Position.start.afterAll s.toList, ("\n" ++ t).toList⟩ =
      (ofText t).relocate (.down (1 + s.toList.count '\n')) := by
    have hblank : ∀ b ∈ "\n".toList, isBlank b = true := by simp [isBlank]
    rw [String.toList_append, Cursor.tokens_blanks_append hblank, ofText, ← Cursor.tokens_down,
      Position.afterAll_start]
    congr 2
    simp [Position.afterAll, Position.after, Position.behind, Position.down, Position.start,
      Cursor.ofText]
    omega
  rw [String.append_assoc, ofText, Cursor.ofText, String.toList_append, Cursor.tokens_append hs hline,
    hsecond]
  rfl

end Tokens

end HexConfig
