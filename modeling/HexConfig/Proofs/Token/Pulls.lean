import HexConfig.Proofs.Token.Proper

/-!
# Tokens one by one

A cursor gives one token a call and moves on. The tokens that it gives, called over and over, are those of the row
that is cut in one go, in order, and from then on the mark of the end (`Cursor.pulls_eq`). Behind the last token
there is one place that it comes to and never leaves (`Cursor.next_of_nil`, `Cursor.next_exhausted`).
-/

namespace HexConfig.Cursor

variable {c d : Cursor} {t : Token}

/-! ## One call -/

theorem next_of_some (h : c.next? = some (t, d)) : c.next = (t, d) := by
  rw [next, h, Option.getD_some]

/-- Where only blanks are left, what is given is the mark of the end, and the cursor moves to the end. -/
theorem next_of_none (h : c.next? = none) : c.next = (Token.finish c.tokens.finish, c.exhausted) := by
  have hrest : c.skipBlanks.rest = [] := by
    unfold next? at h
    split at h
    · next hrest => exact hrest
    · exact nomatch h
  have hend : c.skipBlanks = c.exhausted := by
    rw [exhausted, tokens_of_none h, ← hrest]
  rw [next, h, Option.getD_none, tokens_of_none h, hend]

theorem next?_exhausted (c : Cursor) : c.exhausted.next? = none := rfl

theorem tokens_exhausted (c : Cursor) : c.exhausted.tokens = ⟨[], c.tokens.finish⟩ :=
  tokens_of_none c.next?_exhausted

/-- A cursor at the end stays there. -/
theorem next_exhausted (c : Cursor) : c.exhausted.next = (Token.finish c.tokens.finish, c.exhausted) := by
  have hfinish : c.exhausted.tokens.finish = c.tokens.finish := by rw [tokens_exhausted]
  have hend : c.exhausted.exhausted = c.exhausted := congrArg (Cursor.mk · []) hfinish
  rw [next_of_none c.next?_exhausted, hfinish, hend]

/-- Where the row has no tokens left, a call gives the mark of the end. -/
theorem next_of_nil (h : c.tokens.list = []) : c.next = (Token.finish c.tokens.finish, c.exhausted) := by
  cases hnext : c.next? with
  | none => exact next_of_none hnext
  | some next =>
    rw [tokens_of_some hnext] at h
    cases h

/-- Otherwise it gives the first of them, and the cursor has the others ahead. -/
theorem next_of_cons {ts : List Token} (h : c.tokens.list = t :: ts) :
    c.next.1 = t ∧ c.next.2.tokens = ⟨ts, c.tokens.finish⟩ := by
  cases hnext : c.next? with
  | none =>
    rw [tokens_of_none hnext] at h
    cases h
  | some next =>
    rw [tokens_of_some hnext] at h ⊢
    cases h
    rw [next_of_some hnext]
    exact ⟨rfl, rfl⟩

/-! ## Calls one after the other -/

/-- What so many calls give, and the cursor behind them. -/
def pulls (c : Cursor) : Nat → List Token × Cursor
  | 0 => ([], c)
  | n + 1 => (c.next.1 :: (c.next.2.pulls n).1, (c.next.2.pulls n).2)

/-- The calls give the tokens of the row, in order and each once, and then the mark of the end, over and over. -/
theorem pulls_eq (c : Cursor) (n : Nat) :
    (c.pulls n).1 = c.tokens.list.take n ++
        List.replicate (n - c.tokens.list.length) (Token.finish c.tokens.finish) ∧
      (c.pulls n).2.tokens = ⟨c.tokens.list.drop n, c.tokens.finish⟩ := by
  induction n generalizing c with
  | zero => exact ⟨by simp [pulls], rfl⟩
  | succ n ih =>
    obtain ⟨hgiven, hleft⟩ := ih c.next.2
    rw [pulls, hgiven, hleft]
    cases hlist : c.tokens.list with
    | nil =>
      rw [next_of_nil hlist, tokens_exhausted]
      exact ⟨by simp [List.replicate_succ], by simp⟩
    | cons t ts =>
      obtain ⟨hfirst, hrest⟩ := next_of_cons hlist
      rw [hfirst, hrest]
      exact ⟨by simp, rfl⟩

/-- As long as there are tokens, the calls give these alone, and the call behind them gives the next token, or the
mark of the end behind the last. -/
theorem pulls_of_append {used rest : List Token} (h : c.tokens.list = used ++ rest) :
    (c.pulls used.length).1 = used ∧
      (rest ++ [Token.finish c.tokens.finish]).head? = some (c.pulls used.length).2.next.1 := by
  obtain ⟨hgiven, hleft⟩ := c.pulls_eq used.length
  rw [h, List.take_left, List.length_append, Nat.sub_add_eq, Nat.sub_self, Nat.zero_sub, List.replicate_zero,
    List.append_nil] at hgiven
  rw [h, List.drop_left] at hleft
  refine ⟨hgiven, ?_⟩
  cases rest with
  | nil =>
    rw [next_of_nil (congrArg Tokens.list hleft), hleft]
    rfl
  | cons t rest =>
    rw [(next_of_cons (congrArg Tokens.list hleft)).1]
    rfl

end HexConfig.Cursor
