import HexConfig.Proofs.Reader.Change
import HexConfig.Proofs.Value.Gaps
import Mathlib.Data.Fintype.EquivFin

/-!
# What one word stands for has no say

A number and a string are each written with one word, and a reader asks nothing of what the word stands for. So if
one string is replaced by another such word wherever it is read, the reader does what it did, with the value of
that word wherever the string was: filling a gap is a change that keeps places (`Filling.toChange`).

A text that is read is thus read with any other number or string in one of its places
(`exists_conclude_fill`): a string that is found nowhere else marks the place, and all the documents that come of
it are that of the mark with something else in its stead.
-/

namespace HexConfig.Reader

/-- What a string is replaced by. -/
structure Filling where
  /-- The string. -/
  gap : String
  /-- The word in its stead. -/
  word : Word
  /-- What that stands for. -/
  value : Value
  plain : Value.ofString gap = .text gap
  denotes : Denotes word value

namespace Filling

variable (φ : Filling)

/-- The value of another string has no gap. -/
theorem fill_ofString {s : String} (h : s ≠ φ.gap) : Value.fill φ.gap φ.value (.ofString s) = .ofString s := by
  unfold Value.ofString
  split
  · rfl
  · split
    · rfl
    · rw [Value.fill_text, if_neg h]

/-- The word is put where the string is, and what it stands for where the string was to be. -/
def toChange : Change where
  place := id
  word w := if w = (.text, φ.gap) then φ.word else w
  value := Value.fill φ.gap φ.value
  word_of_ne hkind := if_neg fun hword => hkind (congrArg Prod.fst hword)
  denotes s := by
    by_cases hs : s = φ.gap
    · rw [hs, if_pos rfl, φ.plain, Value.fill_text, if_pos rfl]
      exact φ.denotes
    · rw [if_neg fun hword => hs (congrArg Prod.snd hword), φ.fill_ofString hs]
      exact .string s
  value_number _ := rfl
  value_sequence items := congrArg Value.sequence (Value.fillItems_eq φ.gap φ.value items)
  value_mapping entries := congrArg Value.mapping (Value.fillEntries_eq φ.gap φ.value entries)

variable {φ}

/-- No other token is changed. -/
theorem change_of_word_ne {t : Token} (h : t.word ≠ (.text, φ.gap)) : t.change φ.toChange = t := by
  have hword : φ.toChange.word t.word = t.word := if_neg h
  rw [Token.change, hword]
  rfl

/-- Tokens among which the string is not found are left as they are. -/
theorem map_change_of_not_mem {ts : List Token} (h : (.text, φ.gap) ∉ ts.map Token.word) :
    ts.map (Token.change φ.toChange) = ts := by
  conv_rhs => rw [← List.map_id ts]
  refine List.map_congr_left fun t ht => ?_
  exact change_of_word_ne fun heq => h (heq ▸ List.mem_map_of_mem ht)

/-- Where the string stands in but one place, that place is filled. -/
theorem change_of_not_mem {used rest : List Token} {p finish : Position}
    (hused : (.text, φ.gap) ∉ used.map Token.word) (hrest : (.text, φ.gap) ∉ rest.map Token.word) :
    Tokens.change φ.toChange ⟨used ++ ⟨.text, φ.gap, p⟩ :: rest, finish⟩ =
      ⟨used ++ ⟨φ.word.1, φ.word.2, p⟩ :: rest, finish⟩ := by
  have hgap : Token.change φ.toChange ⟨.text, φ.gap, p⟩ = ⟨φ.word.1, φ.word.2, p⟩ :=
    congrArg (fun w : Word => Token.mk w.1 w.2 p) (if_pos rfl)
  simp only [Tokens.change, List.map_append, List.map_cons, map_change_of_not_mem hused,
    map_change_of_not_mem hrest, hgap]
  rfl

end Filling

/-! ## A place in a row -/

/-- There is always a string that is found nowhere. -/
theorem exists_mark (ws : List Word) : ∃ gap, (.text, gap) ∉ ws ∧ Value.ofString gap = .text gap := by
  have hinfinite : Infinite String := .of_injective String.ofList fun cs ds h => by
    simpa using congrArg String.toList h
  obtain ⟨gap, hgap⟩ := hinfinite.exists_notMem_finset ("true" :: "false" :: ws.map Prod.snd).toFinset
  simp only [List.mem_toFinset, List.mem_cons, not_or] at hgap
  obtain ⟨htrue, hfalse, hws⟩ := hgap
  refine ⟨gap, fun hmem => hws (List.mem_map_of_mem hmem), ?_⟩
  rw [Value.ofString, if_neg htrue, if_neg hfalse]

/-- A row that is read with one word in a place is read with every other word that is all of a value, and the
documents that come of it differ in nothing but what the words stand for. -/
theorem exists_conclude_fill {limits : Limits} {used rest : List Token} {p finish : Position} {w₀ : Word}
    {v₀ : Value} {doc₀ : Document} (h₀ : Denotes w₀ v₀)
    (hread : (State.start [] .zero).conclude limits ⟨used ++ ⟨w₀.1, w₀.2, p⟩ :: rest, finish⟩ = .ok doc₀) :
    ∃ (gap : String) (doc : Document), ∀ {w : Word} {v : Value}, Denotes w v →
      (State.start [] .zero).conclude limits ⟨used ++ ⟨w.1, w.2, p⟩ :: rest, finish⟩ =
        .ok (doc.fill gap v) := by
  obtain ⟨gap, hgap, hplain⟩ := exists_mark ((used ++ rest).map Token.word)
  rw [List.map_append, List.mem_append, not_or] at hgap
  let marked : Tokens := ⟨used ++ ⟨.text, gap, p⟩ :: rest, finish⟩
  -- With the mark in the place, filling gives any of the rows.
  have hfill {w : Word} {v : Value} (h : Denotes w v) :
      (State.start [] .zero).conclude limits ⟨used ++ ⟨w.1, w.2, p⟩ :: rest, finish⟩ =
        (((State.start [] .zero).conclude limits marked).map (Document.fill gap v)).mapError
          (Diagnostic.change (Filling.toChange ⟨gap, w, v, hplain, h⟩)) := by
    rw [← Filling.change_of_not_mem (φ := ⟨gap, w, v, hplain, h⟩) hgap.1 hgap.2]
    exact State.conclude_change (.start [] .zero) marked
  cases hmarked : (State.start [] .zero).conclude limits marked with
  | error d =>
    rw [hfill h₀, hmarked] at hread
    cases hread
  | ok doc =>
    refine ⟨gap, doc, fun h => ?_⟩
    rw [hfill h, hmarked]
    rfl

end HexConfig.Reader
