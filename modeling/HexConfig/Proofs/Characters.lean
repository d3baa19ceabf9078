import Mathlib.Data.List.TakeWhile

/-!
# Runs of characters

Whatever is cut off the front of a text, blanks, digits or the inside of a string, is a run: it goes on as long
as the characters are of one kind. A run in front of a text is cut off whole if the text starts with something else
(`run_append_of_all`), and one that has ended goes no further, whatever is put behind it (`run_append`).
-/

namespace HexConfig

variable {p : Char → Bool} {cs r : List Char} {c : Char}

/-- A run of such characters ends where these follow. -/
def Ends (p : Char → Bool) (rest : List Char) : Prop := ∀ d, rest.head? = some d → p d = false

theorem ends_cons (h : p c = false) (cs : List Char) : Ends p (c :: cs) := by
  intro d hd
  obtain rfl : c = d := Option.some.inj hd
  exact h

/-- A run takes in all that it can. -/
theorem ends_dropWhile (p : Char → Bool) (cs : List Char) : Ends p (cs.dropWhile p) := by
  intro d hd
  have hhead := List.head?_dropWhile_not p cs
  rw [hd] at hhead
  simpa using hhead

theorem eq_false_of_dropWhile (h : cs.dropWhile p = c :: r) : p c = false :=
  ends_dropWhile p cs c (by rw [h]; rfl)

/-- A run ends where it did, if it ended before the end or cannot go on with what is put behind. -/
theorem run_append (cs : List Char) (h : cs.dropWhile p ≠ [] ∨ Ends p r) :
    (cs ++ r).takeWhile p = cs.takeWhile p ∧ (cs ++ r).dropWhile p = cs.dropWhile p ++ r := by
  induction cs with
  | nil =>
    have hends := h.resolve_left fun hne => hne rfl
    cases r with
    | nil => exact ⟨rfl, rfl⟩
    | cons d r => simp [hends d rfl]
  | cons c cs ih =>
    by_cases hc : p c
    · rw [List.dropWhile_cons_of_pos hc] at h
      simp [hc, ih h]
    · simp [hc]

/-- A run in front of something that it cannot go on with is all there is of it. -/
theorem run_append_of_all (hcs : ∀ c ∈ cs, p c = true) (h : Ends p r) :
    (cs ++ r).takeWhile p = cs ∧ (cs ++ r).dropWhile p = r := by
  obtain ⟨htake, hdrop⟩ := run_append cs (.inr h)
  rw [List.takeWhile_eq_self_iff.mpr hcs] at htake
  rw [List.dropWhile_eq_nil_iff.mpr hcs] at hdrop
  exact ⟨htake, hdrop⟩

end HexConfig
