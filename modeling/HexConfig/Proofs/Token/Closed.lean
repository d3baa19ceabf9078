import HexConfig.Proofs.Token.Terminated
import HexConfig.Proofs.Token.Tiling

/-!
# Closed strings

A text closes its strings if each of its tiles that starts with a quote has another one (`ClosesStrings`).
To find out, it is enough to count quotes (`closesStrings_iff`): a string without a closing quote goes on to
the end of the text, so it is the last tile, and its quote is the only one without a partner.
-/

namespace HexConfig

/-- A tile that opens a string closes it. -/
def Tile.Closed (t : Tile) : Prop := ∀ inside, t.covered = '"' :: inside → '"' ∈ inside

/-- Every string of the text is closed. -/
def ClosesStrings (s : String) : Prop :=
  ∀ ts last, Tiled ts last → together ts last = s.toList → ∀ t ∈ ts, t.Closed

variable {w : Word} {covered rest : List Char} {t : Tile} {ts : List Tile} {last : List Char}

/-- What a word covers has its quotes in pairs, or is an open string with nothing behind it. -/
theorem Word.Covers.terminated_or (h : w.Covers covered rest) :
    Terminated covered ∨ rest = [] ∧ ∃ inside, covered = '"' :: inside ∧ '"' ∉ inside := by
  cases h with
  | number hmark hdigits _ =>
    left
    apply terminated_of_not_mem
    intro hquote
    rcases List.mem_cons.mp hquote with hzero | hquote
    · exact absurd hzero (by decide)
    rcases List.mem_cons.mp hquote with rfl | hquote
    · exact absurd hmark (by decide)
    · exact absurd (hdigits _ hquote) (by decide)
  | global => exact .inl (by decide)
  | boolean hs _ =>
    left
    rcases hs with rfl | rfl
    · decide
    · decide
  | name hc hcs _ _ =>
    left
    apply terminated_of_not_mem
    intro hquote
    rcases List.mem_cons.mp hquote with rfl | hquote
    · exact absurd hc (by decide)
    · exact absurd (hcs _ hquote) (by decide)
  | closed hquote => exact .inl (by simp [Terminated, List.count_eq_zero.mpr hquote])
  | unclosed hquote => exact .inr ⟨rfl, _, rfl, hquote⟩
  | @sign kind s _ hsign _ =>
    left
    cases kind with
    | number | text | identifier | finish | invalid => cases hsign
    | _ =>
      obtain rfl := Option.some.inj hsign
      decide
  | invalid _ _ hquote _ _ =>
    left
    apply terminated_of_not_mem
    intro hmem
    exact hquote (List.mem_singleton.mp hmem).symm

/-- Quotes come in pairs exactly if all tiles are closed. -/
theorem terminated_together_iff (h : Tiled ts last) :
    Terminated (together ts last) ↔ ∀ t ∈ ts, t.Closed := by
  induction ts with
  | nil => exact iff_of_true (terminated_blanks h) nofun
  | cons t ts ih =>
    obtain ⟨hblanks, hcovers, hrest⟩ := h
    rw [together_cons, terminated_append_iff (terminated_blanks hblanks), List.forall_mem_cons]
    obtain hcovered | ⟨hend, inside, hcovered, hquote⟩ := hcovers.terminated_or
    · have hclosed : t.Closed := by
        intro inside hinside
        rw [hinside] at hcovered
        exact mem_of_terminated_quote hcovered
      rw [terminated_append_iff hcovered, ih hrest]
      exact (and_iff_right hclosed).symm
    · apply iff_of_false
      · intro hterminated
        rw [hend, List.append_nil, hcovered] at hterminated
        exact hquote (mem_of_terminated_quote hterminated)
      · rintro ⟨hclosed, -⟩
        exact hquote (hclosed inside hcovered)

/-- The quotes of a text come in pairs exactly if all its strings are closed. -/
theorem closesStrings_iff (s : String) : ClosesStrings s ↔ Terminated s.toList := by
  obtain ⟨ts, last, htiled, htogether⟩ := exists_tiled s.toList
  rw [← htogether, terminated_together_iff htiled]
  constructor
  · intro h
    exact h ts last htiled htogether
  · intro h ts' last' htiled' htogether'
    obtain ⟨rfl, rfl⟩ := htiled'.unique htiled (htogether'.trans htogether.symm)
    exact h

instance : DecidablePred ClosesStrings := fun s => decidable_of_iff _ (closesStrings_iff s).symm

end HexConfig
