import HexConfig.Proofs.Reader.Change

/-!
# Places have no say

If every token is moved, by whatever function of its place, the machine does what it did, and all it tells of is
moved by the same function: moving is a change that keeps words and values (`Change.relocation`). So the moved
tokens of a text come to the same document, or to the same fault at the moved place (`conclude_ofText_relocate`).

The function need not keep places apart: if it sends all to one, what is left of a reading is what does not
depend on places at all.
-/

namespace HexConfig

/-- The diagnostic with its fault at another place. -/
def Diagnostic.relocate (f : Position → Position) (d : Diagnostic) : Diagnostic :=
  { d with position := f d.position }

namespace Reader

/-- Every place is changed, and nothing else. -/
def Change.relocation (f : Position → Position) : Change where
  place := f
  word := id
  value := id
  word_of_ne _ := rfl
  denotes := .string
  value_number _ := rfl
  value_sequence items := by rw [List.map_id]; rfl
  value_mapping entries := by rw [Entries.mapValues_id]; rfl

/-- No fault tells of a place. -/
theorem change_relocation (f : Position → Position) (d : Diagnostic) : d.change (.relocation f) = d.relocate f := by
  obtain ⟨fault, position⟩ := d
  cases fault <;> rfl

end Reader

open Reader

/-- The tokens of a text, moved to other places, come to what the text comes to, with a fault moved too. -/
theorem conclude_ofText_relocate (f : Position → Position) (settings : Settings) (source : String) :
    (State.start [] .zero).conclude settings.toLimits ((Tokens.ofText source).relocate f) =
      (compile settings source).mapError (Diagnostic.relocate f) := by
  have hchange := conclude_ofText_change (.relocation f) settings source
  have hdocument : Document.mapValues (Change.relocation f).value = id := funext Document.mapValues_id
  have hdiagnostic : Diagnostic.change (.relocation f) = Diagnostic.relocate f := funext (change_relocation f)
  rw [hdocument, hdiagnostic, Except.map_id] at hchange
  exact hchange

end HexConfig
