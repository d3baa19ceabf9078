import HexConfig.Document
import HexConfig.Proofs.Entries

/-!
# One document laid over another

Two documents in which every name stands for the same are one document (`Document.ext_get?`). So a document
is known from what its names stand for, and that is how `Document.overlay` is known: a name of the upper one
stands for what it does there, and every other for what it does in the lower one.

What all names stand for may be changed at once (`Document.mapValues`), before a name is written or behind.
-/

namespace HexConfig

namespace Document

variable {base d e : Document}

/-- Documents with the same values under the same names are the same. -/
theorem ext_get? (h : ∀ key, d.get? key = e.get? key) : d = e := by
  obtain ⟨entries, hsorted⟩ := d
  obtain ⟨entries', hsorted'⟩ := e
  obtain rfl : entries = entries' := hsorted.eq_of_find? hsorted' h
  rfl

/-- Names that differ may be written in either order. -/
theorem insert_comm (d : Document) {k l : String} (hne : k ≠ l) (v w : Value) :
    (d.insert k v).insert l w = (d.insert l w).insert k v := by
  simp only [insert, mk.injEq]
  exact d.sorted.write_comm hne v w

/-- Of two writes of a name the first might as well not have been. -/
theorem insert_insert (d : Document) (k : String) (v w : Value) :
    (d.insert k v).insert k w = d.insert k w := by
  simp only [insert, mk.injEq]
  exact d.sorted.write_write k v w

/-- The entries of one document written over those of another. -/
def overlay (base d : Document) : Document :=
  d.entries.foldr (fun e under => under.insert e.1 e.2) base

/-- In a document laid over another, a name stands for what the upper one has under it, or else the lower. -/
theorem get?_overlay (base d : Document) (key : String) :
    (base.overlay d).get? key = (d.get? key).or (base.get? key) := by
  obtain ⟨entries, hsorted⟩ := d
  show (entries.foldr (fun e under => under.insert e.1 e.2) base).get? key =
    (entries.find? key).or (base.get? key)
  clear hsorted
  induction entries with
  | nil => rfl
  | cons e rest ih =>
    rw [List.foldr_cons, get?_insert, Entries.find?_cons, ih]
    by_cases hkey : e.1 = key
    · rw [if_pos hkey, if_pos hkey, Option.some_or]
    · rw [if_neg hkey, if_neg hkey]

/-- What is written last lies on top. -/
theorem overlay_insert (base d : Document) (key : String) (v : Value) :
    base.overlay (d.insert key v) = (base.overlay d).insert key v := by
  apply ext_get?
  intro other
  rw [get?_overlay, get?_insert, get?_insert, get?_overlay]
  by_cases hkey : key = other
  · rw [if_pos hkey, if_pos hkey, Option.some_or]
  · rw [if_neg hkey, if_neg hkey]

/-! ## What names stand for, changed -/

/-- The document with what every name stands for changed. -/
def mapValues (f : Value → Value) (d : Document) : Document where
  entries := d.entries.mapValues f
  sorted := d.sorted.mapValues f

variable (f : Value → Value) (d : Document)

theorem mapValues_id : d.mapValues id = d := by
  obtain ⟨entries, hsorted⟩ := d
  simp only [mapValues, Entries.mapValues_id]

/-- What a name stands for may be changed before it is written. -/
theorem mapValues_insert (key : String) (v : Value) :
    (d.insert key v).mapValues f = (d.mapValues f).insert key (f v) := by
  simp only [mapValues, insert, mk.injEq]
  exact Entries.mapValues_write f d.entries key v

/-- The names stay those that there are. -/
theorem isSome_get?_mapValues (key : String) : ((d.mapValues f).get? key).isSome = (d.get? key).isSome := by
  have hfind : (d.mapValues f).get? key = (d.get? key).map f := Entries.find?_mapValues f d.entries key
  rw [hfind, Option.isSome_map]

end Document

end HexConfig
