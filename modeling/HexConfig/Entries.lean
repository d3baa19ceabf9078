/-!
# Entries

Named things kept in increasing order of their names, each name once. Writing a name that is there
replaces what it stood for; that is the whole difference between writing and adding.

The order is the order of Unicode scalar values, character by character, which is also the order of
the UTF-8 bytes. It is part of every answer, since printing follows it.

The reading of entries is `find?`; `find?_write` says what one write does to it, and
`Sorted.write` that a write keeps the order. Nobody above unfolds either.
-/

namespace HexConfig

/-- Pairs of a name and what it stands for. -/
abbrev Entries (α : Type) := List (String × α)

namespace Entries

variable {α : Type}

/-- What a name stands for. -/
def find? (key : String) : Entries α → Option α
  | [] => none
  | (k, a) :: rest => if k = key then some a else find? key rest

/-- Writes a name: in its place in the order if it is new, over what it stood for if it is not. -/
def write (key : String) (a : α) : Entries α → Entries α
  | [] => [(key, a)]
  | (k, b) :: rest =>
    if key < k then (key, a) :: (k, b) :: rest
    else if key = k then (key, a) :: rest
    else (k, b) :: write key a rest

/-- The names, in order. -/
def keys (es : Entries α) : List String := es.map (·.1)

/-- Pairs written one after the other, the last write of a name standing. -/
def ofList (pairs : List (String × α)) : Entries α :=
  pairs.foldl (fun es p => write p.1 p.2 es) []

/-- The order of entries: names strictly increase, so each stands once. -/
def Sorted (es : Entries α) : Prop :=
  es.Pairwise fun a b => a.1 < b.1

@[simp]
theorem find?_nil (key : String) : find? key ([] : Entries α) = none := rfl

theorem find?_cons (key k : String) (a : α) (rest : Entries α) :
    find? key ((k, a) :: rest) = if k = key then some a else find? key rest := rfl

/-- After a write the name stands for what was written and every other name for what it did. -/
theorem find?_write (key other : String) (a : α) (es : Entries α) :
    find? other (write key a es) = if key = other then some a else find? other es := by
  induction es with
  | nil => rfl
  | cons e rest ih =>
    obtain ⟨k, b⟩ := e
    unfold write
    split
    · rfl
    · split
      · next hk => subst hk; simp only [find?_cons]; split <;> rfl
      · next hk =>
        simp only [find?_cons, ih]
        by_cases hko : k = other
        · subst hko; simp [hk]
        · simp [hko]

/-- A write adds no name but its own. -/
theorem mem_write {key : String} {a : α} {es : Entries α} {e : String × α}
    (h : e ∈ write key a es) : e = (key, a) ∨ e ∈ es := by
  induction es with
  | nil => exact .inl (List.mem_singleton.mp h)
  | cons f rest ih =>
    obtain ⟨k, b⟩ := f
    unfold write at h
    split at h
    · exact (List.mem_cons.mp h).imp id id
    · split at h
      · exact (List.mem_cons.mp h).imp id (List.mem_cons_of_mem _)
      · rcases List.mem_cons.mp h with h | h
        · exact .inr (h ▸ List.mem_cons_self)
        · exact (ih h).imp id (List.mem_cons_of_mem _)

/-- A name that is neither before nor at another is behind it. -/
theorem lt_of_not_lt_of_ne {a b : String} (h : ¬ a < b) (hne : a ≠ b) : b < a := by
  rcases Std.lt_trichotomy a b with h' | h' | h'
  · exact absurd h' h
  · exact absurd h' hne
  · exact h'

/-- A write keeps the order. -/
theorem Sorted.write {key : String} {a : α} {es : Entries α} (h : Sorted es) :
    Sorted (write key a es) := by
  induction es with
  | nil => exact List.pairwise_singleton _ _
  | cons e rest ih =>
    obtain ⟨k, b⟩ := e
    obtain ⟨hk, hrest⟩ := List.pairwise_cons.mp h
    unfold Entries.write
    split
    · next hlt =>
      refine List.pairwise_cons.mpr ⟨fun x hx => ?_, h⟩
      rcases List.mem_cons.mp hx with rfl | hx
      · exact hlt
      · exact String.lt_trans hlt (hk x hx)
    · next hlt =>
      split
      · next heq =>
        subst heq
        exact List.pairwise_cons.mpr ⟨hk, hrest⟩
      · next hne =>
        refine List.pairwise_cons.mpr ⟨fun x hx => ?_, ih hrest⟩
        rcases mem_write hx with rfl | hx
        · exact lt_of_not_lt_of_ne hlt hne
        · exact hk x hx

theorem sorted_nil : Sorted ([] : Entries α) := List.Pairwise.nil

/-- Pairs written one after the other are in order. -/
theorem sorted_ofList (pairs : List (String × α)) : Sorted (ofList pairs) := by
  suffices ∀ es : Entries α, Sorted es →
      Sorted (pairs.foldl (fun es p => Entries.write p.1 p.2 es) es) from this [] sorted_nil
  induction pairs with
  | nil => exact fun _ h => h
  | cons p rest ih => exact fun es h => ih _ h.write

end Entries

end HexConfig
