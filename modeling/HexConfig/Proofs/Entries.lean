import HexConfig.Entries
import Mathlib.Data.List.Nodup

/-!
# What all entries have in common

A property of whatever the names stand for (`Entries.All`), and a relation between what each name stands
for in one row and in another (`Entries.Related`). Both hold where no name stands for anything, and a
write keeps both, if what is written has the property or if the two that are written are related.

Entries in order are told by what their names stand for, whether they were written one after the other in
some order (`Entries.ofList_of_perm`) or are only looked into (`Entries.Sorted.eq_of_find?`).
-/

namespace HexConfig.Entries

variable {α β : Type} {P Q : α → Prop} {R S : α → β → Prop} {es : Entries α} {fs : Entries β}
  {a : α} {b : β} {name : String}

/-- Whatever a name stands for has the property. -/
def All (P : α → Prop) (es : Entries α) : Prop :=
  ∀ name a, es.find? name = some a → P a

theorem all_nil : All P ([] : Entries α) := by
  intro name a h
  exact nomatch h

/-- One more entry that has the property. -/
theorem All.write (h : es.All P) (ha : P a) (name : String) : (es.write name a).All P := by
  intro other a' ha'
  rw [find?_write] at ha'
  split at ha'
  · cases ha'
    exact ha
  · exact h other a' ha'

theorem All.mono (h : es.All P) (himp : ∀ a, P a → Q a) : es.All Q := by
  intro name a ha
  exact himp a (h name a ha)

/-- What a name stands for on one side is related to what it stands for on the other; it stands for
something on both or on neither. -/
def Related (R : α → β → Prop) (es : Entries α) (fs : Entries β) : Prop :=
  ∀ name, Option.Rel R (es.find? name) (fs.find? name)

theorem related_nil : Related R ([] : Entries α) ([] : Entries β) := by
  intro name
  exact .none

/-- One more entry on either side, the two related. -/
theorem Related.write (h : Related R es fs) (hab : R a b) (name : String) :
    Related R (es.write name a) (fs.write name b) := by
  intro other
  rw [find?_write, find?_write]
  split
  · exact .some hab
  · exact h other

theorem Related.mono (h : Related R es fs) (himp : ∀ a b, R a b → S a b) : Related S es fs := by
  intro name
  have hrel := h name
  generalize es.find? name = o, fs.find? name = o' at hrel ⊢
  cases hrel with
  | none => exact .none
  | some hab => exact .some (himp _ _ hab)

/-- What is found on the right is related to something found on the left. -/
theorem Related.exists_left (h : Related R es fs) (hb : fs.find? name = some b) :
    ∃ a, es.find? name = some a ∧ R a b := by
  have hrel := h name
  rw [hb] at hrel
  generalize es.find? name = o at hrel
  cases hrel with
  | some hab => exact ⟨_, rfl, hab⟩

/-- What is found on the left is related to something found on the right. -/
theorem Related.exists_right (h : Related R es fs) (ha : es.find? name = some a) :
    ∃ b, fs.find? name = some b ∧ R a b := by
  have hrel := h name
  rw [ha] at hrel
  generalize fs.find? name = o at hrel
  cases hrel with
  | some hab => exact ⟨_, rfl, hab⟩

/-! ## The order of writing -/

variable {pairs : List (String × α)}

/-- A name that is new is one entry more. -/
theorem write_perm (h : ∀ e ∈ es, e.1 ≠ name) : (es.write name a).Perm ((name, a) :: es) := by
  induction es with
  | nil => exact .refl _
  | cons e rest ih =>
    obtain ⟨k, b⟩ := e
    have hk : k ≠ name := h _ List.mem_cons_self
    have hrest := ih fun e he => h e (List.mem_cons_of_mem _ he)
    unfold Entries.write
    split
    · exact .refl _
    · rw [if_neg hk.symm]
      exact (hrest.cons _).trans (.swap _ _ _)

/-- Pairs of different new names, written one after the other, are so many entries more. -/
theorem foldl_write_perm (hnodup : (pairs.map (·.1)).Nodup)
    (hnew : ∀ p ∈ pairs, ∀ e ∈ es, e.1 ≠ p.1) :
    (pairs.foldl (fun es p => es.write p.1 p.2) es).Perm (pairs ++ es) := by
  induction pairs generalizing es with
  | nil => exact .refl _
  | cons p rest ih =>
    obtain ⟨hp, hrest⟩ := List.nodup_cons.mp hnodup
    have hwrite := write_perm (a := p.2) (hnew p List.mem_cons_self)
    have hall : ∀ r ∈ rest, ∀ e ∈ es.write p.1 p.2, e.1 ≠ r.1 := by
      intro r hr e he
      rcases mem_write he with rfl | he
      · intro heq
        exact hp (List.mem_map.mpr ⟨r, hr, heq.symm⟩)
      · exact hnew r (List.mem_cons_of_mem _ hr) e he
    rw [List.foldl_cons]
    exact (ih hrest hall).trans ((hwrite.append_left rest).trans List.perm_middle)

/-- Entries in order have each name once. -/
theorem Sorted.nodup_names (h : es.Sorted) : (es.map (·.1)).Nodup := by
  rw [List.nodup_iff_pairwise_ne, List.pairwise_map]
  refine List.Pairwise.imp ?_ h
  intro e f hlt heq
  rw [heq] at hlt
  exact String.lt_irrefl _ hlt

/-- Entries that are written one after the other, in whatever order, are those entries. -/
theorem ofList_of_perm (h : es.Sorted) (hperm : pairs.Perm es) : ofList pairs = es := by
  have hnodup : (pairs.map (·.1)).Nodup := (hperm.map _).nodup_iff.mpr h.nodup_names
  have hall : (ofList pairs).Perm es := by
    have hfold := foldl_write_perm hnodup fun _ _ e (he : e ∈ []) => absurd he List.not_mem_nil
    rw [List.append_nil] at hfold
    exact hfold.trans hperm
  exact hall.eq_of_pairwise (fun _ _ _ _ hlt hgt => absurd hgt (String.lt_asymm hlt))
    (sorted_ofList pairs) h

/-! ## What is found says all -/

variable {gs : Entries α}

/-- What is found is there. -/
theorem mem_of_find? (h : es.find? name = some a) : (name, a) ∈ es := by
  induction es with
  | nil => exact nomatch h
  | cons e rest ih =>
    obtain ⟨k, b⟩ := e
    rw [find?_cons] at h
    split at h
    · next hk =>
      cases h
      exact hk ▸ List.mem_cons_self
    · exact List.mem_cons_of_mem _ (ih h)

/-- Where each name stands once, whatever is there is found. -/
theorem Sorted.find?_eq_some_iff (h : es.Sorted) : es.find? name = some a ↔ (name, a) ∈ es := by
  refine ⟨mem_of_find?, fun hmem => ?_⟩
  induction es with
  | nil => exact absurd hmem List.not_mem_nil
  | cons e rest ih =>
    obtain ⟨k, b⟩ := e
    obtain ⟨hk, hrest⟩ := List.pairwise_cons.mp h
    rcases List.mem_cons.mp hmem with heq | hmem
    · cases heq
      exact if_pos rfl
    · have hne : k ≠ name := by
        intro heq
        exact String.lt_irrefl name (heq ▸ hk _ hmem)
      rw [find?_cons, if_neg hne]
      exact ih hrest hmem

/-- Entries in order in which every name stands for the same are the same. -/
theorem Sorted.eq_of_find? (h : es.Sorted) (h' : gs.Sorted)
    (heq : ∀ name, es.find? name = gs.find? name) : es = gs := by
  have hmem : ∀ e : String × α, e ∈ es ↔ e ∈ gs := by
    rintro ⟨name, a⟩
    rw [← h.find?_eq_some_iff, ← h'.find?_eq_some_iff, heq]
  have hperm : es.Perm gs := (List.perm_ext_iff_of_nodup h.nodup_names.of_map h'.nodup_names.of_map).mpr hmem
  exact hperm.eq_of_pairwise (fun _ _ _ _ hlt hgt => absurd hgt (String.lt_asymm hlt)) h h'

/-- Names that differ may be written in either order. -/
theorem Sorted.write_comm (h : es.Sorted) {k l : String} (hne : k ≠ l) (a b : α) :
    (es.write k a).write l b = (es.write l b).write k a := by
  refine h.write.write.eq_of_find? h.write.write fun name => ?_
  simp only [find?_write]
  by_cases hl : l = name
  · rw [if_pos hl, if_neg (hl ▸ hne), if_pos hl]
  · rw [if_neg hl, if_neg hl]

/-- Of two writes of a name the first might as well not have been. -/
theorem Sorted.write_write (h : es.Sorted) (k : String) (a b : α) :
    (es.write k a).write k b = es.write k b := by
  refine h.write.write.eq_of_find? h.write fun name => ?_
  simp only [find?_write]
  by_cases hk : k = name
  · rw [if_pos hk, if_pos hk]
  · rw [if_neg hk, if_neg hk, if_neg hk]

/-! ## What names stand for, changed -/

/-- The entries with what every name stands for changed. -/
def mapValues (f : α → β) (es : Entries α) : Entries β := es.map fun e => (e.1, f e.2)

theorem mapValues_id (es : Entries α) : es.mapValues id = es := List.map_id es

variable (f : α → β)

/-- Mapped values are found where the values are. -/
theorem find?_mapValues (es : Entries α) (name : String) :
    (es.mapValues f).find? name = (es.find? name).map f := by
  induction es with
  | nil => rfl
  | cons e es ih =>
    rw [mapValues, List.map_cons, find?_cons, find?_cons, ← mapValues, ih]
    split <;> rfl

/-- Mapping goes along with writing one more entry. -/
theorem mapValues_write (es : Entries α) (name : String) (a : α) :
    (es.write name a).mapValues f = (es.mapValues f).write name (f a) := by
  induction es with
  | nil => rfl
  | cons e es ih =>
    obtain ⟨k, b⟩ := e
    have hcons : mapValues f ((k, b) :: es) = (k, f b) :: mapValues f es := rfl
    rw [hcons]
    unfold Entries.write
    by_cases hlt : name < k
    · rw [if_pos hlt, if_pos hlt]
      rfl
    · rw [if_neg hlt, if_neg hlt]
      by_cases heq : name = k
      · rw [if_pos heq, if_pos heq]
        rfl
      · rw [if_neg heq, if_neg heq, ← ih]
        rfl

theorem Sorted.mapValues (h : es.Sorted) : (es.mapValues f).Sorted :=
  List.pairwise_map.mpr h

end HexConfig.Entries
