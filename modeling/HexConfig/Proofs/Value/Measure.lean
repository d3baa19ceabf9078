import HexConfig.Value.Measure

/-!
# How large values get when they are put together

An item adds its nodes to an array and reaches as deep as it nests. An entry written into an object does
no more than that, and less where it replaces another.
-/

namespace HexConfig.Value

/-- What a string means is one node. -/
@[simp]
theorem nodes_ofString (s : String) : (ofString s).nodes = 1 := by
  unfold ofString
  split
  · rfl
  · split
    · rfl
    · rfl

@[simp]
theorem nesting_ofString (s : String) : (ofString s).nesting = 0 := by
  unfold ofString
  split
  · rfl
  · split
    · rfl
    · rfl

theorem nodesOfItems_append (vs ws : List Value) :
    nodesOfItems (vs ++ ws) = nodesOfItems vs + nodesOfItems ws := by
  induction vs with
  | nil => rw [List.nil_append, nodesOfItems, Nat.zero_add]
  | cons v vs ih => rw [List.cons_append, nodesOfItems, nodesOfItems, ih, Nat.add_assoc]

theorem nestingOfItems_append (vs ws : List Value) :
    nestingOfItems (vs ++ ws) = max (nestingOfItems vs) (nestingOfItems ws) := by
  induction vs with
  | nil => rw [List.nil_append, nestingOfItems, Nat.zero_max]
  | cons v vs ih => rw [List.cons_append, nestingOfItems, nestingOfItems, ih, Nat.max_assoc]

/-- The order of items does not matter for how many there are. -/
theorem nodesOfItems_reverse (vs : List Value) : nodesOfItems vs.reverse = nodesOfItems vs := by
  induction vs with
  | nil => rfl
  | cons v vs ih =>
    rw [List.reverse_cons, nodesOfItems_append, ih, nodesOfItems, nodesOfItems, nodesOfItems,
      Nat.add_zero, Nat.add_comm]

/-- The order of items does not matter for how deep they nest. -/
theorem nestingOfItems_reverse (vs : List Value) :
    nestingOfItems vs.reverse = nestingOfItems vs := by
  induction vs with
  | nil => rfl
  | cons v vs ih =>
    rw [List.reverse_cons, nestingOfItems_append, ih, nestingOfItems, nestingOfItems, nestingOfItems,
      Nat.max_zero, Nat.max_comm]

/-- One more entry adds no more nodes than it has. -/
theorem nodesOfEntries_write_le (key : String) (v : Value) (es : Entries Value) :
    nodesOfEntries (es.write key v) ≤ nodesOfEntries es + v.nodes := by
  induction es with
  | nil =>
    show v.nodes + 0 ≤ 0 + v.nodes
    omega
  | cons e es ih =>
    obtain ⟨k, w⟩ := e
    unfold Entries.write
    split
    · simp only [nodesOfEntries]
      omega
    · split
      · simp only [nodesOfEntries]
        omega
      · simp only [nodesOfEntries]
        omega

/-- One more entry makes the nesting no deeper than it is itself. -/
theorem nestingOfEntries_write_le (key : String) (v : Value) (es : Entries Value) :
    nestingOfEntries (es.write key v) ≤ max (nestingOfEntries es) v.nesting := by
  induction es with
  | nil =>
    show max v.nesting 0 ≤ max 0 v.nesting
    omega
  | cons e es ih =>
    obtain ⟨k, w⟩ := e
    unfold Entries.write
    split
    · simp only [nestingOfEntries]
      omega
    · split
      · simp only [nestingOfEntries]
        omega
      · simp only [nestingOfEntries]
        omega

/-- No value of a document nests deeper than the document. -/
theorem nesting_le_of_mem {es : Entries Value} {e : String × Value} (h : e ∈ es) :
    e.2.nesting ≤ nestingOfEntries es := by
  induction es with
  | nil => exact absurd h List.not_mem_nil
  | cons e' es ih =>
    obtain ⟨k, v⟩ := e'
    rcases List.mem_cons.mp h with rfl | h
    · exact Nat.le_max_left _ _
    · exact Nat.le_trans (ih h) (Nat.le_max_right _ _)

/-- The order of entries does not matter for how deep they nest. -/
theorem nestingOfEntries_perm {es fs : List (String × Value)} (h : es.Perm fs) :
    nestingOfEntries es = nestingOfEntries fs := by
  induction h with
  | nil => rfl
  | cons e _ ih => rw [nestingOfEntries, nestingOfEntries, ih]
  | swap e f es =>
    simp only [nestingOfEntries]
    omega
  | trans _ _ ih ih' => exact ih.trans ih'

/-- The order of entries does not matter for how many values there are in them. -/
theorem nodesOfEntries_perm {es fs : List (String × Value)} (h : es.Perm fs) :
    nodesOfEntries es = nodesOfEntries fs := by
  induction h with
  | nil => rfl
  | cons e _ ih => rw [nodesOfEntries, nodesOfEntries, ih]
  | swap e f es =>
    simp only [nodesOfEntries]
    omega
  | trans _ _ ih ih' => exact ih.trans ih'

end HexConfig.Value
