import HexConfig.Proofs.Source.Expansion
import HexConfig.Proofs.Value.Measure

/-!
# What is written and what comes of it

A value has no more nodes than its term writes, and nests no deeper (`nodes_le_cost`). It may have fewer:
where an object repeats a name, the later entry replaces the earlier, which was written all the same. That
is the one way to lose anything, so a term in which no object repeats a name has a value of just its own
measures (`nodes_eq_cost`).

Of the limits a program needs what the most demanding of its declarations does: the deepest nesting of any
(`Program.depthNeeded_le_iff`), and the most that is counted at any, with what those before it leave counted
(`Program.nodesNeeded_le_iff`).
-/

namespace HexConfig.Term

variable {k : String} {before : Entries Value}

mutual

/-- A value has at most the nodes that are written, and nests at most as deep. -/
theorem nodes_le_cost : ∀ (u : Term) {v : Value}, u.value? = some v →
    v.nodes ≤ u.cost ∧ v.nesting ≤ u.nest
  | .number digits, _, h => by
    obtain ⟨n, -, rfl⟩ := Option.map_eq_some_iff.mp h
    exact ⟨Nat.le_refl _, Nat.le_refl _⟩
  | .string s, _, h => by
    cases h
    rw [Value.nodes_ofString, Value.nesting_ofString]
    exact ⟨Nat.le_refl _, Nat.le_refl _⟩
  | .array items, _, h => by
    obtain ⟨vs, hvs, rfl⟩ := value?_array_eq_some.mp h
    obtain ⟨hnodes, hnesting⟩ := nodesOfItems_le_cost items hvs
    exact ⟨Nat.succ_le_succ hnodes, Nat.succ_le_succ hnesting⟩
  | .object entries, _, h => by
    obtain ⟨es, hes, rfl⟩ := value?_object_eq_some.mp h
    obtain ⟨hnodes, hnesting⟩ := nodesOfEntries_le_cost entries hes
    rw [Value.nodesOfEntries, Nat.zero_add] at hnodes
    rw [Value.nestingOfEntries, Nat.zero_max] at hnesting
    exact ⟨Nat.succ_le_succ hnodes, Nat.succ_le_succ hnesting⟩
  | .reference _, _, h => nomatch h

theorem nodesOfItems_le_cost : ∀ (us : List Term) {vs : List Value}, itemsOf? us = some vs →
    Value.nodesOfItems vs ≤ costOfItems us ∧ Value.nestingOfItems vs ≤ nestOfItems us
  | [], _, h => by
    cases h
    exact ⟨Nat.le_refl _, Nat.le_refl _⟩
  | u :: us, _, h => by
    obtain ⟨v, vs, hv, hvs, rfl⟩ := itemsOf?_cons_eq_some.mp h
    obtain ⟨hnodes, hnesting⟩ := nodes_le_cost u hv
    obtain ⟨hnodes', hnesting'⟩ := nodesOfItems_le_cost us hvs
    rw [Value.nodesOfItems, costOfItems, Value.nestingOfItems, nestOfItems]
    omega

/-- Entries add at most what they write to those before them. -/
theorem nodesOfEntries_le_cost : ∀ (us : List (String × Term)) {before after : Entries Value},
    entriesOf? before us = some after →
      Value.nodesOfEntries after ≤ Value.nodesOfEntries before + costOfEntries us ∧
        Value.nestingOfEntries after ≤ max (Value.nestingOfEntries before) (nestOfEntries us)
  | [], _, _, h => by
    cases h
    exact ⟨Nat.le_refl _, Nat.le_max_left _ _⟩
  | (k, u) :: us, before, _, h => by
    obtain ⟨v, hv, hes⟩ := entriesOf?_cons_eq_some.mp h
    obtain ⟨hnodes, hnesting⟩ := nodes_le_cost u hv
    obtain ⟨hnodes', hnesting'⟩ := nodesOfEntries_le_cost us hes
    have hwrite := Value.nodesOfEntries_write_le k v before
    have hwrite' := Value.nestingOfEntries_write_le k v before
    rw [costOfEntries, nestOfEntries]
    omega

end

/-- No object in the term repeats a name. -/
inductive Distinct : Term → Prop
  | number (digits : String) : Distinct (.number digits)
  | string (s : String) : Distinct (.string s)
  | reference (name : String) : Distinct (.reference name)
  | array {items : List Term} : (∀ u ∈ items, Distinct u) → Distinct (.array items)
  | object {entries : List (String × Term)} : (entries.map Prod.fst).Nodup →
      (∀ e ∈ entries, Distinct e.2) → Distinct (.object entries)

/-- A new name adds what is written under it. -/
theorem measure_write (h : ∀ e ∈ before, e.1 ≠ k) (v : Value) :
    Value.nodesOfEntries (before.write k v) = v.nodes + Value.nodesOfEntries before ∧
      Value.nestingOfEntries (before.write k v) = max v.nesting (Value.nestingOfEntries before) :=
  ⟨Value.nodesOfEntries_perm (Entries.write_perm h), Value.nestingOfEntries_perm (Entries.write_perm h)⟩

mutual

/-- Where no object repeats a name, the value is as large as what is written, and nests as deep. -/
theorem nodes_eq_cost : ∀ {u : Term} {v : Value}, u.Distinct → u.value? = some v →
    v.nodes = u.cost ∧ v.nesting = u.nest
  | .number digits, _, _, h => by
    obtain ⟨n, -, rfl⟩ := Option.map_eq_some_iff.mp h
    exact ⟨rfl, rfl⟩
  | .string s, _, _, h => by
    cases h
    exact ⟨Value.nodes_ofString s, Value.nesting_ofString s⟩
  | .array items, _, hdistinct, h => by
    cases hdistinct with
    | array hitems =>
      obtain ⟨vs, hvs, rfl⟩ := value?_array_eq_some.mp h
      obtain ⟨hnodes, hnesting⟩ := nodesOfItems_eq_cost hitems hvs
      exact ⟨congrArg (· + 1) hnodes, congrArg (· + 1) hnesting⟩
  | .object entries, _, hdistinct, h => by
    cases hdistinct with
    | object hnodup hentries =>
      obtain ⟨es, hes, rfl⟩ := value?_object_eq_some.mp h
      obtain ⟨hnodes, hnesting⟩ :=
        nodesOfEntries_eq_cost hnodup hentries (fun _ h => absurd h List.not_mem_nil) hes
      rw [Value.nodesOfEntries, Nat.zero_add] at hnodes
      rw [Value.nestingOfEntries, Nat.zero_max] at hnesting
      exact ⟨congrArg (· + 1) hnodes, congrArg (· + 1) hnesting⟩
  | .reference _, _, _, h => nomatch h

theorem nodesOfItems_eq_cost : ∀ {us : List Term} {vs : List Value}, (∀ u ∈ us, u.Distinct) →
    itemsOf? us = some vs →
      Value.nodesOfItems vs = costOfItems us ∧ Value.nestingOfItems vs = nestOfItems us
  | [], _, _, h => by
    cases h
    exact ⟨rfl, rfl⟩
  | u :: us, _, hdistinct, h => by
    obtain ⟨hu, hus⟩ := List.forall_mem_cons.mp hdistinct
    obtain ⟨v, vs, hv, hvs, rfl⟩ := itemsOf?_cons_eq_some.mp h
    obtain ⟨hnodes, hnesting⟩ := nodes_eq_cost hu hv
    obtain ⟨hnodes', hnesting'⟩ := nodesOfItems_eq_cost hus hvs
    rw [Value.nodesOfItems, costOfItems, Value.nestingOfItems, nestOfItems]
    omega

/-- Entries of new names, each once, add just what they write. -/
theorem nodesOfEntries_eq_cost : ∀ {us : List (String × Term)} {before after : Entries Value},
    (us.map Prod.fst).Nodup → (∀ e ∈ us, e.2.Distinct) →
    (∀ e ∈ before, e.1 ∉ us.map Prod.fst) → entriesOf? before us = some after →
      Value.nodesOfEntries after = Value.nodesOfEntries before + costOfEntries us ∧
        Value.nestingOfEntries after = max (Value.nestingOfEntries before) (nestOfEntries us)
  | [], _, _, _, _, _, h => by
    cases h
    exact ⟨rfl, (Nat.max_zero _).symm⟩
  | (k, u) :: us, before, _, hnodup, hdistinct, hnew, h => by
    obtain ⟨hk, hnodup⟩ := List.nodup_cons.mp hnodup
    have hu : u.Distinct := hdistinct (k, u) List.mem_cons_self
    have hus : ∀ e ∈ us, e.2.Distinct := fun e he => hdistinct e (List.mem_cons_of_mem _ he)
    obtain ⟨v, hv, hes⟩ := entriesOf?_cons_eq_some.mp h
    have hnew' : ∀ e ∈ before.write k v, e.1 ∉ us.map Prod.fst := by
      intro e he
      rcases Entries.mem_write he with rfl | he
      · exact hk
      · exact fun hmem => hnew e he (List.mem_cons_of_mem _ hmem)
    have hne : ∀ e ∈ before, e.1 ≠ k := by
      rintro e he rfl
      exact hnew e he List.mem_cons_self
    obtain ⟨hnodes, hnesting⟩ := nodes_eq_cost hu hv
    obtain ⟨hnodes', hnesting'⟩ := nodesOfEntries_eq_cost hnodup hus hnew' hes
    obtain ⟨hwrite, hwrite'⟩ := measure_write hne v
    rw [costOfEntries, nestOfEntries]
    omega

end

end HexConfig.Term

namespace HexConfig

/-! ## What a program needs -/

/-- No declaration leaves more counted than it writes. -/
theorem Declaration.lasting_le_cost (d : Declaration) : d.lasting ≤ d.term.cost := by
  cases d with
  | global name t => exact Nat.zero_le _
  | entry key t => exact Nat.le_refl _
  | block es => exact Nat.le_refl _

namespace Program

/-- Declarations need no more depth for those before them. -/
theorem depthNeeded_append (q₁ q₂ : Program) :
    depthNeeded (q₁ ++ q₂) = max q₁.depthNeeded q₂.depthNeeded := by
  induction q₁ with
  | nil => rw [List.nil_append, depthNeeded, Nat.zero_max]
  | cons e q₁ ih => rw [List.cons_append, depthNeeded, depthNeeded, ih, Nat.max_assoc]

/-- Declarations are counted on top of what those before them leave counted. -/
theorem nodesNeeded_append (q₁ q₂ : Program) :
    nodesNeeded (q₁ ++ q₂) = max q₁.nodesNeeded (q₁.lasting + q₂.nodesNeeded) := by
  induction q₁ with
  | nil => rw [List.nil_append, nodesNeeded, lasting, Nat.zero_add, Nat.zero_max]
  | cons e q₁ ih =>
    rw [List.cons_append, nodesNeeded, nodesNeeded, lasting, ih]
    omega

/-- The nesting a program needs is the deepest of its declarations. -/
theorem depthNeeded_le_iff {q : Program} {n : Nat} :
    q.depthNeeded ≤ n ↔ ∀ e ∈ q, e.term.nest ≤ n := by
  induction q with
  | nil => simp [depthNeeded]
  | cons e q ih => rw [depthNeeded, Nat.max_le, ih, List.forall_mem_cons]

/-- The count a program needs is the largest of those at its declarations: what the entries and
blocks before one leave counted, and its own. -/
theorem nodesNeeded_le_iff {q : Program} {n : Nat} :
    q.nodesNeeded ≤ n ↔ ∀ before e after, q = before ++ e :: after →
      lasting before + e.term.cost ≤ n := by
  constructor
  · rintro h before e after rfl
    rw [nodesNeeded_append, nodesNeeded] at h
    omega
  · intro h
    induction q generalizing n with
    | nil => exact Nat.zero_le n
    | cons e q ih =>
      have hcost := h [] e q rfl
      rw [lasting, Nat.zero_add] at hcost
      have hlasting := e.lasting_le_cost
      have hrest : nodesNeeded q ≤ n - e.lasting := by
        apply ih
        intro before e' after hsplit
        have hle := h (e :: before) e' after (congrArg (e :: ·) hsplit)
        rw [lasting] at hle
        omega
      rw [nodesNeeded]
      omega

end Program

end HexConfig
