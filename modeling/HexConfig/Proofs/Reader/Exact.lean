import HexConfig.Proofs.Reader.Accounts
import HexConfig.Proofs.Reader.Published
import HexConfig.Proofs.Source.Measure

/-!
# The measures of constants are exact

A constant is published with its nesting and its size as the tally showed them: the one is a mark of how
deep the containers went, which an older constant that is spliced in raises too, and the other a difference
of two counts. Counting stops at the greatest number, but a reader that was never stopped before has
counted nothing yet, and where both limits are below the greatest number no count comes there without a
fault. So the measures are those of what is written, references written out, and this holds of the table at
every point of the reading (`constants_exact`).

They are not those of the value. An entry that a later one of the same name replaces was written and is
counted, and that is the only difference (`Term.nodes_le_cost`, `Term.nodes_eq_cost`).
-/

namespace HexConfig

open Reader

variable {limits : Limits} {constants : Constants} {known : Entries Term}

/-! ## Counting up to the limits -/

/-- From the one tally to the other nothing was counted past the limits. -/
structure Tally.Capped (limits : Limits) (t t' : Tally) : Prop where
  nodes : t'.nodes ≤ max t.nodes limits.maxNodes
  peak : t'.peak ≤ max t.peak limits.maxDepth

namespace Tally

variable {t t₁ t₂ : Tally}

theorem Capped.refl (t : Tally) : t.Capped limits t :=
  ⟨Nat.le_max_left _ _, Nat.le_max_left _ _⟩

/-- A charge within the limit counts nothing past it. -/
theorem capped_charge {n : Nat} (h : sumUpTo t.nodes n ≤ limits.maxNodes) :
    t.Capped limits (t.charge n) :=
  ⟨Nat.le_trans h (Nat.le_max_right _ _), Nat.le_max_left _ _⟩

/-- Something that reaches as deep as this, under the limit, is counted. -/
theorem capped_reach {n k : Nat} (hpeak : n ≤ limits.maxDepth)
    (hnodes : sumUpTo t.nodes k ≤ limits.maxNodes) (depth : Nat) :
    t.Capped limits ⟨depth, max t.peak n, sumUpTo t.nodes k⟩ where
  nodes := Nat.le_trans hnodes (Nat.le_max_right _ _)
  peak := Nat.max_le.mpr ⟨Nat.le_max_left _ _, Nat.le_trans hpeak (Nat.le_max_right _ _)⟩

theorem Capped.trans (h : t.Capped limits t₁) (h' : t₁.Capped limits t₂) : t.Capped limits t₂ where
  nodes := by
    have hnodes := h.nodes
    have hnodes' := h'.nodes
    omega
  peak := by
    have hpeak := h.peak
    have hpeak' := h'.peak
    omega

/-- A container, by what is in it. -/
theorem Capped.leave (hdepth : t.depth < limits.maxDepth) (hnodes : sumUpTo t.nodes 1 ≤ limits.maxNodes)
    (h : (t.enter.charge 1).Capped limits t₁) : t.Capped limits t₁.leave := by
  obtain ⟨hnodes', hpeak'⟩ := (capped_reach hdepth hnodes (t.depth + 1)).trans h
  exact ⟨hnodes', hpeak'⟩

end Tally

mutual

/-- A value that is read is counted up to the limits and no further. -/
theorem Term.Reads.capped : ∀ (x : Term) {v : Value} {t t' : Tally}, x.Reads limits constants t v t' →
    t.Capped limits t'
  | .number _, _, _, _, h => by
    cases h with
    | number _ hnodes => exact Tally.capped_charge hnodes
  | .string _, _, _, _, h => by
    cases h with
    | string _ hnodes => exact Tally.capped_charge hnodes
  | .reference _, _, t, _, h => by
    cases h with
    | reference _ hdepth hnodes => exact Tally.capped_reach hdepth hnodes t.depth
  | .array items, _, _, _, h => by
    cases h with
    | array hdepth hnodes h => exact (Term.ReadsItems.capped items h).leave hdepth hnodes
  | .object entries, _, _, _, h => by
    cases h with
    | object hdepth hnodes h => exact (Term.ReadsEntries.capped entries h).leave hdepth hnodes

theorem Term.ReadsItems.capped : ∀ (xs : List Term) {vs : List Value} {t t' : Tally},
    Term.ReadsItems limits constants xs t vs t' → t.Capped limits t'
  | [], _, t, _, h => by
    cases h
    exact .refl t
  | x :: xs, _, _, _, h => by
    cases h with
    | cons h h' => exact (Term.Reads.capped x h).trans (Term.ReadsItems.capped xs h')

theorem Term.ReadsEntries.capped : ∀ (xs : List (String × Term)) {before es : Entries Value}
    {t t' : Tally}, Term.ReadsEntries limits constants xs before t es t' → t.Capped limits t'
  | [], _, _, t, _, h => by
    cases h
    exact .refl t
  | (k, x) :: xs, _, _, _, _, h => by
    cases h with
    | cons h h' => exact (Term.Reads.capped x h).trans (Term.ReadsEntries.capped xs h')

end

/-! ## Exact measures -/

namespace Reader

/-- The measures of a constant are exactly those of the term that it has the value of. -/
structure Exact (u : Term) (c : Constant) : Prop where
  value : u.value? = some c.value
  size : c.size = u.cost
  depth : c.depth = u.nest

variable {u : Term} {c : Constant}

/-- Exact measures are measures, whatever the count. -/
theorem Exact.measured (h : Exact u c) (counted : Nat) : Measured counted u c where
  depth := congrArg (sumUpTo 0) h.depth
  size_le := Nat.le_of_eq h.size
  size := .inl h.size

/-- So the measures are at least those of the value, and just those where no object repeats a name. -/
theorem Exact.bounds (h : Exact u c) :
    c.value.nodes ≤ c.size ∧ c.value.nesting ≤ c.depth ∧
      (u.Distinct → c.value.nodes = c.size ∧ c.value.nesting = c.depth) := by
  obtain ⟨hnodes, hnesting⟩ := u.nodes_le_cost h.value
  refine ⟨h.size ▸ hnodes, h.depth ▸ hnesting, fun hdistinct => ?_⟩
  rw [h.size, h.depth]
  exact Term.nodes_eq_cost hdistinct h.value

/-- What the tally says of a value that is read where no container is open and the count is below its
end. -/
theorem exact_of_reads {x : Term} {v : Value} {t t' : Tally}
    (hmaxDepth : limits.maxDepth < Limits.greatest) (hmaxNodes : limits.maxNodes < Limits.greatest)
    (hknown : known.Related Exact constants) (hdepth : t.depth = 0) (hnodes : t.nodes < Limits.greatest)
    (hreads : x.Reads limits constants t v t') :
    ∃ u, x.expand? known = some u ∧ t'.depth = 0 ∧ t'.nodes < Limits.greatest ∧
      (t.peak = 0 → Exact u ⟨v, t'.peak, t'.nodes - t.nodes⟩) := by
  have hconsistent : t.Consistent := by
    refine ⟨?_, Nat.le_of_lt hnodes⟩
    rw [hdepth]
    exact sumUpTo_le_sumUpTo (Nat.le_refl 0) (Nat.zero_le _)
  have haccounted : Accounted known constants t.nodes :=
    Entries.Related.mono hknown fun _ _ hexact => hexact.measured t.nodes
  have hagree : Agree known constants := Entries.Related.mono hknown fun _ _ hexact => hexact.value
  obtain ⟨u, hu, hgrown⟩ := hreads.grown x haccounted hconsistent
  obtain ⟨hcappedNodes, hcappedPeak⟩ := hreads.capped x
  have hnodes' : t'.nodes < Limits.greatest := by omega
  refine ⟨u, hu, hgrown.depth.trans hdepth, hnodes', fun hpeak => ⟨?_, ?_, ?_⟩⟩
  · rw [← Term.valueIn?_of_expand? hagree x hu]
    exact Term.Reads.valueIn?_eq_some x hreads
  · show t'.nodes - t.nodes = u.cost
    have hcount := hgrown.nodes
    unfold sumUpTo at hcount
    omega
  · show t'.peak = u.nest
    have hmark := hgrown.peak
    rw [Tally.reach, hdepth, hpeak] at hmark
    unfold sumUpTo at hmark
    omega

/-- Constants that are published over a table with exact measures have exact measures. -/
theorem exact_of_publishes {p : Program} {t t' : Tally} {published : List (String × Constant)}
    (hmaxDepth : limits.maxDepth < Limits.greatest) (hmaxNodes : limits.maxNodes < Limits.greatest)
    (h : p.Publishes limits constants t published t') (hknown : known.Related Exact constants)
    (hdepth : t.depth = 0) (hnodes : t.nodes < Limits.greatest) :
    ∃ q, p.expandFrom? known = some q ∧
      (q.declared known).Related Exact (constants.writeAll published) := by
  induction h generalizing known with
  | nil => exact ⟨[], rfl, hknown⟩
  | @global name x p constants t t' t'' v published hreads _ ih =>
    obtain ⟨u, hu, hdepth', -, hexact⟩ :=
      exact_of_reads hmaxDepth hmaxNodes hknown (t := t.beginConstant) hdepth hnodes hreads
    have he : (Declaration.global name x).expand? known = some (.global name u) := by
      rw [Declaration.expand?, hu, Option.map_some]
    obtain ⟨q, hq, hrelated⟩ := ih (hknown.write (hexact rfl) name) hdepth' hnodes
    exact ⟨.global name u :: q, Program.expandFrom?_cons_eq_some.mpr ⟨_, q, he, hq, rfl⟩, hrelated⟩
  | @entry key x p constants t t' t'' v published hreads _ ih =>
    obtain ⟨u, hu, hdepth', hnodes', -⟩ :=
      exact_of_reads hmaxDepth hmaxNodes hknown hdepth hnodes hreads
    have he : (Declaration.entry key x).expand? known = some (.entry key u) := by
      rw [Declaration.expand?, hu, Option.map_some]
    obtain ⟨q, hq, hrelated⟩ := ih hknown hdepth' hnodes'
    exact ⟨.entry key u :: q, Program.expandFrom?_cons_eq_some.mpr ⟨_, q, he, hq, rfl⟩, hrelated⟩
  | @block es p constants t t' t'' v published hreads _ ih =>
    obtain ⟨_, hu, hdepth', hnodes', -⟩ :=
      exact_of_reads hmaxDepth hmaxNodes hknown hdepth hnodes hreads
    obtain ⟨us, hus, rfl⟩ := Term.expand?_object_eq_some.mp hu
    have he : (Declaration.block es).expand? known = some (.block us) := by
      rw [Declaration.expand?, hus, Option.map_some]
    obtain ⟨q, hq, hrelated⟩ := ih hknown hdepth' hnodes'
    exact ⟨.block us :: q, Program.expandFrom?_cons_eq_some.mpr ⟨_, q, he, hq, rfl⟩, hrelated⟩

/-! ## Tables -/

/-- The table has just the constants that the tokens declare as a whole: each with the value of the latest
term that was written for it, references written out, and with exactly the measures of that term. -/
def ExactFor (taken : List Token) (constants : Constants) : Prop :=
  ∃ (p q : Program) (ws : List Word), taken.map Token.word = p.words ++ ws ∧ OnlyBegun ws ∧
    p.expand? = some q ∧ (q.declared []).Related Exact constants

variable {source : String} {s : State} {taken rest : List Token}

/-- Behind any tokens at the start of a text the constants are exact. -/
theorem exactFor_of_feed (hmaxDepth : limits.maxDepth < Limits.greatest)
    (hmaxNodes : limits.maxNodes < Limits.greatest)
    (hlist : (Tokens.ofText source).list = taken ++ rest)
    (hfeed : (State.start [] .zero).feed limits taken = .ok s) : ExactFor taken s.constants := by
  obtain ⟨p, ws, published, tally, hwords, hbegun, -, hpublishes, htable⟩ :=
    exists_published_of_feed (written_ofText source limits) hlist hfeed
  have hzero : Tally.zero.nodes < Limits.greatest := by decide
  obtain ⟨q, hq, hrelated⟩ :=
    exact_of_publishes hmaxDepth hmaxNodes hpublishes Entries.related_nil rfl hzero
  rw [← htable] at hrelated
  exact ⟨p, q, ws, hwords, hbegun, hq, hrelated⟩

/-- Under limits below the greatest number, the table of constants is exact at every point of reading a
text, and behind the reading as well, however it ended: each constant has the size and the nesting of what
was written for it, with references written out. These are at least the measures of its value, and the same
where no object of what was written repeats a name. -/
theorem constants_exact (source : String) (limits : Limits)
    (hmaxDepth : limits.maxDepth < Limits.greatest) (hmaxNodes : limits.maxNodes < Limits.greatest) :
    (∀ taken rest s, (Tokens.ofText source).list = taken ++ rest →
      (State.start [] .zero).feed limits taken = .ok s → ExactFor taken s.constants) ∧
    (∃ taken rest, (Tokens.ofText source).list = taken ++ rest ∧
      ((ofText source limits).read.1.consumed = taken ∨
        ∃ t, (ofText source limits).read.1.consumed = taken ++ [t]) ∧
      ExactFor taken (ofText source limits).read.2.constants) ∧
    ∀ u c, Exact u c → c.value.nodes ≤ c.size ∧ c.value.nesting ≤ c.depth ∧
      (u.Distinct → c.value.nodes = c.size ∧ c.value.nesting = c.depth) := by
  refine ⟨?_, ?_, fun u c h => h.bounds⟩
  · intro taken rest s hlist hfeed
    exact exactFor_of_feed hmaxDepth hmaxNodes hlist hfeed
  · obtain ⟨taken, rest, s, hlist, hfeed, hconstants, -, hconsumed⟩ :=
      (ofText source limits).exists_taken_of_read
    refine ⟨taken, rest, hlist, ?_, ?_⟩
    · rcases hconsumed with ⟨hconsumed, -⟩ | ⟨t, d, hconsumed, -⟩
      · exact .inl hconsumed
      · exact .inr ⟨t, hconsumed⟩
    · rw [hconstants]
      exact exactFor_of_feed hmaxDepth hmaxNodes hlist hfeed

/-- An instance: the object of `A` writes its name twice, so what `B` splices in twice counts four values
where the object has two, and nests two deep where it nests one. The reading is stopped behind them. -/
theorem constants_exact_spliced :
    (ofText "global A = \x7bk = #(0x1) k = 0x2\x7d global B = #(?[A] ?[A]) x = ?[C]" .standard).read.1.result =
      .error ⟨.unknownConstant "C", ⟨1, 63⟩⟩ ∧
    (ofText "global A = \x7bk = #(0x1) k = 0x2\x7d global B = #(?[A] ?[A]) x = ?[C]"
        .standard).read.2.constants.find? "B" =
      some ⟨.sequence [.mapping [("k", .number 2)], .mapping [("k", .number 2)]], 3, 9⟩ ∧
    Limits.standard.maxDepth < Limits.greatest ∧ Limits.standard.maxNodes < Limits.greatest ∧
    ∃ taken, ExactFor taken
      (ofText "global A = \x7bk = #(0x1) k = 0x2\x7d global B = #(?[A] ?[A]) x = ?[C]"
        .standard).read.2.constants := by
  have hmaxDepth : Limits.standard.maxDepth < Limits.greatest := by decide
  have hmaxNodes : Limits.standard.maxNodes < Limits.greatest := by decide
  obtain ⟨-, ⟨taken, -, -, -, hexact⟩, -⟩ := constants_exact
    "global A = \x7bk = #(0x1) k = 0x2\x7d global B = #(?[A] ?[A]) x = ?[C]" .standard hmaxDepth hmaxNodes
  exact ⟨by decide +kernel, by decide +kernel, hmaxDepth, hmaxNodes, taken, hexact⟩

end Reader

end HexConfig
