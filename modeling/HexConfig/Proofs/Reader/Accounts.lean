import HexConfig.Proofs.Reader.Trees
import HexConfig.Proofs.Source.Places

/-!
# What has been counted

Tokens that were taken were counted, and the tally says what they come to with their references written
out: for a value (`Term.Reads.grown`), for whole declarations (`Settled.program`), and up to a place where a
value starts (`exists_at_of_feed`). No limit is looked at here and no text is too long: a count that went on to
the greatest number stays there, and is held against what is written only up to that number.
-/

namespace HexConfig

/-! ## Tallies -/

namespace Tally

/-- A tally in order: no more containers are open than ever were, and nothing is counted past the greatest
number. -/
structure Consistent (t : Tally) : Prop where
  depth_le : sumUpTo 0 t.depth ≤ sumUpTo 0 t.peak
  nodes_le : t.nodes ≤ Limits.greatest

/-- From the one tally to the other, something was read that nests and counts so much. -/
structure Grown (t : Tally) (nest cost : Nat) (t' : Tally) : Prop where
  depth : t'.depth = t.depth
  peak : sumUpTo 0 t'.peak = max (sumUpTo 0 t.peak) (t.reach nest)
  nodes : t'.nodes = sumUpTo t.nodes cost

variable {t t₁ t₂ : Tally} {n c n' c' : Nat}

theorem consistent_open (t : Tally) : (t.enter.charge 1).Consistent where
  depth_le := sumUpTo_le_sumUpTo (Nat.le_refl 0) (Nat.le_max_right _ _)
  nodes_le := sumUpTo_le_greatest _ _

/-- The depth of a consistent count is within its peak. -/
theorem Consistent.reach_zero_le (h : t.Consistent) : t.reach 0 ≤ sumUpTo 0 t.peak := by
  have hdepth := h.depth_le
  rwa [reach, sumUpTo, Nat.add_comm]

/-- Nothing was read. -/
theorem Consistent.grown_zero (h : t.Consistent) : t.Grown 0 0 t where
  depth := rfl
  peak := (Nat.max_eq_left h.reach_zero_le).symm
  nodes := (sumUpTo_zero h.nodes_le).symm

/-- Something that is no container was read. -/
theorem Consistent.grown_charge (h : t.Consistent) (k : Nat) : t.Grown 0 k (t.charge k) where
  depth := rfl
  peak := (Nat.max_eq_left h.reach_zero_le).symm
  nodes := rfl

/-- A consistent count that has grown is consistent. -/
theorem Grown.consistent (h : t.Consistent) (hgrown : t.Grown n c t₁) : t₁.Consistent where
  depth_le := by
    rw [hgrown.depth, hgrown.peak]
    exact Nat.le_trans h.depth_le (Nat.le_max_left _ _)
  nodes_le := by
    rw [hgrown.nodes]
    exact sumUpTo_le_greatest _ _

/-- A count that has grown is no lower. -/
theorem Grown.nodes_le (h : t.Consistent) (hgrown : t.Grown n c t₁) : t.nodes ≤ t₁.nodes := by
  rw [hgrown.nodes]
  exact le_sumUpTo h.nodes_le

/-- One thing after another. -/
theorem Grown.trans (h : t.Grown n c t₁) (h' : t₁.Grown n' c' t₂) :
    t.Grown (max n n') (c + c') t₂ where
  depth := h'.depth.trans h.depth
  peak := by
    rw [h'.peak, h.peak, reach, reach, reach, h.depth, sumUpTo_max, Nat.max_assoc]
  nodes := by rw [h'.nodes, h.nodes, sumUpTo_sumUpTo]

/-- A container, by what is in it. -/
theorem Grown.leave (h : (t.enter.charge 1).Grown n c t₁) : t.Grown (n + 1) (c + 1) t₁.leave where
  depth := Nat.sub_eq_of_eq_add h.depth
  peak := by
    have hpeak : sumUpTo 0 t₁.peak =
        max (sumUpTo 0 (max t.peak (t.depth + 1))) (sumUpTo (t.depth + 1) n) := h.peak
    have hinside : sumUpTo 0 (t.depth + 1) ≤ sumUpTo (t.depth + 1) n := by
      unfold sumUpTo
      omega
    show sumUpTo 0 t₁.peak = max (sumUpTo 0 t.peak) (sumUpTo t.depth (n + 1))
    rw [hpeak, sumUpTo_max, Nat.max_assoc, Nat.max_eq_right hinside, sumUpTo_succ_left]
  nodes := by
    have hnodes : t₁.nodes = sumUpTo (sumUpTo t.nodes 1) c := h.nodes
    show t₁.nodes = sumUpTo t.nodes (c + 1)
    rw [hnodes, sumUpTo_sumUpTo, Nat.add_comm]

end Tally

namespace Reader

/-- The constants published are those known, by the measures that were recorded. -/
def Accounted (known : Entries Term) (constants : Constants) (counted : Nat) : Prop :=
  known.Related (Measured counted) constants

variable {known : Entries Term} {constants : Constants} {t t₁ : Tally} {n c counted counted' : Nat}

/-- What is accounted for by a count is accounted for by any higher one. -/
theorem Accounted.mono (h : Accounted known constants counted) (hle : counted ≤ counted') :
    Accounted known constants counted' :=
  Entries.Related.mono h fun _ _ hmeasured => hmeasured.mono hle

/-- What is known is known inside a container that is opened. -/
theorem Accounted.open (h : Accounted known constants t.nodes) (hcons : t.Consistent) :
    Accounted known constants (t.enter.charge 1).nodes :=
  h.mono (le_sumUpTo hcons.nodes_le)

theorem Accounted.grown (h : Accounted known constants t.nodes) (hcons : t.Consistent)
    (hgrown : t.Grown n c t₁) : Accounted known constants t₁.nodes :=
  h.mono (hgrown.nodes_le hcons)

/-- A constant that is spliced in counts for what it writes. -/
theorem Measured.grown {u : Term} {constant : Constant} (h : Measured t.nodes u constant) :
    t.Grown u.nest u.cost ((t.splice constant.depth).charge constant.size) where
  depth := rfl
  peak := by
    show sumUpTo 0 (max t.peak (t.reach constant.depth)) = max (sumUpTo 0 t.peak) (t.reach u.nest)
    rw [h.reach_depth, Tally.reach]
    unfold sumUpTo
    omega
  nodes := h.sumUpTo_size (Nat.le_refl _)

/-- The measures that a constant gets when it is published. -/
theorem measured_of_grown {u : Term} {nodes : Nat} (v : Value) (hdepth : t.depth = 0) (hpeak : t.peak = 0)
    (hgrown : t.Grown u.nest u.cost t₁) (hnodes : t.nodes = nodes) (hle : nodes ≤ Limits.greatest) :
    Measured nodes u ⟨v, t₁.peak, t₁.nodes - nodes⟩ := by
  have hpeak' := hgrown.peak
  have hnodes' := hgrown.nodes
  rw [Tally.reach, hdepth, hpeak] at hpeak'
  rw [hnodes] at hnodes'
  refine ⟨?_, ?_, ?_⟩
  · show sumUpTo 0 t₁.peak = sumUpTo 0 u.nest
    rw [hpeak']
    unfold sumUpTo
    omega
  · show t₁.nodes - nodes ≤ u.cost
    rw [hnodes']
    unfold sumUpTo
    omega
  · show t₁.nodes - nodes = u.cost ∨ Limits.greatest ≤ nodes + (t₁.nodes - nodes)
    rw [hnodes']
    unfold sumUpTo
    omega

end Reader

/-! ## Values -/

open Reader

variable {limits : Limits} {constants : Constants} {known : Entries Term}

mutual

/-- A value that was read can be written out in full, and was counted as that. -/
theorem Term.Reads.grown : ∀ (x : Term) {v : Value} {t t' : Tally}, x.Reads limits constants t v t' →
    Accounted known constants t.nodes → t.Consistent →
      ∃ u, x.expand? known = some u ∧ t.Grown u.nest u.cost t'
  | .number digits, _, _, _, hreads, _, hcons => by
    cases hreads
    exact ⟨.number digits, rfl, hcons.grown_charge 1⟩
  | .string s, _, _, _, hreads, _, hcons => by
    cases hreads
    exact ⟨.string s, rfl, hcons.grown_charge 1⟩
  | .reference name, _, _, _, hreads, hacc, _ => by
    cases hreads with
    | reference hc _ _ =>
      obtain ⟨u, hu, hmeasured⟩ := Entries.Related.exists_left hacc hc
      exact ⟨u, hu, hmeasured.grown⟩
  | .array items, _, t, _, hreads, hacc, hcons => by
    cases hreads with
    | array _ _ hreads =>
      obtain ⟨us, hus, hgrown⟩ :=
        Term.ReadsItems.grown items hreads (hacc.open hcons) t.consistent_open
      exact ⟨.array us, Term.expand?_array_eq_some.mpr ⟨us, hus, rfl⟩, hgrown.leave⟩
  | .object entries, _, t, _, hreads, hacc, hcons => by
    cases hreads with
    | object _ _ hreads =>
      obtain ⟨us, hus, hgrown⟩ :=
        Term.ReadsEntries.grown entries hreads (hacc.open hcons) t.consistent_open
      exact ⟨.object us, Term.expand?_object_eq_some.mpr ⟨us, hus, rfl⟩, hgrown.leave⟩

theorem Term.ReadsItems.grown : ∀ (xs : List Term) {vs : List Value} {t t' : Tally},
    Term.ReadsItems limits constants xs t vs t' → Accounted known constants t.nodes → t.Consistent →
      ∃ us, Term.expandItems? known xs = some us ∧
        t.Grown (Term.nestOfItems us) (Term.costOfItems us) t'
  | [], _, _, _, hreads, _, hcons => by
    cases hreads
    exact ⟨[], rfl, hcons.grown_zero⟩
  | x :: xs, _, _, _, hreads, hacc, hcons => by
    cases hreads with
    | cons hreads hreads' =>
      obtain ⟨u, hu, hgrown⟩ := Term.Reads.grown x hreads hacc hcons
      obtain ⟨us, hus, hgrown'⟩ :=
        Term.ReadsItems.grown xs hreads' (hacc.grown hcons hgrown) (hgrown.consistent hcons)
      exact ⟨u :: us, Term.expandItems?_cons_eq_some.mpr ⟨u, us, hu, hus, rfl⟩, hgrown.trans hgrown'⟩

theorem Term.ReadsEntries.grown : ∀ (xs : List (String × Term)) {before es : Entries Value} {t t' : Tally},
    Term.ReadsEntries limits constants xs before t es t' → Accounted known constants t.nodes →
      t.Consistent → ∃ us, Term.expandEntries? known xs = some us ∧
        t.Grown (Term.nestOfEntries us) (Term.costOfEntries us) t'
  | [], _, _, _, _, hreads, _, hcons => by
    cases hreads
    exact ⟨[], rfl, hcons.grown_zero⟩
  | (k, x) :: xs, _, _, _, _, hreads, hacc, hcons => by
    cases hreads with
    | cons hreads hreads' =>
      obtain ⟨u, hu, hgrown⟩ := Term.Reads.grown x hreads hacc hcons
      obtain ⟨us, hus, hgrown'⟩ :=
        Term.ReadsEntries.grown xs hreads' (hacc.grown hcons hgrown) (hgrown.consistent hcons)
      exact ⟨(k, u) :: us, Term.expandEntries?_cons_eq_some.mpr ⟨u, us, hu, hus, rfl⟩,
        hgrown.trans hgrown'⟩

end

namespace Reader.State

variable {s s₁ : State} {ts : List Token} {count : Nat}

/-! ## Declarations -/

/-- Between declarations, with `count` values written by those that are complete. -/
structure Settled (known : Entries Term) (count : Nat) (s : State) : Prop where
  awaiting : s.awaiting = .declaration
  depth : s.tally.depth = 0
  nodes : s.tally.nodes = sumUpTo 0 count
  accounted : Accounted known s.constants s.tally.nodes

/-- A settled count is within the greatest number. -/
theorem Settled.nodes_le (h : s.Settled known count) : s.tally.nodes ≤ Limits.greatest := by
  rw [h.nodes]
  exact sumUpTo_le_greatest _ _

/-- A tally is in order where a declaration begins, whichever it is. -/
theorem Settled.consistent_begun (h : s.Settled known count) (d : Declaration) :
    (d.begun s.tally).Consistent ∧ (d.begun s.tally).depth = 0 ∧
      (d.begun s.tally).nodes = s.tally.nodes := by
  have hbegun : (d.begun s.tally).depth = s.tally.depth ∧ (d.begun s.tally).nodes = s.tally.nodes := by
    cases d <;> exact ⟨rfl, rfl⟩
  obtain ⟨hdepth, hnodes⟩ := hbegun
  rw [h.depth] at hdepth
  refine ⟨⟨?_, ?_⟩, hdepth, hnodes⟩
  · rw [hdepth]
    exact sumUpTo_le_sumUpTo (Nat.le_refl 0) (Nat.zero_le _)
  · rw [hnodes]
    exact h.nodes_le

/-- A reading starts from a settled count. -/
theorem settled_start : (start [] .zero).Settled [] 0 :=
  ⟨rfl, rfl, rfl, Entries.related_nil⟩

/-- A declaration that was taken can be written out in full. The values of an entry or of a block stay
counted, those of a constant do not. -/
theorem Settled.declaration (h : s.Settled known count) (d : Declaration)
    (hts : ts.map Token.word = d.words) (hfeed : s.feed limits ts = .ok s₁) :
    ∃ e, d.expand? known = some e ∧ s₁.Settled (e.declared known) (count + e.lasting) := by
  obtain ⟨v, tally, hreads, rfl⟩ := (feed_declaration_iff d hts h.awaiting).mp hfeed
  obtain ⟨hcons, hdepth, hnodes⟩ := h.consistent_begun d
  obtain ⟨u, hu, hgrown⟩ := hreads.grown d.term (hnodes ▸ h.accounted) hcons
  have hdepth' : tally.depth = 0 := hgrown.depth.trans hdepth
  have hacc : Accounted known s.constants tally.nodes :=
    (hnodes ▸ h.accounted : Accounted known s.constants (d.begun s.tally).nodes).grown hcons hgrown
  have hnodes' : tally.nodes = sumUpTo 0 (count + u.cost) := by
    rw [hgrown.nodes, hnodes, h.nodes, sumUpTo_sumUpTo]
  cases d with
  | global name x =>
    have he : (Declaration.global name x).expand? known = some (.global name u) := by
      rw [Declaration.expand?, show x.expand? known = some u from hu, Option.map_some]
    have hmeasured := measured_of_grown v hdepth rfl hgrown rfl h.nodes_le
    exact ⟨.global name u, he, rfl, hdepth', h.nodes, Entries.Related.write h.accounted hmeasured name⟩
  | entry key x =>
    have he : (Declaration.entry key x).expand? known = some (.entry key u) := by
      rw [Declaration.expand?, show x.expand? known = some u from hu, Option.map_some]
    exact ⟨.entry key u, he, rfl, hdepth', hnodes', hacc⟩
  | block es =>
    obtain ⟨us, hus, rfl⟩ := Term.expand?_object_eq_some.mp hu
    have he : (Declaration.block es).expand? known = some (.block us) := by
      rw [Declaration.expand?, hus, Option.map_some]
    exact ⟨.block us, he, rfl, hdepth', hnodes', hacc⟩

/-- Declarations that were taken can be written out in full, and what of them lasts is counted. -/
theorem Settled.program (h : s.Settled known count) (p : Program) (hts : ts.map Token.word = p.words)
    (hfeed : s.feed limits ts = .ok s₁) :
    ∃ q, p.expandFrom? known = some q ∧ s₁.Settled (q.declared known) (count + q.lasting) := by
  induction p generalizing s ts known count with
  | nil =>
    obtain rfl := List.map_eq_nil_iff.mp hts
    cases hfeed
    exact ⟨[], rfl, h⟩
  | cons d p ih =>
    rw [Program.words_cons] at hts
    obtain ⟨ts₁, ts₂, rfl, hts₁, hts₂⟩ := List.map_eq_append_iff.mp hts
    obtain ⟨s', hfeed₁, hfeed₂⟩ := feed_append_eq_ok_iff.mp hfeed
    obtain ⟨e, he, h'⟩ := h.declaration d hts₁ hfeed₁
    obtain ⟨q, hq, hsettled⟩ := ih h' hts₂ hfeed₂
    rw [Nat.add_assoc] at hsettled
    exact ⟨e :: q, Program.expandFrom?_cons_eq_some.mpr ⟨e, q, he, hq, rfl⟩, hsettled⟩

/-! ## Places -/

/-- A value may start that has a first token of this kind; where a declaration may start, only an object. -/
def Admits (s : State) (k : Token.Kind) : Prop :=
  (∃ ctx, s.ForValue ctx) ∧ k.BeginsValue ∨ s.awaiting = .declaration ∧ k = .leftBrace

/-- Where a value is admitted, one may start. -/
theorem Admits.starts {k : Token.Kind} (h : s.Admits k) : ∃ ctx, s.Starts ctx := by
  rcases h with ⟨⟨ctx, hctx⟩, -⟩ | ⟨hawait, -⟩
  · exact ⟨ctx, .inl hctx⟩
  · exact ⟨_, .inr ⟨hawait, rfl⟩⟩

theorem Admits.forValue {k : Token.Kind} (h : s.Admits k) (hk : k ≠ .leftBrace) :
    ∃ ctx, s.ForValue ctx := by
  rcases h with ⟨hctx, -⟩ | ⟨-, hbrace⟩
  · exact hctx
  · exact absurd hbrace hk

/-- A token that values start with is taken only where a value may start with it. -/
theorem admits_of_step {t : Token} (h : s.step limits t = .ok s₁) (hkind : t.kind.BeginsValue) :
    s.Admits t.kind := by
  cases advance_of_step h with
  | number hctx => exact .inl ⟨⟨_, hctx⟩, hkind⟩
  | text hctx => exact .inl ⟨⟨_, hctx⟩, hkind⟩
  | hash hctx => exact .inl ⟨⟨_, hctx⟩, hkind⟩
  | question hctx => exact .inl ⟨⟨_, hctx⟩, hkind⟩
  | object hctx => exact .inl ⟨⟨_, hctx⟩, hkind⟩
  | block hawait hbrace => exact .inr ⟨hawait, hbrace⟩
  | _ =>
    -- the other ways are for tokens that no value starts with
    exact absurd hkind (by simp [Token.Kind.BeginsValue, *])

/-- A value may start, with so many containers open and so many values written before. -/
structure Stands (known : Entries Term) (depth count : Nat) (s : State) : Prop where
  starts : ∃ ctx, s.Starts ctx
  consistent : s.tally.Consistent
  depth : s.tally.depth = depth
  nodes : s.tally.nodes = sumUpTo 0 count
  accounted : Accounted known s.constants s.tally.nodes

variable {depth n c : Nat} {t₁ t₂ : Token}

/-- Inside a container that is opened where a value may start, behind something that was read there. -/
theorem Stands.inside (h : s.Stands known depth count)
    (hgrown : (s.tally.enter.charge 1).Grown n c s₁.tally) (hconstants : s₁.constants = s.constants)
    (hstarts : ∃ ctx, s₁.Starts ctx) : s₁.Stands known (depth + 1) (count + 1 + c) where
  starts := hstarts
  consistent := hgrown.consistent s.tally.consistent_open
  depth := by
    rw [hgrown.depth, ← h.depth]
    rfl
  nodes := by
    have hnodes : s₁.tally.nodes = sumUpTo (sumUpTo s.tally.nodes 1) c := hgrown.nodes
    rw [hnodes, h.nodes, sumUpTo_sumUpTo, sumUpTo_sumUpTo, Nat.add_assoc]
  accounted := by
    rw [hconstants]
    exact (h.accounted.open h.consistent).grown s.tally.consistent_open hgrown

/-- Behind the items of an array that were taken, one more may start. -/
theorem Stands.item (h : s.Stands known depth count) (xs : List Term) (hhash : t₁.kind = .hash)
    (hparen : t₂.kind = .leftParen) (hts : ts.map Token.word = Term.wordsOfItems xs)
    (hfeed : s.feed limits (t₁ :: t₂ :: ts) = .ok s₁) :
    ∃ us, Term.expandItems? known xs = some us ∧
      s₁.Stands known (depth + 1) (count + 1 + Term.costOfItems us) := by
  obtain ⟨s', hstep, -⟩ := feed_cons_eq_ok_iff.mp hfeed
  have hadmits := admits_of_step hstep (by rw [hhash]; decide)
  obtain ⟨ctx, hctx⟩ := hadmits.forValue (by rw [hhash]; nofun)
  rw [show t₁ :: t₂ :: ts = [t₁, t₂] ++ ts from rfl, feed_append_eq_ok_iff] at hfeed
  obtain ⟨s', hopen, hfeed⟩ := hfeed
  obtain ⟨-, -, rfl⟩ := (feed_arrayOpen_eq_ok_iff hctx hhash hparen).mp hopen
  obtain ⟨vs, tally, hreads, rfl⟩ := (feed_items_iff xs hts rfl).mp hfeed
  have hacc := h.accounted.open h.consistent
  obtain ⟨us, hus, hgrown⟩ := hreads.grown xs hacc s.tally.consistent_open
  exact ⟨us, hus, h.inside hgrown rfl ⟨_, .inl (.inr ⟨_, _, rfl, rfl⟩)⟩⟩

/-- Behind the entries of an object that were taken, and one more name, its value may start. -/
theorem Stands.field (h : s.Stands known depth count) (xs : List (String × Term)) {key equals : Token}
    (hbrace : t₁.kind = .leftBrace) (hts : ts.map Token.word = Term.wordsOfEntries xs)
    (hkey : key.kind = .identifier) (hequals : equals.kind = .equals)
    (hfeed : s.feed limits (t₁ :: (ts ++ [key, equals])) = .ok s₁) :
    ∃ us, Term.expandEntries? known xs = some us ∧
      s₁.Stands known (depth + 1) (count + 1 + Term.costOfEntries us) := by
  obtain ⟨ctx, hctx⟩ := h.starts
  obtain ⟨s', hopen, hfeed⟩ := feed_cons_eq_ok_iff.mp hfeed
  obtain ⟨-, -, rfl⟩ := (step_leftBrace_eq_ok_iff hctx hbrace).mp hopen
  obtain ⟨s', hentries, hfeed⟩ := feed_append_eq_ok_iff.mp hfeed
  obtain ⟨es, tally, hreads, rfl⟩ := (feed_entries_iff xs hts rfl).mp hentries
  rw [feed_keyHead rfl hkey hequals] at hfeed
  cases hfeed
  have hacc := h.accounted.open h.consistent
  obtain ⟨us, hus, hgrown⟩ := hreads.grown xs hacc s.tally.consistent_open
  exact ⟨us, hus, h.inside hgrown rfl ⟨_, .inl (.inl rfl)⟩⟩

/-- Behind the opening of a value that was taken, the value may start. -/
theorem Settled.opening (h : s.Settled known count) (o : Opening) (hts : ts.map Token.word = o.words)
    (hfeed : s.feed limits ts = .ok s₁) :
    ∃ o', o.expand? known = some o' ∧ s₁.Stands known o.depth (count + o'.cost) := by
  induction o generalizing ts s₁ with
  | global name =>
    obtain ⟨t₁, ts, rfl, hk₁, -, hts⟩ := tokens_of_words hts
    obtain ⟨t₂, ts, rfl, hk₂, -, hts⟩ := tokens_of_words hts
    obtain ⟨t₃, ts, rfl, hk₃, -, hts⟩ := tokens_of_words hts
    obtain rfl := List.map_eq_nil_iff.mp hts
    rw [feed_globalHead h.awaiting hk₁ hk₂ hk₃] at hfeed
    cases hfeed
    obtain ⟨hcons, hdepth, -⟩ := h.consistent_begun (.global name (.string ""))
    exact ⟨.global name, rfl, ⟨_, .inl (.inl rfl)⟩, hcons, hdepth, h.nodes, h.accounted⟩
  | entry key =>
    obtain ⟨t₁, ts, rfl, hk₁, -, hts⟩ := tokens_of_words hts
    obtain ⟨t₂, ts, rfl, hk₂, -, hts⟩ := tokens_of_words hts
    obtain rfl := List.map_eq_nil_iff.mp hts
    rw [feed_entryHead h.awaiting hk₁ hk₂] at hfeed
    cases hfeed
    obtain ⟨hcons, hdepth, -⟩ := h.consistent_begun (.entry key (.string ""))
    exact ⟨.entry key, rfl, ⟨_, .inl (.inl rfl)⟩, hcons, hdepth, h.nodes, h.accounted⟩
  | block =>
    obtain rfl := List.map_eq_nil_iff.mp hts
    cases hfeed
    obtain ⟨hcons, hdepth, -⟩ := h.consistent_begun (.block [])
    exact ⟨.block, rfl, ⟨_, .inr ⟨h.awaiting, rfl⟩⟩, hcons, hdepth, h.nodes, h.accounted⟩
  | item outer before ih =>
    obtain ⟨ts₁, ts₂, rfl, houter, hts⟩ := List.map_eq_append_iff.mp hts
    obtain ⟨t₁, ts, rfl, hk₁, -, hts⟩ := tokens_of_words hts
    obtain ⟨t₂, ts, rfl, hk₂, -, hts⟩ := tokens_of_words hts
    obtain ⟨s', hfeed₁, hfeed₂⟩ := feed_append_eq_ok_iff.mp hfeed
    obtain ⟨o', ho', hstands⟩ := ih houter hfeed₁
    obtain ⟨us, hus, hstands⟩ := hstands.item before hk₁ hk₂ hts hfeed₂
    refine ⟨.item o' us, Opening.expand?_item ho' hus, ?_⟩
    simpa only [Opening.cost, Opening.depth, Nat.add_assoc] using hstands
  | field outer before key ih =>
    obtain ⟨ts₁, ts₂, rfl, houter, hts⟩ := List.map_eq_append_iff.mp hts
    obtain ⟨t₁, ts, rfl, hk₁, -, hts⟩ := tokens_of_words hts
    obtain ⟨ts, tail, rfl, hentries, htail⟩ := List.map_eq_append_iff.mp hts
    obtain ⟨t₂, tail, rfl, hk₂, -, htail⟩ := tokens_of_words htail
    obtain ⟨t₃, tail, rfl, hk₃, -, htail⟩ := tokens_of_words htail
    obtain rfl := List.map_eq_nil_iff.mp htail
    obtain ⟨s', hfeed₁, hfeed₂⟩ := feed_append_eq_ok_iff.mp hfeed
    obtain ⟨o', ho', hstands⟩ := ih houter hfeed₁
    obtain ⟨us, hus, hstands⟩ := hstands.field before hk₁ hentries hk₂ hk₃ hfeed₂
    refine ⟨.field o' us key, Opening.expand?_field ho' hus key, ?_⟩
    simpa only [Opening.cost, Opening.depth, Nat.add_assoc] using hstands

/-- The machine stands at the place, with these constants and so many values written before. -/
structure At (pl : Place) (known : Entries Term) (count : Nat) (s : State) : Prop extends
    Stands known pl.opening.depth count s where
  known_eq : pl.known? = some known
  count_eq : pl.count? = some count

/-- What was taken up to a place brings the machine there: what has been counted is what is written. -/
theorem exists_at_of_feed (pl : Place) (hts : ts.map Token.word = pl.words)
    (hfeed : (start [] .zero).feed limits ts = .ok s) : ∃ known count, s.At pl known count := by
  obtain ⟨ts₁, ts₂, rfl, hts₁, hts₂⟩ := List.map_eq_append_iff.mp hts
  obtain ⟨s', hfeed₁, hfeed₂⟩ := feed_append_eq_ok_iff.mp hfeed
  obtain ⟨q, hq, hsettled⟩ := settled_start.program pl.before hts₁ hfeed₁
  obtain ⟨o, ho, hstands⟩ := hsettled.opening pl.opening hts₂ hfeed₂
  have hexpand : pl.before.expand? = some q := hq
  rw [Nat.zero_add] at hstands
  refine ⟨_, _, hstands, ?_, ?_⟩
  · rw [Place.known?, hexpand, Option.map_some]
  · rw [Place.count?, hexpand]
    show (pl.opening.expand? (q.declared [])).bind _ = _
    rw [ho]
    rfl

end Reader.State

end HexConfig
