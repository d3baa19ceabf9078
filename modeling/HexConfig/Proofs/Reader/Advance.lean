import HexConfig.Reader
import HexConfig.Source.Meaning

/-!
# What one token can do

A token that the machine takes brings it from one state to another in one of the ways that `Advance`
lists, one for each place in the grammar where a token can stand. All that is said of runs of the
machine goes through this list: an invariant is kept by a step if each of these ways keeps it, and
nobody takes `State.step` apart a second time (`advance_of_step`).

A token that fits may raise a fault all the same. `Failure` lists the ways, with the state each leaves
behind: what was awaited and what was published stay, and the count of values may have grown
(`failure_of_step`).
-/

namespace HexConfig.Reader

namespace State

variable {limits : Limits} {s s' : State} {t : Token} {ctx : Context}

/-! ## Counting -/

/-- The state after so many values more. -/
def charged (s : State) (n : Nat) : State := { s with tally := s.tally.charge n }

/-- The state inside a container just opened. -/
def opened (s : State) (inside : Awaiting) : State :=
  { s with awaiting := inside, tally := s.tally.enter.charge 1 }

/-- The state after a constant was spliced in. -/
def spliced (s : State) (c : Constant) : State :=
  { s with tally := (s.tally.splice c.depth).charge c.size }

/-- A charge goes through exactly if the nodes with it are within the limit. -/
theorem charge_eq_ok_iff {n : Nat} {p : Position} :
    s.charge limits n p = .ok s' ↔
      (s.tally.charge n).nodes ≤ limits.maxNodes ∧ s' = s.charged n := by
  unfold charge
  split
  · next h => simp [Nat.not_le_of_lt h]
  · next h => simp [Nat.le_of_not_lt h, charged, eq_comm]

/-- A container is entered exactly if the depth before it is below the limit. -/
theorem enter_eq_ok_iff {p : Position} :
    s.enter limits p = .ok s' ↔
      s.tally.depth < limits.maxDepth ∧ s' = { s with tally := s.tally.enter } := by
  unfold enter
  split
  · next h => simp [Nat.not_lt_of_le h]
  · next h => simp [Nat.lt_of_not_le h, eq_comm]

/-- A sequence of two steps succeeds exactly if both do, the second on what the first gives. -/
theorem bind_eq_ok_iff {α β ε : Type} {x : Except ε α} {f : α → Except ε β} {b : β} :
    x >>= f = .ok b ↔ ∃ a, x = .ok a ∧ f a = .ok b := by
  cases x with
  | error e => exact ⟨nofun, fun ⟨_, h, _⟩ => nomatch h⟩
  | ok a => exact ⟨fun h => ⟨a, rfl, h⟩, fun ⟨_, h, hb⟩ => by cases h; exact hb⟩

theorem map_eq_ok_iff {α β ε : Type} {x : Except ε α} {f : α → β} {b : β} :
    f <$> x = .ok b ↔ ∃ a, x = .ok a ∧ f a = b := by
  cases x with
  | error e => exact ⟨nofun, fun ⟨_, h, _⟩ => nomatch h⟩
  | ok a => simp [Functor.map, Except.map]

/-- A container is opened exactly if there is room for one more level and one more node. -/
theorem openContainer_eq_ok_iff {p : Position} {inside : Awaiting} :
    s.openContainer limits p inside = .ok s' ↔
      s.tally.depth < limits.maxDepth ∧ (s.tally.enter.charge 1).nodes ≤ limits.maxNodes ∧
        s' = s.opened inside := by
  unfold openContainer
  simp only [bind_eq_ok_iff, enter_eq_ok_iff, charge_eq_ok_iff]
  constructor
  · rintro ⟨_, ⟨hdepth, rfl⟩, _, ⟨hnodes, rfl⟩, h⟩
    cases h
    exact ⟨hdepth, hnodes, rfl⟩
  · rintro ⟨hdepth, hnodes, rfl⟩
    exact ⟨_, ⟨hdepth, rfl⟩, _, ⟨hnodes, rfl⟩, rfl⟩

/-- A token that is required is accepted exactly if it is of the kind, and changes nothing. -/
theorem require_eq_ok_iff {kind : Token.Kind} :
    s.require kind t = .ok s' ↔ t.kind = kind ∧ s = s' := by
  unfold require
  split <;> simp_all

/-- The same with the step that is taken once the token is accepted. -/
theorem map_require_eq_ok_iff {kind : Token.Kind} {f : State → State} :
    f <$> s.require kind t = .ok s' ↔ t.kind = kind ∧ f s = s' := by
  rw [map_eq_ok_iff]
  constructor
  · rintro ⟨_, hreq, rfl⟩
    obtain ⟨hkind, rfl⟩ := require_eq_ok_iff.mp hreq
    exact ⟨hkind, rfl⟩
  · rintro ⟨hkind, rfl⟩
    exact ⟨s, require_eq_ok_iff.mpr ⟨hkind, rfl⟩, rfl⟩

/-- The machine makes the same number of digits as their meaning has. -/
theorem decode_eq_ok_iff {digits : String} {n : Int} :
    decode digits = .ok n ↔ Term.numberOf? digits = some n := by
  unfold decode Term.numberOf?
  split
  · simp
  · split <;> simp

/-! ## The list -/

/-- The machine stands where a value may start, and the value goes into `ctx`. -/
def ForValue (s : State) (ctx : Context) : Prop :=
  s.awaiting = .value ctx ∨
    ∃ items outer, s.awaiting = .item items outer ∧ ctx = outer.within (.sequence items)

/-- The ways in which a token brings the machine from a state `s` to another, both with the token
noted. -/
inductive Advance (limits : Limits) (s : State) (t : Token) : State → Prop
  | global : s.awaiting = .declaration → t.kind = .global → Advance limits s t (s.await .globalName)
  | entryKey : s.awaiting = .declaration → t.kind = .identifier →
      Advance limits s t (s.await (.entryEquals t.text))
  | block : s.awaiting = .declaration → t.kind = .leftBrace → s.tally.depth < limits.maxDepth →
      (s.tally.enter.charge 1).nodes ≤ limits.maxNodes →
      Advance limits s t (s.opened (.key [] ⟨.block, []⟩))
  | globalName : s.awaiting = .globalName → t.kind = .identifier →
      Advance limits s t (s.await (.globalEquals t.text))
  | globalEquals {name : String} : s.awaiting = .globalEquals name → t.kind = .equals →
      Advance limits s t { s with
        awaiting := .value ⟨.global name s.tally.nodes, []⟩
        tally := s.tally.beginConstant }
  | entryEquals {key : String} : s.awaiting = .entryEquals key → t.kind = .equals →
      Advance limits s t (s.await (.value ⟨.entry key, []⟩))
  | number {ctx : Context} {n : Int} : s.ForValue ctx → t.kind = .number →
      (s.tally.charge 1).nodes ≤ limits.maxNodes → decode t.text = .ok n →
      Advance limits s t ((s.charged 1).deliver (.number n) ctx)
  | text {ctx : Context} : s.ForValue ctx → t.kind = .text →
      (s.tally.charge 1).nodes ≤ limits.maxNodes →
      Advance limits s t ((s.charged 1).deliver (.ofString t.text) ctx)
  | hash {ctx : Context} : s.ForValue ctx → t.kind = .hash →
      Advance limits s t (s.await (.arrayParen t.position ctx))
  | question {ctx : Context} : s.ForValue ctx → t.kind = .question →
      Advance limits s t (s.await (.referenceBracket t.position ctx))
  | object {ctx : Context} : s.ForValue ctx → t.kind = .leftBrace →
      s.tally.depth < limits.maxDepth → (s.tally.enter.charge 1).nodes ≤ limits.maxNodes →
      Advance limits s t (s.opened (.key [] ctx))
  | arrayParen {hash : Position} {ctx : Context} : s.awaiting = .arrayParen hash ctx →
      t.kind = .leftParen → s.tally.depth < limits.maxDepth →
      (s.tally.enter.charge 1).nodes ≤ limits.maxNodes →
      Advance limits s t (s.opened (.item [] ctx))
  | arrayEnd {items : List Value} {ctx : Context} : s.awaiting = .item items ctx →
      t.kind = .rightParen → Advance limits s t (s.leave.deliver (.sequence items.reverse) ctx)
  | key {entries : Entries Value} {ctx : Context} : s.awaiting = .key entries ctx →
      t.kind = .identifier → Advance limits s t (s.await (.equals entries t.text ctx))
  | objectEnd {entries : Entries Value} {ctx : Context} : s.awaiting = .key entries ctx →
      t.kind = .rightBrace → Advance limits s t (s.leave.deliver (.mapping entries) ctx)
  | equals {entries : Entries Value} {key : String} {ctx : Context} :
      s.awaiting = .equals entries key ctx → t.kind = .equals →
      Advance limits s t (s.await (.value (ctx.within (.mapping entries key))))
  | referenceBracket {question : Position} {ctx : Context} :
      s.awaiting = .referenceBracket question ctx → t.kind = .leftBracket →
      Advance limits s t (s.await (.referenceName question ctx))
  | referenceName {question : Position} {ctx : Context} :
      s.awaiting = .referenceName question ctx → t.kind = .identifier →
      Advance limits s t (s.await (.referenceEnd question t ctx))
  | referenceEnd {question : Position} {name : Token} {ctx : Context} {c : Constant} :
      s.awaiting = .referenceEnd question name ctx → t.kind = .rightBracket →
      s.constants.find? name.text = some c → s.tally.reach c.depth ≤ limits.maxDepth →
      ((s.tally.splice c.depth).charge c.size).nodes ≤ limits.maxNodes →
      Advance limits s t ((s.spliced c).deliver c.value ctx)

/-- A token that begins a value takes the machine on in one of the ways listed: a word, the mark of an array or
of a reference, or a brace. -/
theorem advance_of_beginValue (hctx : s.ForValue ctx) (h : s.beginValue limits t ctx = .ok s') :
    Advance limits s t s' := by
  unfold beginValue at h
  split at h
  · next hkind =>
    obtain ⟨_, hcharge, h⟩ := bind_eq_ok_iff.mp h
    obtain ⟨hnodes, rfl⟩ := charge_eq_ok_iff.mp hcharge
    split at h
    · next n hdecode =>
      cases h
      exact .number hctx hkind hnodes hdecode
    · exact nomatch h
  · next hkind =>
    obtain ⟨_, hcharge, h⟩ := bind_eq_ok_iff.mp h
    obtain ⟨hnodes, rfl⟩ := charge_eq_ok_iff.mp hcharge
    cases h
    exact .text hctx hkind hnodes
  · next hkind =>
    cases h
    exact .hash hctx hkind
  · next hkind =>
    cases h
    exact .question hctx hkind
  · next hkind =>
    obtain ⟨hdepth, hnodes, rfl⟩ := openContainer_eq_ok_iff.mp h
    exact .object hctx hkind hdepth hnodes
  · exact nomatch h

/-- The bracket behind a name takes it on only to a constant that is known and for which there is room. -/
theorem advance_of_refer {question : Position} {name : Token}
    (hawait : s.awaiting = .referenceEnd question name ctx) (hkind : t.kind = .rightBracket)
    (h : s.refer limits question name ctx = .ok s') : Advance limits s t s' := by
  unfold refer at h
  split at h
  · exact nomatch h
  · next c hc =>
    split at h
    · exact nomatch h
    · next hdepth =>
      obtain ⟨_, hcharge, h⟩ := bind_eq_ok_iff.mp h
      obtain ⟨hnodes, rfl⟩ := charge_eq_ok_iff.mp hcharge
      cases h
      exact .referenceEnd hawait hkind hc (Nat.le_of_not_lt hdepth) hnodes

/-- A token that begins a declaration takes it on to a constant, to an entry or into a block. -/
theorem advance_of_beginDeclaration (hawait : s.awaiting = .declaration)
    (h : s.beginDeclaration limits t = .ok s') : Advance limits s t s' := by
  unfold beginDeclaration at h
  split at h
  · next hkind =>
    cases h
    exact .global hawait hkind
  · next hkind =>
    cases h
    exact .entryKey hawait hkind
  · next hkind =>
    obtain ⟨hdepth, hnodes, rfl⟩ := openContainer_eq_ok_iff.mp h
    exact .block hawait hkind hdepth hnodes
  · exact nomatch h

/-- A token inside an array takes it on by closing the array or by beginning an item. -/
theorem advance_of_insideArray {items : List Value} (hawait : s.awaiting = .item items ctx)
    (h : s.insideArray limits t items ctx = .ok s') : Advance limits s t s' := by
  unfold insideArray at h
  by_cases hkind : t.kind = .rightParen
  · rw [if_pos hkind] at h
    cases h
    exact .arrayEnd hawait hkind
  · rw [if_neg hkind] at h
    exact advance_of_beginValue (.inr ⟨items, ctx, hawait, rfl⟩) h

/-- A token inside an object takes it on by closing the object or as the key of an entry. -/
theorem advance_of_insideObject {entries : Entries Value} (hawait : s.awaiting = .key entries ctx)
    (h : s.insideObject t entries ctx = .ok s') : Advance limits s t s' := by
  unfold insideObject at h
  split at h
  · next hkind =>
    cases h
    exact .key hawait hkind
  · next hkind =>
    cases h
    exact .objectEnd hawait hkind
  · exact nomatch h

/-- A token that the machine takes does one of the things listed. -/
theorem advance_of_step (h : s.step limits t = .ok s') :
    Advance limits (s.note (.consumed t)) t s' := by
  unfold step at h
  generalize s.note (.consumed t) = s₁ at h ⊢
  simp only at h
  split at h
  · next hawait => exact advance_of_beginDeclaration hawait h
  · next hawait =>
    obtain ⟨hkind, rfl⟩ := map_require_eq_ok_iff.mp h
    exact .globalName hawait hkind
  · next hawait =>
    obtain ⟨hkind, rfl⟩ := map_require_eq_ok_iff.mp h
    exact .globalEquals hawait hkind
  · next hawait =>
    obtain ⟨hkind, rfl⟩ := map_require_eq_ok_iff.mp h
    exact .entryEquals hawait hkind
  · next hawait => exact advance_of_beginValue (.inl hawait) h
  · next hawait =>
    obtain ⟨_, hreq, h⟩ := bind_eq_ok_iff.mp h
    obtain ⟨hkind, rfl⟩ := require_eq_ok_iff.mp hreq
    obtain ⟨hdepth, hnodes, rfl⟩ := openContainer_eq_ok_iff.mp h
    exact .arrayParen hawait hkind hdepth hnodes
  · next hawait => exact advance_of_insideArray hawait h
  · next hawait => exact advance_of_insideObject hawait h
  · next hawait =>
    obtain ⟨hkind, rfl⟩ := map_require_eq_ok_iff.mp h
    exact .equals hawait hkind
  · next hawait =>
    obtain ⟨hkind, rfl⟩ := map_require_eq_ok_iff.mp h
    exact .referenceBracket hawait hkind
  · next hawait =>
    obtain ⟨hkind, rfl⟩ := map_require_eq_ok_iff.mp h
    exact .referenceName hawait hkind
  · next hawait =>
    obtain ⟨_, hreq, h⟩ := bind_eq_ok_iff.mp h
    obtain ⟨hkind, rfl⟩ := require_eq_ok_iff.mp hreq
    exact advance_of_refer hawait hkind h

/-! ## Faults -/

/-- The ways in which a token that fits stops the machine in a state `s`: the diagnostic, and the state
left behind. -/
inductive Failure (limits : Limits) (s : State) : Diagnostic → State → Prop
  | tooDeep {p : Position} : limits.maxDepth ≤ s.tally.depth →
      Failure limits s ⟨.nestingTooDeep limits.maxDepth, p⟩ s
  | tooDeepSpliced {c : Constant} {p : Position} : limits.maxDepth < s.tally.reach c.depth →
      Failure limits s ⟨.nestingTooDeep limits.maxDepth, p⟩ s
  | tooMany {tally : Tally} {n : Nat} {p : Position} : tally.nodes = s.tally.nodes →
      limits.maxNodes < (tally.charge n).nodes →
      Failure limits s ⟨.tooManyNodes limits.maxNodes, p⟩ { s with tally := tally.charge n }
  | number {digits : String} {fault : Fault} {p : Position} : decode digits = .error fault →
      Failure limits s ⟨fault, p⟩ (s.charged 1)
  | unknown {name : String} {p : Position} : s.constants.find? name = none →
      Failure limits s ⟨.unknownConstant name, p⟩ s

variable {d : Diagnostic}

/-- A sequence of two steps fails exactly if the first does, or the second on what the first gives. -/
theorem bind_eq_error_iff {α β ε : Type} {x : Except ε α} {f : α → Except ε β} {e : ε} :
    x >>= f = .error e ↔ x = .error e ∨ ∃ a, x = .ok a ∧ f a = .error e := by
  cases x with
  | error e' =>
    constructor
    · intro h
      cases h
      exact .inl rfl
    · rintro (h | ⟨_, h, -⟩)
      · cases h
        rfl
      · exact nomatch h
  | ok a =>
    constructor
    · intro h
      exact .inr ⟨a, rfl, h⟩
    · rintro (h | ⟨_, h, hf⟩)
      · exact nomatch h
      · cases h
        exact hf

/-- Nothing goes on failing where a token is only asked for its kind. -/
theorem require_ne_failed {kind : Token.Kind} : s.require kind t ≠ .error (.failed d s') := by
  unfold require
  split
  · nofun
  · nofun

/-- A token of the wrong kind is refused, which is no failure that keeps a state. -/
theorem map_require_ne_failed {kind : Token.Kind} {f : State → State} :
    f <$> s.require kind t ≠ .error (.failed d s') := by
  unfold require
  split
  · nofun
  · nofun

/-- What a failed count leaves behind in a state that differs from `s` in its tally at most. -/
theorem failure_of_charge (tally : Tally) {n : Nat} {p : Position}
    (htally : tally.nodes = s.tally.nodes)
    (h : charge limits n p { s with tally := tally } = .error (.failed d s')) :
    Failure limits s d s' := by
  unfold charge at h
  split at h
  · next hnodes =>
    cases h
    exact .tooMany htally hnodes
  · exact nomatch h

/-- A container that cannot be opened fails for want of a level or of a node. -/
theorem failure_of_openContainer {p : Position} {inside : Awaiting}
    (h : s.openContainer limits p inside = .error (.failed d s')) : Failure limits s d s' := by
  rcases bind_eq_error_iff.mp h with h | ⟨_, henter, h⟩
  · unfold enter at h
    split at h
    · next hdepth =>
      cases h
      exact .tooDeep hdepth
    · exact nomatch h
  · obtain ⟨-, rfl⟩ := enter_eq_ok_iff.mp henter
    rcases bind_eq_error_iff.mp h with h | ⟨_, -, h⟩
    · exact failure_of_charge s.tally.enter rfl h
    · exact nomatch h

/-- A value that cannot begin fails at a numeral out of range, at the nodes, or at the levels. -/
theorem failure_of_beginValue (h : s.beginValue limits t ctx = .error (.failed d s')) :
    Failure limits s d s' := by
  unfold beginValue at h
  split at h
  · rcases bind_eq_error_iff.mp h with h | ⟨_, hcharge, h⟩
    · exact failure_of_charge s.tally rfl h
    · obtain ⟨-, rfl⟩ := charge_eq_ok_iff.mp hcharge
      split at h
      · exact nomatch h
      · next hdecode =>
        cases h
        exact .number hdecode
  · rcases bind_eq_error_iff.mp h with h | ⟨_, -, h⟩
    · exact failure_of_charge s.tally rfl h
    · exact nomatch h
  · exact nomatch h
  · exact nomatch h
  · exact failure_of_openContainer h
  · exact nomatch h

/-- A reference fails at a name that is unknown, at the nodes of its value, or at its levels. -/
theorem failure_of_refer {question : Position} {name : Token}
    (h : s.refer limits question name ctx = .error (.failed d s')) : Failure limits s d s' := by
  unfold refer at h
  split at h
  · next hc =>
    cases h
    exact .unknown hc
  · next c hc =>
    split at h
    · next hdepth =>
      cases h
      exact .tooDeepSpliced hdepth
    · rcases bind_eq_error_iff.mp h with h | ⟨_, -, h⟩
      · exact failure_of_charge (s.tally.splice c.depth) rfl h
      · exact nomatch h

/-- A token that fits and stops the machine does so in one of the ways listed. -/
theorem failure_of_step (h : s.step limits t = .error (.failed d s')) :
    Failure limits (s.note (.consumed t)) d s' := by
  unfold step at h
  generalize s.note (.consumed t) = s₁ at h ⊢
  simp only at h
  split at h
  · unfold beginDeclaration at h
    split at h
    · exact nomatch h
    · exact nomatch h
    · exact failure_of_openContainer h
    · exact nomatch h
  · exact absurd h map_require_ne_failed
  · exact absurd h map_require_ne_failed
  · exact absurd h map_require_ne_failed
  · exact failure_of_beginValue h
  · rcases bind_eq_error_iff.mp h with h | ⟨_, hreq, h⟩
    · exact absurd h require_ne_failed
    · obtain ⟨-, rfl⟩ := require_eq_ok_iff.mp hreq
      exact failure_of_openContainer h
  · unfold insideArray at h
    split at h
    · exact nomatch h
    · exact failure_of_beginValue h
  · unfold insideObject at h
    split at h
    · exact nomatch h
    · exact nomatch h
    · exact nomatch h
  · exact absurd h map_require_ne_failed
  · exact absurd h map_require_ne_failed
  · exact absurd h map_require_ne_failed
  · rcases bind_eq_error_iff.mp h with h | ⟨_, hreq, h⟩
    · exact absurd h require_ne_failed
    · obtain ⟨-, rfl⟩ := require_eq_ok_iff.mp hreq
      exact failure_of_refer h

end State

end HexConfig.Reader
