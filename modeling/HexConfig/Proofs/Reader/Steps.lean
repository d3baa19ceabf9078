import HexConfig.Proofs.Reader.Outcome

/-!
# The tokens that make a value

When the tokens are taken that start a value, or that end it, and what they make of the state. A number or
a string is one token; an array is opened by two, an object by one; a reference is four. What is said here
of each is said both ways, so it serves to show that a row is taken and to find out what was checked when
it was.
-/

namespace HexConfig.Reader.State

variable {limits : Limits} {s s₁ s₂ : State} {t t₁ t₂ t₃ t₄ : Token} {ts ts' : List Token} {ctx : Context}

/-! ## Rows -/

/-- A row is taken exactly if its first token is and then the rest. -/
theorem feed_cons_eq_ok_iff :
    s.feed limits (t :: ts) = .ok s₂ ↔ ∃ s₁, s.step limits t = .ok s₁ ∧ s₁.feed limits ts = .ok s₂ := by
  constructor
  · intro h
    unfold feed at h
    split at h
    · next s₁ hstep => exact ⟨s₁, hstep, h⟩
    · exact nomatch h
    · exact nomatch h
  · rintro ⟨s₁, hstep, h⟩
    rwa [feed_cons_of_ok hstep]

theorem feed_singleton_eq_ok_iff : s.feed limits [t] = .ok s₁ ↔ s.step limits t = .ok s₁ := by
  rw [feed_cons_eq_ok_iff]
  constructor
  · rintro ⟨_, hstep, h⟩
    cases h
    exact hstep
  · intro hstep
    exact ⟨s₁, hstep, rfl⟩

/-- Two rows are taken exactly if the first is and then the second. -/
theorem feed_append_eq_ok_iff :
    s.feed limits (ts ++ ts') = .ok s₂ ↔
      ∃ s₁, s.feed limits ts = .ok s₁ ∧ s₁.feed limits ts' = .ok s₂ := by
  induction ts generalizing s with
  | nil =>
    constructor
    · intro h
      exact ⟨s, rfl, h⟩
    · rintro ⟨_, hnil, h⟩
      cases hnil
      exact h
  | cons t ts ih =>
    simp only [List.cons_append, feed_cons_eq_ok_iff, ih]
    constructor
    · rintro ⟨s', hstep, s₁, hfeed, h⟩
      exact ⟨s₁, ⟨s', hstep, hfeed⟩, h⟩
    · rintro ⟨s₁, ⟨s', hstep, hfeed⟩, h⟩
      exact ⟨s', hstep, s₁, hfeed, h⟩

/-! ## Numbers and strings -/

/-- A number is taken exactly if its digits mean one and there is room for a node. -/
theorem step_number_eq_ok_iff (hctx : s.ForValue ctx) (hkind : t.kind = .number) :
    s.step limits t = .ok s₁ ↔ ∃ n, Term.numberOf? t.text = some n ∧
      sumUpTo s.tally.nodes 1 ≤ limits.maxNodes ∧
        s₁ = (s.after [t] (s.tally.charge 1)).deliver (.number n) ctx := by
  rw [step_of_forValue hctx (by rw [hkind]; nofun), beginValue, hkind]
  simp only [number, bind_eq_ok_iff, charge_eq_ok_iff, ← decode_eq_ok_iff]
  constructor
  · rintro ⟨_, ⟨hnodes, rfl⟩, h⟩
    split at h
    · next n hdecode =>
      cases h
      exact ⟨n, hdecode, hnodes, rfl⟩
    · exact nomatch h
  · rintro ⟨n, hdecode, hnodes, rfl⟩
    refine ⟨_, ⟨hnodes, rfl⟩, ?_⟩
    rw [hdecode]
    rfl

/-- A string is taken exactly if there is room for a node. -/
theorem step_text_eq_ok_iff (hctx : s.ForValue ctx) (hkind : t.kind = .text) :
    s.step limits t = .ok s₁ ↔ sumUpTo s.tally.nodes 1 ≤ limits.maxNodes ∧
      s₁ = (s.after [t] (s.tally.charge 1)).deliver (.ofString t.text) ctx := by
  rw [step_of_forValue hctx (by rw [hkind]; nofun), beginValue, hkind]
  simp only [string, bind_eq_ok_iff, charge_eq_ok_iff]
  constructor
  · rintro ⟨_, ⟨hnodes, rfl⟩, h⟩
    cases h
    exact ⟨hnodes, rfl⟩
  · rintro ⟨hnodes, rfl⟩
    exact ⟨_, ⟨hnodes, rfl⟩, rfl⟩

/-! ## Containers -/

/-- A container opened by the tokens `ts` leaves the machine so. -/
def within (s : State) (ts : List Token) (inside : Awaiting) : State :=
  (s.after ts (s.tally.enter.charge 1)).await inside

/-- A value may start, and it goes into `ctx`; at the top level, only one that is a block by itself. -/
def Starts (s : State) (ctx : Context) : Prop :=
  s.ForValue ctx ∨ s.awaiting = .declaration ∧ ctx = ⟨.block, []⟩

/-- A brace opens an object, in place of a value or as a declaration. -/
theorem step_leftBrace (hctx : s.Starts ctx) (hkind : t.kind = .leftBrace) :
    s.step limits t = (s.note (.consumed t)).openContainer limits t.position (.key [] ctx) := by
  rcases hctx with hctx | ⟨hawait, rfl⟩
  · rw [step_of_forValue hctx (by rw [hkind]; nofun), beginValue, hkind]
  · simp only [step, note, hawait, beginDeclaration, hkind]

/-- The brace of an object is taken exactly if there is room for a level and a node. -/
theorem step_leftBrace_eq_ok_iff (hctx : s.Starts ctx) (hkind : t.kind = .leftBrace) :
    s.step limits t = .ok s₁ ↔ s.tally.depth < limits.maxDepth ∧
      sumUpTo s.tally.nodes 1 ≤ limits.maxNodes ∧ s₁ = s.within [t] (.key [] ctx) := by
  rw [step_leftBrace hctx hkind, openContainer_eq_ok_iff]
  rfl

/-- The mark of an array, and the parenthesis that opens it. -/
theorem feed_arrayOpen_eq_ok_iff (hctx : s.ForValue ctx) (hhash : t₁.kind = .hash)
    (hparen : t₂.kind = .leftParen) :
    s.feed limits [t₁, t₂] = .ok s₁ ↔ s.tally.depth < limits.maxDepth ∧
      sumUpTo s.tally.nodes 1 ≤ limits.maxNodes ∧ s₁ = s.within [t₁, t₂] (.item [] ctx) := by
  have hopen : ((s.after [t₁] s.tally).await (.arrayParen t₁.position ctx)).step limits t₂ =
      (((s.after [t₁] s.tally).await (.arrayParen t₁.position ctx)).note
        (.consumed t₂)).openContainer limits t₁.position (.item [] ctx) := by
    simp only [step, await, note, require, if_pos hparen]
    rfl
  rw [show [t₁, t₂] = [t₁] ++ [t₂] from rfl, feed_append_of_ok (feed_arrayHead hctx hhash),
    feed_singleton_eq_ok_iff, hopen, openContainer_eq_ok_iff]
  rfl

/-- The token that closes an array. -/
theorem step_of_rightParen {items : List Value} (hawait : s.awaiting = .item items ctx)
    (hkind : t.kind = .rightParen) :
    s.step limits t =
      .ok ((s.note (.consumed t)).leave.deliver (.sequence items.reverse) ctx) := by
  simp only [step, note, hawait, insideArray, if_pos hkind]
  rfl

/-- A container that is closed, as seen from before it was opened. -/
theorem deliver_leave_within (s : State) (head ts : List Token) (last : Token)
    (inside closing : Awaiting) (tally : Tally) (v : Value) (ctx : Context) :
    (((((s.within head inside).after ts tally).await closing).note (.consumed last)).leave.deliver v ctx) =
      (s.after (head ++ (ts ++ [last])) tally.leave).deliver v ctx := by
  rw [← deliver_await (s.after (head ++ (ts ++ [last])) tally.leave) closing]
  congr 1
  simp [within, after, await, note, leave]

/-! ## References -/

/-- A constant is spliced in exactly if it is known and there is room for its levels and its nodes. -/
theorem refer_eq_ok_iff {question : Position} {name : Token} :
    s.refer limits question name ctx = .ok s₁ ↔ ∃ c, s.constants.find? name.text = some c ∧
      s.tally.reach c.depth ≤ limits.maxDepth ∧ sumUpTo s.tally.nodes c.size ≤ limits.maxNodes ∧
        s₁ = (s.spliced c).deliver c.value ctx := by
  constructor
  · intro h
    cases hc : s.constants.find? name.text with
    | none =>
      unfold refer at h
      rw [hc] at h
      exact nomatch h
    | some c =>
      rcases refer_cases limits question hc ctx with
        ⟨hdepth, hnodes, hrefer⟩ | ⟨-, hrefer⟩ | ⟨-, _, hrefer⟩
      · cases hrefer.symm.trans h
        exact ⟨c, rfl, hdepth, hnodes, rfl⟩
      · exact nomatch hrefer.symm.trans h
      · exact nomatch hrefer.symm.trans h
  · rintro ⟨c, hc, hdepth, hnodes, rfl⟩
    rcases refer_cases limits question hc ctx with ⟨-, -, hrefer⟩ | ⟨hdeep, -⟩ | ⟨hmany, -⟩
    · exact hrefer
    · exact absurd hdepth (Nat.not_le_of_lt hdeep)
    · exact absurd hnodes (Nat.not_le_of_lt hmany)

/-- A reference: the constant is known, it is not too deep here and does not count too much. -/
theorem feed_reference_eq_ok_iff (hctx : s.ForValue ctx) (hquestion : t₁.kind = .question)
    (hbracket : t₂.kind = .leftBracket) (hname : t₃.kind = .identifier)
    (hend : t₄.kind = .rightBracket) :
    s.feed limits [t₁, t₂, t₃, t₄] = .ok s₁ ↔ ∃ c, s.constants.find? t₃.text = some c ∧
      s.tally.reach c.depth ≤ limits.maxDepth ∧ sumUpTo s.tally.nodes c.size ≤ limits.maxNodes ∧
        s₁ = (s.after [t₁, t₂, t₃, t₄] ((s.tally.splice c.depth).charge c.size)).deliver c.value ctx := by
  let s' := (s.after [t₁, t₂, t₃] s.tally).await (.referenceEnd t₁.position t₃ ctx)
  have hrefer : s'.step limits t₄ = (s'.note (.consumed t₄)).refer limits t₁.position t₃ ctx := by
    simp only [s', step, await, note, require, if_pos hend]
    rfl
  have hdeliver (c : Constant) : ((s'.note (.consumed t₄)).spliced c).deliver c.value ctx =
      (s.after [t₁, t₂, t₃, t₄] ((s.tally.splice c.depth).charge c.size)).deliver c.value ctx := by
    rw [← deliver_await (s.after [t₁, t₂, t₃, t₄] _) (.referenceEnd t₁.position t₃ ctx)]
    rfl
  rw [show [t₁, t₂, t₃, t₄] = [t₁, t₂, t₃] ++ [t₄] from rfl,
    feed_append_of_ok (feed_referenceHead hctx hquestion hbracket hname), feed_singleton_eq_ok_iff,
    hrefer, refer_eq_ok_iff]
  simp only [hdeliver]
  rfl

end HexConfig.Reader.State
