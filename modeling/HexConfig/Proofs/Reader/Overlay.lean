import HexConfig.Proofs.Conversion
import HexConfig.Proofs.Document
import HexConfig.Proofs.Reader.Change

/-!
# A reading on top of another

A reader that goes on from where a text was read to its end has constants, a count and a document already.
Under the greatest limits that makes no difference to what it does with the tokens of a second text, except
that more names are known: it goes along with a reader that starts afresh (`State.Atop`), and its document is
at all times the other's laid over the one it began with (`State.Atop.step`, `State.Atop.conclude`).

Only a name that the fresh reader does not know takes the two apart: there the fresh one stops, while the
other may know the name from before. What was counted before the two began does not matter, since the
greatest limits stop no count, and the number a constant was begun at is all that the count leaves in what
is awaited (`Awaiting.recount`).
-/

namespace HexConfig

/-- The fault is that of a name that stands for nothing. -/
def Fault.IsUnknown : Fault → Prop
  | .unknownConstant _ => True
  | _ => False

namespace Reader

/-! ## What is awaited, but for the count -/

/-- The declaration, begun at another count. -/
def Destination.recount (n : Nat) : Destination → Destination
  | .global name _ => .global name n
  | destination => destination

/-- The context, in a declaration begun at another count. -/
def Context.recount (n : Nat) (ctx : Context) : Context :=
  { ctx with destination := ctx.destination.recount n }

/-- What is awaited, in a declaration begun at another count. -/
def Awaiting.recount (n : Nat) : Awaiting → Awaiting
  | .value ctx => .value (ctx.recount n)
  | .arrayParen hash ctx => .arrayParen hash (ctx.recount n)
  | .item items ctx => .item items (ctx.recount n)
  | .key entries ctx => .key entries (ctx.recount n)
  | .equals entries name ctx => .equals entries name (ctx.recount n)
  | .referenceBracket question ctx => .referenceBracket question (ctx.recount n)
  | .referenceName question ctx => .referenceName question (ctx.recount n)
  | .referenceEnd question name ctx => .referenceEnd question name (ctx.recount n)
  | awaiting => awaiting

/-- What is missing at the end does not depend on the count. -/
theorem Awaiting.missing?_recount (a : Awaiting) (n : Nat) : (a.recount n).missing? = a.missing? := by
  cases a <;> rfl

namespace State

/-- The second goes along with the first, on top of a document it began with. -/
structure Atop (base : Document) (s s' : State) : Prop where
  awaiting : ∃ n, s'.awaiting = s.awaiting.recount n
  document : s'.document = base.overlay s.document
  constants : ∀ name c, s.constants.find? name = some c →
    ∃ c', s'.constants.find? name = some c' ∧ c'.value = c.value
  depth : s'.tally.depth = s.tally.depth

/-- What the second comes to, beside what the first comes to. A name that the first does not know leaves
it open. -/
inductive GoesAlong (base : Document) : Except Halt State → Except Halt State → Prop
  | ok {s s' : State} : Atop base s s' → GoesAlong base (.ok s) (.ok s')
  | refused (expected : Expected) :
      GoesAlong base (.error (.refused expected)) (.error (.refused expected))
  | failed (d : Diagnostic) (s s' : State) :
      GoesAlong base (.error (.failed d s)) (.error (.failed d s'))
  | unknown {d : Diagnostic} (s : State) (y : Except Halt State) : d.fault.IsUnknown →
      GoesAlong base (.error (.failed d s)) y

variable {base : Document} {s s' : State} {x y : Except Halt State} {limits : Limits}

/-- One thing after another. -/
theorem GoesAlong.bind (h : GoesAlong base x y) {f g : State → Except Halt State}
    (hf : ∀ s s', Atop base s s' → GoesAlong base (f s) (g s')) :
    GoesAlong base (x >>= f) (y >>= g) := by
  cases h with
  | ok hatop => exact hf _ _ hatop
  | refused expected => exact .refused expected
  | failed d s s' => exact .failed d s s'
  | unknown s y hunknown => exact .unknown s _ hunknown

theorem GoesAlong.map (h : GoesAlong base x y) {f g : State → State}
    (hf : ∀ s s', Atop base s s' → Atop base (f s) (g s')) :
    GoesAlong base (f <$> x) (g <$> y) := by
  cases h with
  | ok hatop => exact .ok (hf _ _ hatop)
  | refused expected => exact .refused expected
  | failed d s s' => exact .failed d s s'
  | unknown s y hunknown => exact .unknown s _ hunknown

/-! ## The parts of a step -/

/-- Something else is awaited. -/
theorem Atop.await (h : Atop base s s') (a : Awaiting) (n : Nat) :
    Atop base (s.await a) (s'.await (a.recount n)) where
  awaiting := ⟨n, rfl⟩
  document := h.document
  constants := h.constants
  depth := h.depth

/-- Something else is counted. -/
theorem Atop.counted (h : Atop base s s') {t t' : Tally} (hdepth : t'.depth = t.depth) :
    Atop base { s with tally := t } { s' with tally := t' } where
  awaiting := h.awaiting
  document := h.document
  constants := h.constants
  depth := hdepth

theorem Atop.note (h : Atop base s s') (e e' : Event) : Atop base (s.note e) (s'.note e') where
  awaiting := h.awaiting
  document := h.document
  constants := h.constants
  depth := h.depth

theorem Atop.leave (h : Atop base s s') : Atop base s.leave s'.leave := by
  apply h.counted
  show s'.tally.depth - 1 = s.tally.depth - 1
  rw [h.depth]

/-- A constant published in both has the same value in both. -/
theorem Atop.publish (h : Atop base s s') (name : String) (v : Value) (before before' : Nat) :
    Atop base (s.publish name before v) (s'.publish name before' v) where
  awaiting := ⟨0, rfl⟩
  document := h.document
  constants := by
    intro other c hc
    show ∃ c', (s'.constants.write name _).find? other = some c' ∧ _
    replace hc : (s.constants.write name _).find? other = some c := hc
    rw [Entries.find?_write] at hc ⊢
    by_cases hname : name = other
    · rw [if_pos hname] at hc ⊢
      cases hc
      exact ⟨_, rfl, rfl⟩
    · rw [if_neg hname] at hc ⊢
      exact h.constants other c hc
  depth := h.depth

/-- A value written to both documents is laid over what the second began with. -/
theorem Atop.assign (h : Atop base s s') (key : String) (v : Value) (lost : Event) :
    Atop base (s.assign key v lost) (s'.assign key v lost) where
  awaiting := ⟨0, rfl⟩
  document := by
    show s'.document.insert key v = base.overlay (s.document.insert key v)
    rw [Document.overlay_insert, h.document]
  constants := h.constants
  depth := h.depth

/-- A finished value goes to the same place in both. -/
theorem Atop.deliver (h : Atop base s s') (v : Value) (ctx : Context) (n : Nat) :
    Atop base (s.deliver v ctx) (s'.deliver v (ctx.recount n)) := by
  obtain ⟨destination, frames⟩ := ctx
  cases frames with
  | nil =>
    cases destination with
    | global name before => exact h.publish name v before n
    | entry key => exact h.assign key v _
    | block => exact h.assign _ v _
  | cons frame frames =>
    cases frame with
    | sequence items => exact h.await _ n
    | mapping entries key => exact h.await _ n

section

variable (h : Atop base s s') (t : Token) (p : Position) (ctx : Context) (n : Nat)

include h

/-- The two are at the same depth, so a level is entered in both or in neither. -/
theorem Atop.enter : GoesAlong base (s.enter limits p) (s'.enter limits p) := by
  unfold State.enter
  rw [h.depth]
  by_cases hdeep : limits.maxDepth ≤ s.tally.depth
  · rw [if_pos hdeep, if_pos hdeep]
    exact .failed _ _ _
  · rw [if_neg hdeep, if_neg hdeep]
    apply GoesAlong.ok
    apply h.counted
    show s'.tally.depth + 1 = s.tally.depth + 1
    rw [h.depth]

/-- Under the greatest limits nothing that is counted is too much. -/
theorem Atop.charge (k k' : Nat) :
    GoesAlong base (s.charge .unlimited k p) (s'.charge .unlimited k' p) := by
  have hroom (s : State) (k : Nat) : ¬ Limits.unlimited.maxNodes < (s.tally.charge k).nodes :=
    Nat.not_lt_of_le (sumUpTo_le_greatest _ _)
  unfold State.charge
  rw [if_neg (hroom s k), if_neg (hroom s' k')]
  exact .ok (h.counted h.depth)

/-- A container is opened in both or in neither. -/
theorem Atop.openContainer (inside : Awaiting) :
    GoesAlong base (s.openContainer .unlimited p inside)
      (s'.openContainer .unlimited p (inside.recount n)) := by
  unfold State.openContainer
  apply (h.enter p).bind
  intro s s' h
  apply (h.charge p 1 1).bind
  intro s s' h
  exact .ok (h.await inside n)

/-- A constant that the first knows stands for the same in the second. -/
theorem Atop.refer (name : Token) :
    GoesAlong base (s.refer .unlimited p name ctx) (s'.refer .unlimited p name (ctx.recount n)) := by
  unfold State.refer
  cases hfind : s.constants.find? name.text with
  | none => exact .unknown _ _ trivial
  | some c =>
    obtain ⟨c', hfind', hvalue⟩ := h.constants _ _ hfind
    have hshallow (t : Tally) (depth : Nat) : ¬ Limits.unlimited.maxDepth < t.reach depth :=
      Nat.not_lt_of_le (sumUpTo_le_greatest _ _)
    rw [hfind']
    simp only [if_neg (hshallow _ _)]
    have hspliced : Atop base { s with tally := s.tally.splice c.depth }
        { s' with tally := s'.tally.splice c'.depth } := h.counted h.depth
    apply (hspliced.charge p c.size c'.size).bind
    intro s s' h
    rw [hvalue]
    exact .ok (h.deliver c.value ctx n)

/-- What is refused does not depend on what is known or counted. -/
theorem Atop.require (kind : Token.Kind) :
    GoesAlong base (s.require kind t) (s'.require kind t) := by
  unfold State.require
  by_cases hkind : t.kind = kind
  · rw [if_pos hkind, if_pos hkind]
    exact .ok h
  · rw [if_neg hkind, if_neg hkind]
    exact .refused _

/-- A value starts in both or in neither. -/
theorem Atop.beginValue :
    GoesAlong base (s.beginValue .unlimited t ctx) (s'.beginValue .unlimited t (ctx.recount n)) := by
  unfold State.beginValue
  cases t.kind with
  | number =>
    apply (h.charge t.position 1 1).bind
    intro s s' h
    cases decode t.text with
    | ok i => exact .ok (h.deliver (.number i) ctx n)
    | error fault => exact .failed _ _ _
  | text =>
    apply (h.charge t.position 1 1).bind
    intro s s' h
    exact .ok (h.deliver (.ofString t.text) ctx n)
  | hash => exact .ok (h.await (.arrayParen t.position ctx) n)
  | question => exact .ok (h.await (.referenceBracket t.position ctx) n)
  | leftBrace => exact h.openContainer t.position n (.key [] ctx)
  | _ => exact .refused _

theorem Atop.beginDeclaration :
    GoesAlong base (s.beginDeclaration .unlimited t) (s'.beginDeclaration .unlimited t) := by
  unfold State.beginDeclaration
  cases t.kind with
  | global => exact .ok (h.await .globalName 0)
  | identifier => exact .ok (h.await (.entryEquals t.text) 0)
  | leftBrace => exact h.openContainer t.position 0 (.key [] ⟨.block, []⟩)
  | _ => exact .refused _

theorem Atop.insideArray (items : List Value) :
    GoesAlong base (s.insideArray .unlimited t items ctx)
      (s'.insideArray .unlimited t items (ctx.recount n)) := by
  unfold State.insideArray
  by_cases hkind : t.kind = .rightParen
  · rw [if_pos hkind, if_pos hkind]
    exact .ok (h.leave.deliver _ ctx n)
  · rw [if_neg hkind, if_neg hkind]
    exact h.beginValue t (ctx.within (.sequence items)) n

theorem Atop.insideObject (entries : Entries Value) :
    GoesAlong base (s.insideObject t entries ctx) (s'.insideObject t entries (ctx.recount n)) := by
  unfold State.insideObject
  cases t.kind with
  | identifier => exact .ok (h.await (.equals entries t.text ctx) n)
  | rightBrace => exact .ok (h.leave.deliver _ ctx n)
  | _ => exact .refused _

/-! ## Steps and rows -/

/-- A token takes the two on together. -/
theorem Atop.step : GoesAlong base (s.step .unlimited t) (s'.step .unlimited t) := by
  obtain ⟨n, hawait⟩ := h.awaiting
  replace h := h.note (.consumed t) (.consumed t)
  unfold State.step
  replace hawait : (s'.note (.consumed t)).awaiting = (s.note (.consumed t)).awaiting.recount n := hawait
  generalize s.note (.consumed t) = s, s'.note (.consumed t) = s' at h hawait
  simp only [hawait]
  cases s.awaiting with
  | declaration => exact h.beginDeclaration t
  | globalName =>
    apply (h.require t .identifier).map
    intro s s' h
    exact h.await (.globalEquals t.text) 0
  | globalEquals name =>
    apply (h.require t .equals).map
    intro s s' h
    exact (h.await (.value ⟨.global name s.tally.nodes, []⟩) s'.tally.nodes).counted h.depth
  | entryEquals key =>
    apply (h.require t .equals).map
    intro s s' h
    exact h.await (.value ⟨.entry key, []⟩) 0
  | value ctx => exact h.beginValue t ctx n
  | arrayParen hash ctx =>
    apply (h.require t .leftParen).bind
    intro s s' h
    exact h.openContainer hash n (.item [] ctx)
  | item items ctx => exact h.insideArray t ctx n items
  | key entries ctx => exact h.insideObject t ctx n entries
  | equals entries key ctx =>
    apply (h.require t .equals).map
    intro s s' h
    exact h.await (.value (ctx.within (.mapping entries key))) n
  | referenceBracket question ctx =>
    apply (h.require t .leftBracket).map
    intro s s' h
    exact h.await (.referenceName question ctx) n
  | referenceName question ctx =>
    apply (h.require t .identifier).map
    intro s s' h
    exact h.await (.referenceEnd question t ctx) n
  | referenceEnd question name ctx =>
    apply (h.require t .rightBracket).bind
    intro s s' h
    exact h.refer question ctx n name

end

/-- A row of tokens takes the two on together, and stops them by the same fault, unless it stops the first
at a name that it does not know. -/
theorem Atop.feed (h : Atop base s s') (ts : List Token) :
    match s.feed .unlimited ts with
    | .ok s₁ => ∃ s₁', s'.feed .unlimited ts = .ok s₁' ∧ Atop base s₁ s₁'
    | .error stop => stop.diagnostic.fault.IsUnknown ∨
        ∃ stop', s'.feed .unlimited ts = .error stop' ∧ stop'.diagnostic = stop.diagnostic := by
  induction ts generalizing s s' with
  | nil => exact ⟨s', rfl, h⟩
  | cons t ts ih =>
    have hstep := h.step t
    unfold State.feed
    generalize s.step .unlimited t = x, s'.step .unlimited t = y at hstep
    cases hstep with
    | ok hatop => exact ih hatop
    | refused expected => exact .inr ⟨_, rfl, rfl⟩
    | failed d s₁ s₁' => exact .inr ⟨_, rfl, rfl⟩
    | unknown s₁ y hunknown => exact .inl hunknown

/-- The end is refused in both or in neither, by the same diagnostic. -/
theorem Atop.finish? (h : Atop base s s') (p : Position) : s'.finish? p = s.finish? p := by
  obtain ⟨n, hawait⟩ := h.awaiting
  rw [State.finish?, State.finish?, hawait, Awaiting.missing?_recount]

/-- What the two come to at the end of a row: one document laid over the other, or the same fault. -/
theorem Atop.conclude (h : Atop base s s') (ts : Tokens) :
    match s.conclude .unlimited ts with
    | .ok doc => s'.conclude .unlimited ts = .ok (base.overlay doc)
    | .error d => d.fault.IsUnknown ∨ s'.conclude .unlimited ts = .error d := by
  have hfeed := h.feed ts.list
  unfold State.conclude
  cases hrun : s.feed .unlimited ts.list with
  | error stop =>
    rw [hrun] at hfeed
    apply hfeed.imp_right
    rintro ⟨stop', hrun', hsame⟩
    rw [hrun']
    exact congrArg Except.error hsame
  | ok s₁ =>
    rw [hrun] at hfeed
    obtain ⟨s₁', hrun', hatop⟩ := hfeed
    simp only [hrun', hatop.finish?]
    cases s₁.finish? ts.finish with
    | some d => exact .inr rfl
    | none => exact congrArg Except.ok hatop.document

end State

end Reader

end HexConfig
