import HexConfig.Proofs.Entries
import HexConfig.Proofs.Reader.Growth
import HexConfig.Proofs.Reader.Runs
import HexConfig.Proofs.Value.Measure
import HexConfig.Value.Measure

/-!
# What the limits bound

Whatever a reader was through before, the documents it gives keep to the limits in force. The tally
does not say how large anything really is: it may start with counts that an earlier reading left, it
stops at the greatest number, and a constant recorded near that number may be recorded too small, or of
no size at all. It is enough that it says too little only where that does no harm. `Covers` says so of
a constant: what is recorded of it is at least what its value is, or else the count of values
is carried to the greatest number by adding it.

`State.Bounded` is the invariant. It splits the count at `b`, where the declaration being read was begun:
up to there it answers for the document, and from there on for the containers that are open. Every token
keeps it (`State.bounded_of_step`), and when the reading stops, the constants are covered under the count
that is left (`State.Sound`), which is all that the next reading starts from, whatever its limits.
-/

namespace HexConfig.Reader

/-! ## What open containers hold -/

/-- How much an open container holds so far, and how deep that nests. -/
structure Holding where
  nodes : Nat
  nesting : Nat

/-- What a container around a value holds. -/
def Frame.holding : Frame → Holding
  | sequence items => ⟨Value.nodesOfItems items, Value.nestingOfItems items⟩
  | mapping entries _ => ⟨Value.nodesOfEntries entries, Value.nestingOfEntries entries⟩

/-- What the containers around a value hold, the innermost first. -/
def Context.holdings (ctx : Context) : List Holding := ctx.frames.map Frame.holding

/-- What is around the place the machine has come to, unless it is at the top level. -/
def Awaiting.around? : Awaiting → Option Context
  | .declaration => none
  | .globalName => none
  | .globalEquals _ => none
  | .entryEquals _ => none
  | .value ctx => some ctx
  | .arrayParen _ ctx => some ctx
  | .item items ctx => some (ctx.within (.sequence items))
  | .key entries ctx => some (ctx.within (.mapping entries ""))
  | .equals entries k ctx => some (ctx.within (.mapping entries k))
  | .referenceBracket _ ctx => some ctx
  | .referenceName _ ctx => some ctx
  | .referenceEnd _ _ ctx => some ctx

/-- What the open containers hold, the innermost first. -/
def Awaiting.holdings (a : Awaiting) : List Holding := a.around?.elim [] Context.holdings

/-- How many values open containers come to, themselves included. -/
def written : List Holding → Nat
  | [] => 0
  | h :: hs => h.nodes + 1 + written hs

/-- How deep open containers reach with what they hold. -/
def reach : List Holding → Nat
  | [] => 0
  | h :: hs => max (hs.length + 1 + h.nesting) (reach hs)

theorem length_le_reach (hs : List Holding) : hs.length ≤ reach hs := by
  cases hs with
  | nil => exact Nat.le_refl 0
  | cons h hs =>
    rw [List.length_cons, reach]
    omega

/-! ## The invariant -/

/-- What is recorded of a constant is at least what its value is, up to the greatest number; or, of its
size, enough to carry a count of `counted` there. -/
structure Covers (counted : Nat) (c : Constant) : Prop where
  depth : sumUpTo 0 c.value.nesting ≤ c.depth
  size : c.value.nodes ≤ c.size ∨ Limits.greatest ≤ counted + c.size

theorem Covers.mono {counted counted' : Nat} {c : Constant} (h : Covers counted c)
    (hle : counted ≤ counted') : Covers counted' c where
  depth := h.depth
  size := h.size.imp_right fun hsize => Nat.le_trans hsize (Nat.add_le_add_right hle _)

/-- The records of all constants are large enough. -/
def Covered (counted : Nat) (constants : Constants) : Prop := constants.All (Covers counted)

theorem Covered.mono {counted counted' : Nat} {constants : Constants} (h : Covered counted constants)
    (hle : counted ≤ counted') : Covered counted' constants :=
  Entries.All.mono h fun _ hc => hc.mono hle

/-- The tally answers for `level` open containers that come to `total` values after `b` and reach
`deepest`. -/
structure Counted (limits : Limits) (b : Nat) (t : Tally) (level total deepest : Nat) : Prop where
  total : b + total ≤ t.nodes ∨ Limits.greatest ≤ t.nodes
  level : level ≤ t.depth
  peak : sumUpTo 0 deepest ≤ t.peak
  limit : sumUpTo 0 deepest ≤ limits.maxDepth

/-- A value is put into the innermost open container. -/
theorem Counted.put {limits : Limits} {b : Nat} {t : Tally} {h h' : Holding} {hs : List Holding}
    {v : Value} (hcounted : Counted limits b t (h :: hs).length (written (h :: hs) + v.nodes)
      (max (reach (h :: hs)) ((h :: hs).length + v.nesting)))
    (hnodes : h'.nodes ≤ h.nodes + v.nodes) (hnesting : h'.nesting ≤ max h.nesting v.nesting) :
    Counted limits b t (h' :: hs).length (written (h' :: hs)) (reach (h' :: hs)) := by
  obtain ⟨htotal, hlevel, hpeak, hlimit⟩ := hcounted
  have hreach : reach (h' :: hs) ≤ max (reach (h :: hs)) ((h :: hs).length + v.nesting) := by
    simp only [reach, List.length_cons]
    omega
  have hsum := sumUpTo_le_sumUpTo (Nat.le_refl 0) hreach
  refine ⟨?_, hlevel, Nat.le_trans hsum hpeak, Nat.le_trans hsum hlimit⟩
  simp only [written] at htotal ⊢
  omega

/-- The constant being read, if it is one, was begun at `b`. -/
def Context.Begun (b : Nat) (ctx : Context) : Prop :=
  ∀ {name : String} {before : Nat}, ctx.destination = .global name before → before = b

/-- The declaration being read was begun at `b`. -/
def Awaiting.Begun (b nodes : Nat) (a : Awaiting) : Prop :=
  a.around?.elim (nodes = b) (Context.Begun b)

namespace State

/-- The part of the invariant that does not look at what is open. -/
structure Kept (limits : Limits) (b : Nat) (s : State) : Prop where
  base_le : b ≤ s.tally.nodes
  nodes_le : s.tally.nodes ≤ Limits.greatest
  constants : Covered b s.constants
  document : s.document.nodes ≤ b ∨ Limits.greatest ≤ b
  checked : s.document.nodes = 0 ∨ b ≤ limits.maxNodes
  nesting : sumUpTo 0 s.document.nesting ≤ limits.maxDepth

/-- The invariant: the count up to `b` answers for the document, and the rest for what is open. -/
structure Bounded (limits : Limits) (b : Nat) (s : State) : Prop extends Kept limits b s where
  counted : Counted limits b s.tally s.awaiting.holdings.length (written s.awaiting.holdings)
    (reach s.awaiting.holdings)
  opened : s.awaiting.holdings ≠ [] → s.tally.nodes ≤ limits.maxNodes
  begun : s.awaiting.Begun b s.tally.nodes

/-- The invariant for a value that is about to be delivered. -/
structure Finished (limits : Limits) (b : Nat) (s : State) (v : Value) (ctx : Context) : Prop extends
    Kept limits b s where
  counted : Counted limits b s.tally ctx.holdings.length (written ctx.holdings + v.nodes)
    (max (reach ctx.holdings) (ctx.holdings.length + v.nesting))
  opened : s.tally.nodes ≤ limits.maxNodes
  begun : ctx.Begun b

variable {limits : Limits} {b : Nat} {s s' : State} {t : Token} {v : Value} {ctx : Context}

theorem Kept.congr (h : s.Kept limits b) (hdocument : s'.document = s.document)
    (hconstants : s'.constants = s.constants) (hle : s.tally.nodes ≤ s'.tally.nodes)
    (hgreatest : s'.tally.nodes ≤ Limits.greatest) : s'.Kept limits b where
  base_le := Nat.le_trans h.base_le hle
  nodes_le := hgreatest
  constants := hconstants ▸ h.constants
  document := hdocument ▸ h.document
  checked := hdocument ▸ h.checked
  nesting := hdocument ▸ h.nesting

/-- Counting on keeps what was counted. -/
theorem Kept.charge (h : s.Kept limits b) (hdocument : s'.document = s.document)
    (hconstants : s'.constants = s.constants) {n : Nat}
    (hnodes : s'.tally.nodes = sumUpTo s.tally.nodes n) : s'.Kept limits b := by
  refine h.congr hdocument hconstants ?_ ?_
  · rw [hnodes]
    exact le_sumUpTo h.nodes_le
  · rw [hnodes]
    exact sumUpTo_le_greatest _ _

/-! ## Delivering a value -/

/-- A state between declarations, with nothing open. -/
theorem Kept.bounded (h : s.Kept limits b) (hawait : s.awaiting = .declaration)
    (hnodes : s.tally.nodes = b) : s.Bounded limits b where
  toKept := h
  counted := by
    rw [hawait]
    exact ⟨.inl h.base_le, Nat.zero_le _, Nat.zero_le _, Nat.zero_le _⟩
  opened := by
    rw [hawait]
    exact fun hne => absurd rfl hne
  begun := by
    rw [hawait]
    exact hnodes

/-- A constant is published. Its record is large enough, and counting goes on from where it was
begun. -/
theorem bounded_publish {name : String} {before : Nat}
    (h : s.Finished limits b v ⟨.global name before, []⟩) :
    (s.publish name before v).Bounded limits b := by
  obtain rfl : before = b := h.begun rfl
  have hbase := h.base_le
  have hpeak : sumUpTo 0 v.nesting ≤ s.tally.peak := by
    refine Nat.le_trans (sumUpTo_le_sumUpTo (Nat.le_refl 0) ?_) h.counted.peak
    show v.nesting ≤ max 0 (0 + v.nesting)
    omega
  have hsize : v.nodes ≤ s.tally.nodes - before ∨
      Limits.greatest ≤ before + (s.tally.nodes - before) := by
    rcases h.counted.total with htotal | hfull
    · have htotal : before + (0 + v.nodes) ≤ s.tally.nodes := htotal
      omega
    · omega
  have hcovers : Covers before ⟨v, s.tally.peak, s.tally.nodes - before⟩ := ⟨hpeak, hsize⟩
  have hconstants : Covered before (s.publish name before v).constants :=
    Entries.All.write h.constants hcovers name
  exact Kept.bounded ⟨Nat.le_refl _, Nat.le_trans hbase h.nodes_le, hconstants, h.document, h.checked,
    h.nesting⟩ rfl rfl

/-- An entry of the document is written. Counting goes on from where it ended. -/
theorem bounded_assign {key : String} {lost : Event} (h : s.Finished limits b v ctx)
    (hframes : ctx.frames = []) : (s.assign key v lost).Bounded limits s.tally.nodes := by
  have hbase := h.base_le
  have hnodes : (s.document.insert key v).nodes ≤ s.document.nodes + v.nodes :=
    Value.nodesOfEntries_write_le key v s.document.entries
  have hnesting : (s.document.insert key v).nesting ≤ max s.document.nesting v.nesting :=
    Value.nestingOfEntries_write_le key v s.document.entries
  have hholdings : ctx.holdings = [] := by rw [Context.holdings, hframes, List.map_nil]
  obtain ⟨htotal, -, -, hlimit⟩ := h.counted
  rw [hholdings] at htotal hlimit
  refine Kept.bounded
    ⟨Nat.le_refl _, h.nodes_le, Covered.mono h.constants hbase, ?_, .inr h.opened, ?_⟩ rfl rfl
  · show (s.document.insert key v).nodes ≤ s.tally.nodes ∨ Limits.greatest ≤ s.tally.nodes
    have hdocument := h.document
    simp only [written] at htotal
    omega
  · show sumUpTo 0 (s.document.insert key v).nesting ≤ limits.maxDepth
    refine Nat.le_trans (sumUpTo_le_sumUpTo (Nat.le_refl 0) hnesting) ?_
    rw [sumUpTo_max]
    refine Nat.max_le.mpr ⟨h.nesting, Nat.le_trans (sumUpTo_le_sumUpTo (Nat.le_refl 0) ?_) hlimit⟩
    show v.nesting ≤ max 0 (0 + v.nesting)
    omega

/-- A value goes where it belongs, and the invariant goes on from there. -/
theorem bounded_deliver (h : s.Finished limits b v ctx) : ∃ b', (s.deliver v ctx).Bounded limits b' := by
  obtain ⟨destination, frames⟩ := ctx
  cases frames with
  | nil =>
    cases destination with
    | global name before => exact ⟨b, bounded_publish h⟩
    | entry key => exact ⟨_, bounded_assign h rfl⟩
    | block => exact ⟨_, bounded_assign h rfl⟩
  | cons f frames =>
    have hkept (a : Awaiting) : (s.await a).Kept limits b :=
      h.toKept.congr rfl rfl (Nat.le_refl _) h.nodes_le
    cases f with
    | sequence items =>
      refine ⟨b, hkept _, h.counted.put ?_ ?_, fun _ => h.opened, h.begun⟩
      · show v.nodes + Value.nodesOfItems items ≤ Value.nodesOfItems items + v.nodes
        omega
      · show max v.nesting (Value.nestingOfItems items) ≤ max (Value.nestingOfItems items) v.nesting
        omega
    | mapping entries key =>
      exact ⟨b, hkept _, h.counted.put (Value.nodesOfEntries_write_le key v entries)
        (Value.nestingOfEntries_write_le key v entries), fun _ => h.opened, h.begun⟩

/-! ## One token -/

/-- Another token is awaited, and nothing else changes. -/
theorem Bounded.await (h : s.Bounded limits b) {a : Awaiting}
    (hholdings : a.holdings = s.awaiting.holdings)
    (hbegun : a.Begun b s.tally.nodes) : (s.await a).Bounded limits b where
  toKept := h.toKept.congr rfl rfl (Nat.le_refl _) h.nodes_le
  counted := by
    show Counted limits b s.tally a.holdings.length (written a.holdings) (reach a.holdings)
    rw [hholdings]
    exact h.counted
  opened := by
    show a.holdings ≠ [] → _
    rw [hholdings]
    exact h.opened
  begun := hbegun

/-- A container is opened. -/
theorem Bounded.open (h : s.Bounded limits b) {inside : Awaiting}
    (hholdings : inside.holdings = ⟨0, 0⟩ :: s.awaiting.holdings)
    (hbegun : inside.Begun b (s.tally.enter.charge 1).nodes)
    (hdepth : s.tally.depth < limits.maxDepth)
    (hnodes : (s.tally.enter.charge 1).nodes ≤ limits.maxNodes) :
    (s.opened inside).Bounded limits b where
  toKept := h.toKept.charge rfl rfl rfl
  counted := by
    show Counted limits b (s.tally.enter.charge 1) inside.holdings.length (written inside.holdings)
      (reach inside.holdings)
    rw [hholdings]
    obtain ⟨htotal, hlevel, hpeak, hlimit⟩ := h.counted
    generalize s.awaiting.holdings = hs at htotal hlevel hpeak hlimit ⊢
    unfold sumUpTo at hpeak hlimit
    refine ⟨?_, Nat.succ_le_succ hlevel, ?_, ?_⟩
    · show b + (0 + 1 + written hs) ≤ sumUpTo s.tally.nodes 1 ∨
        Limits.greatest ≤ sumUpTo s.tally.nodes 1
      rw [Nat.zero_add, Nat.add_comm 1, ← Nat.add_assoc]
      exact add_le_sumUpTo htotal (Nat.le_refl 1)
    · show sumUpTo 0 (max (hs.length + 1 + 0) (reach hs)) ≤ max s.tally.peak (s.tally.depth + 1)
      unfold sumUpTo
      omega
    · show sumUpTo 0 (max (hs.length + 1 + 0) (reach hs)) ≤ limits.maxDepth
      unfold sumUpTo
      omega
  opened := fun _ => hnodes
  begun := hbegun

/-- What the invariant says where a value is read that goes into `ctx`. -/
theorem Bounded.around (h : s.Bounded limits b) (hctx : s.awaiting.around? = some ctx) :
    Counted limits b s.tally ctx.holdings.length (written ctx.holdings) (reach ctx.holdings) ∧
      ctx.Begun b := by
  have hcounted := h.counted
  have hbegun := h.begun
  rw [Awaiting.holdings, hctx] at hcounted
  rw [Awaiting.Begun, hctx] at hbegun
  exact ⟨hcounted, hbegun⟩

/-- A value that is no container, once it is counted. -/
theorem Bounded.scalar (h : s.Bounded limits b) (hctx : s.awaiting.around? = some ctx)
    (hone : v.nodes = 1) (hflat : v.nesting = 0)
    (hnodes : (s.tally.charge 1).nodes ≤ limits.maxNodes) :
    (s.charged 1).Finished limits b v ctx := by
  obtain ⟨⟨htotal, hlevel, hpeak, hlimit⟩, hbegun⟩ := h.around hctx
  have hreach : max (reach ctx.holdings) (ctx.holdings.length + v.nesting) = reach ctx.holdings := by
    have := length_le_reach ctx.holdings
    omega
  refine ⟨h.toKept.charge rfl rfl rfl, ⟨?_, hlevel, ?_, ?_⟩, hnodes, hbegun⟩
  · show b + (written ctx.holdings + v.nodes) ≤ sumUpTo s.tally.nodes 1 ∨
      Limits.greatest ≤ sumUpTo s.tally.nodes 1
    rw [hone, ← Nat.add_assoc]
    exact add_le_sumUpTo htotal (Nat.le_refl 1)
  · rwa [hreach]
  · rwa [hreach]

/-- A constant that is spliced in. Its record makes up for it, or fills the count. -/
theorem Bounded.splice (h : s.Bounded limits b) (hctx : s.awaiting.around? = some ctx)
    {name : String} {c : Constant} (hc : s.constants.find? name = some c)
    (hdepth : s.tally.reach c.depth ≤ limits.maxDepth)
    (hnodes : ((s.tally.splice c.depth).charge c.size).nodes ≤ limits.maxNodes) :
    (s.spliced c).Finished limits b c.value ctx := by
  obtain ⟨⟨htotal, hlevel, hpeak, hlimit⟩, hbegun⟩ := h.around hctx
  obtain ⟨hnesting, hsize⟩ := h.constants name c hc
  have hreach : sumUpTo 0 (ctx.holdings.length + c.value.nesting) ≤ s.tally.reach c.depth := by
    unfold Tally.reach
    unfold sumUpTo at hnesting ⊢
    omega
  refine ⟨h.toKept.charge rfl rfl rfl, ⟨?_, hlevel, ?_, ?_⟩, hnodes, hbegun⟩
  · show b + (written ctx.holdings + c.value.nodes) ≤ sumUpTo s.tally.nodes c.size ∨
      Limits.greatest ≤ sumUpTo s.tally.nodes c.size
    rcases hsize with hsize | hsize
    · rw [← Nat.add_assoc]
      exact add_le_sumUpTo htotal hsize
    · refine .inr (Nat.le_min.mpr ⟨?_, Nat.le_refl _⟩)
      exact Nat.le_trans hsize (Nat.add_le_add_right h.base_le _)
  · rw [sumUpTo_max]
    exact Nat.max_le.mpr ⟨Nat.le_trans hpeak (Nat.le_max_left _ _),
      Nat.le_trans hreach (Nat.le_max_right _ _)⟩
  · rw [sumUpTo_max]
    exact Nat.max_le.mpr ⟨hlimit, Nat.le_trans hreach hdepth⟩

/-- A container that is closed. -/
theorem Bounded.close (h : s.Bounded limits b) {f : Frame}
    (hctx : s.awaiting.around? = some (ctx.within f)) (hvnodes : v.nodes = f.holding.nodes + 1)
    (hvnesting : v.nesting = f.holding.nesting + 1) : s.leave.Finished limits b v ctx := by
  have hholdings : s.awaiting.holdings = f.holding :: ctx.holdings := by
    rw [Awaiting.holdings, hctx]
    rfl
  obtain ⟨⟨htotal, hlevel, hpeak, hlimit⟩, hbegun⟩ := h.around hctx
  have hnodes : s.tally.nodes ≤ limits.maxNodes :=
    h.opened (by rw [hholdings]; exact List.cons_ne_nil _ _)
  have hreach : max (reach ctx.holdings) (ctx.holdings.length + v.nesting) =
      reach (ctx.within f).holdings := by
    show _ = max (ctx.holdings.length + 1 + f.holding.nesting) (reach ctx.holdings)
    omega
  refine ⟨h.toKept.congr rfl rfl (Nat.le_refl _) h.nodes_le, ⟨?_, ?_, ?_, ?_⟩, hnodes, hbegun⟩
  · have htotal : b + (f.holding.nodes + 1 + written ctx.holdings) ≤ s.tally.nodes ∨
      Limits.greatest ≤ s.tally.nodes := htotal
    show b + (written ctx.holdings + v.nodes) ≤ s.tally.nodes ∨ Limits.greatest ≤ s.tally.nodes
    omega
  · have hlevel : ctx.holdings.length + 1 ≤ s.tally.depth := hlevel
    show ctx.holdings.length ≤ s.tally.depth - 1
    omega
  · rwa [hreach]
  · rwa [hreach]

theorem ForValue.around? (h : s.ForValue ctx) : s.awaiting.around? = some ctx := by
  rcases h with hawait | ⟨items, outer, hawait, rfl⟩
  · rw [hawait]
    rfl
  · rw [hawait]
    rfl

/-- At the top level another token is awaited at the top level. -/
theorem Bounded.await_top (h : s.Bounded limits b) {a : Awaiting} (htop : s.awaiting.around? = none)
    (ha : a.around? = none) : (s.await a).Bounded limits b := by
  have hbegun := h.begun
  rw [Awaiting.Begun, htop] at hbegun
  refine h.await ?_ ?_
  · rw [Awaiting.holdings, Awaiting.holdings, htop, ha]
  · rw [Awaiting.Begun, ha]
    exact hbegun

/-- Inside a declaration another token is awaited with as much around it. -/
theorem Bounded.await_within (h : s.Bounded limits b) {a : Awaiting} {ctx' : Context}
    (hctx : s.awaiting.around? = some ctx) (ha : a.around? = some ctx')
    (hholdings : ctx'.holdings = ctx.holdings) (hdestination : ctx'.destination = ctx.destination) :
    (s.await a).Bounded limits b := by
  obtain ⟨-, hbegun⟩ := h.around hctx
  refine h.await ?_ ?_
  · rw [Awaiting.holdings, Awaiting.holdings, hctx, ha]
    exact hholdings
  · rw [Awaiting.Begun, ha]
    intro name before hname
    exact hbegun (hdestination ▸ hname)

theorem bounded_of_advance (h : Advance limits s t s') (hs : s.Bounded limits b) :
    ∃ b', s'.Bounded limits b' := by
  cases h with
  | global hawait => exact ⟨b, hs.await_top (by rw [hawait]; rfl) rfl⟩
  | entryKey hawait => exact ⟨b, hs.await_top (by rw [hawait]; rfl) rfl⟩
  | block hawait _ hdepth hnodes =>
    exact ⟨b, hs.open (by rw [hawait]; rfl) nofun hdepth hnodes⟩
  | globalName hawait => exact ⟨b, hs.await_top (by rw [hawait]; rfl) rfl⟩
  | globalEquals hawait =>
    have hbegun := hs.begun
    rw [hawait] at hbegun
    refine ⟨b, hs.toKept.congr rfl rfl (Nat.le_refl _) hs.nodes_le, ?_, fun hne => absurd rfl hne, ?_⟩
    · exact ⟨.inl hs.base_le, Nat.zero_le _, Nat.zero_le _, Nat.zero_le _⟩
    · intro name before hname
      cases hname
      exact hbegun
  | entryEquals hawait => exact ⟨b, hs.await (by rw [hawait]; rfl) nofun⟩
  | number hctx _ hnodes => exact bounded_deliver (hs.scalar hctx.around? rfl rfl hnodes)
  | text hctx _ hnodes =>
    exact bounded_deliver
      (hs.scalar hctx.around? (Value.nodes_ofString _) (Value.nesting_ofString _) hnodes)
  | hash hctx => exact ⟨b, hs.await_within hctx.around? rfl rfl rfl⟩
  | question hctx => exact ⟨b, hs.await_within hctx.around? rfl rfl rfl⟩
  | object hctx _ hdepth hnodes =>
    refine ⟨b, hs.open ?_ (hs.around hctx.around?).2 hdepth hnodes⟩
    rw [Awaiting.holdings, Awaiting.holdings, hctx.around?]
    rfl
  | @arrayParen hash ctx hawait _ hdepth hnodes =>
    have hctx : s.awaiting.around? = some ctx := by rw [hawait]; rfl
    exact ⟨b, hs.open (by rw [hawait]; rfl) (hs.around hctx).2 hdepth hnodes⟩
  | @arrayEnd items ctx hawait =>
    have hctx : s.awaiting.around? = some (ctx.within (.sequence items)) := by rw [hawait]; rfl
    refine bounded_deliver (hs.close hctx ?_ ?_)
    · exact congrArg (· + 1) (Value.nodesOfItems_reverse items)
    · exact congrArg (· + 1) (Value.nestingOfItems_reverse items)
  | @key entries ctx hawait =>
    have hctx : s.awaiting.around? = some (ctx.within (.mapping entries "")) := by rw [hawait]; rfl
    exact ⟨b, hs.await_within hctx rfl rfl rfl⟩
  | @objectEnd entries ctx hawait =>
    have hctx : s.awaiting.around? = some (ctx.within (.mapping entries "")) := by rw [hawait]; rfl
    exact bounded_deliver (hs.close hctx rfl rfl)
  | @equals entries key ctx hawait =>
    have hctx : s.awaiting.around? = some (ctx.within (.mapping entries key)) := by rw [hawait]; rfl
    exact ⟨b, hs.await_within hctx rfl rfl rfl⟩
  | @referenceBracket question ctx hawait =>
    have hctx : s.awaiting.around? = some ctx := by rw [hawait]; rfl
    exact ⟨b, hs.await_within hctx rfl rfl rfl⟩
  | @referenceName question ctx hawait =>
    have hctx : s.awaiting.around? = some ctx := by rw [hawait]; rfl
    exact ⟨b, hs.await_within hctx rfl rfl rfl⟩
  | @referenceEnd question name ctx c hawait _ hc hdepth hnodes =>
    have hctx : s.awaiting.around? = some ctx := by rw [hawait]; rfl
    exact bounded_deliver (hs.splice hctx hc hdepth hnodes)

/-- A token that is taken keeps the invariant. -/
theorem bounded_of_step (h : s.step limits t = .ok s') (hs : ∃ b, s.Bounded limits b) :
    ∃ b, s'.Bounded limits b := by
  obtain ⟨b, hs⟩ := hs
  have hnoted : (s.note (.consumed t)).Bounded limits b :=
    ⟨hs.toKept.congr rfl rfl (Nat.le_refl _) hs.nodes_le, hs.counted, hs.opened, hs.begun⟩
  exact bounded_of_advance (advance_of_step h) hnoted

/-! ## Runs -/

/-- What the next reading starts from: the constants are covered under the count that is left. -/
structure Sound (constants : Constants) (tally : Tally) : Prop where
  nodes_le : tally.nodes ≤ Limits.greatest
  covered : Covered tally.nodes constants

/-- A reading may start, under whatever limits. -/
theorem bounded_start {constants : Constants} {tally : Tally} (h : Sound constants tally)
    (limits : Limits) : (start constants tally).Bounded limits tally.nodes := by
  refine Kept.bounded ⟨Nat.le_refl _, h.nodes_le, h.covered, .inl (Nat.zero_le _), .inl rfl, ?_⟩ rfl rfl
  exact Nat.zero_le _

theorem Kept.sound (h : s.Kept limits b) : Sound s.constants s.tally :=
  ⟨h.nodes_le, Covered.mono h.constants h.base_le⟩

/-- A token that raises a fault leaves enough behind for the next reading. -/
theorem sound_of_failure {d : Diagnostic} (h : Failure limits s d s') (hs : Sound s.constants s.tally) :
    Sound s'.constants s'.tally := by
  have hle (n : Nat) : s.tally.nodes ≤ sumUpTo s.tally.nodes n := le_sumUpTo hs.nodes_le
  cases h with
  | tooDeep => exact hs
  | tooDeepSpliced => exact hs
  | @tooMany tally n _ htally =>
    have hnodes : (tally.charge n).nodes = sumUpTo s.tally.nodes n := congrArg (sumUpTo · n) htally
    exact ⟨sumUpTo_le_greatest _ _, Covered.mono hs.covered (hnodes ▸ hle n)⟩
  | number => exact ⟨sumUpTo_le_greatest _ _, Covered.mono hs.covered (hle 1)⟩
  | unknown => exact hs

variable {ts : List Token}

theorem bounded_of_feed (h : s.feed limits ts = .ok s') (hs : ∃ b, s.Bounded limits b) :
    ∃ b, s'.Bounded limits b :=
  feed_induction (fun hs hstep => bounded_of_step hstep hs) hs h

/-- A reading that is stopped leaves enough behind for the next. -/
theorem sound_of_feed_error {stop : Stop} (h : s.feed limits ts = .error stop)
    (hs : ∃ b, s.Bounded limits b) : Sound stop.state.constants stop.state.tally := by
  obtain ⟨_, t, _, s₁, -, hfeed, hstop⟩ := stop_of_feed h
  obtain ⟨b, hs₁⟩ := bounded_of_feed hfeed hs
  rcases hstop with ⟨_, -, rfl⟩ | ⟨hstep, -⟩
  · exact hs₁.toKept.sound
  · exact sound_of_failure (failure_of_step hstep) hs₁.toKept.sound

end State

end HexConfig.Reader
