import HexConfig.Proofs.Reader.Ending
import HexConfig.Proofs.Reader.Faults
import HexConfig.Proofs.Source.Balance

/-!
# The counters never wrap

A reading may be stopped inside containers that nobody closes then, and the next reading goes on with the
depth as it stood, perhaps under a limit that is lower. The tally keeps its balance all the same. Each token
that is taken counts one container more if it opens one and one less if it closes one (`depth_of_step`), so a
value that is finished leaves the depth as it was (`depth_of_value`) and one that is not leaves just what it
has opened and not closed (`Reaches.depth_of_unfinished`). No more containers are counted than tokens were
taken in the whole history (`depth_run_le`), and one that is closed was counted.

The count of values goes down only where a constant is published, to what it was when the constant was begun.
`State.floor` is that count inside a constant and the count itself elsewhere; it never goes down
(`floor_le_of_step`), whether a reading is finished or stopped, and at the top level it is the count.
-/

namespace HexConfig

open Grammar

/-- Of the tokens that were used up before a fault, those that did what they stand for. A token that would
open a container too deep opens none. -/
def Diagnostic.entered (d : Diagnostic) (ts : List Token) : List Token :=
  match d.fault with
  | .nestingTooDeep _ => ts.dropLast
  | _ => ts

theorem Diagnostic.entered_concat (d : Diagnostic) (ts : List Token) (t : Token) :
    d.entered (ts ++ [t]) = ts ++ d.entered [t] := by
  unfold entered
  split
  · simp
  · rfl

theorem Diagnostic.length_entered_le (d : Diagnostic) (ts : List Token) :
    (d.entered ts).length ≤ ts.length := by
  unfold entered
  split
  · rw [List.length_dropLast]
    exact Nat.sub_le _ _
  · exact Nat.le_refl _

namespace Reader

namespace State

variable {limits : Limits} {b : Nat} {s s' s₁ : State} {t : Token} {ts : List Token} {v : Value}
  {ctx : Context} {d : Diagnostic}

/-! ## Depth -/

theorem depth_deliver (s : State) (v : Value) (ctx : Context) :
    (s.deliver v ctx).tally.depth = s.tally.depth := by
  obtain ⟨destination, frames⟩ := ctx
  cases frames with
  | nil => cases destination <;> rfl
  | cons f frames => cases f <;> rfl

/-- Where a container may be closed, one is counted as open. -/
theorem Bounded.one_le_depth {holding : Holding} {holdings : List Holding} (h : s.Bounded limits b)
    (hopen : s.awaiting.holdings = holding :: holdings) : 1 ≤ s.tally.depth :=
  Nat.le_trans (List.length_pos_iff.mpr (hopen ▸ List.cons_ne_nil _ _)) h.counted.level

/-- A token that is taken counts a container more if it opens one, and one less if it closes one. -/
theorem depth_of_step (hs : s.Bounded limits b) (h : s.step limits t = .ok s') :
    s'.tally.depth + closings [t.kind] = s.tally.depth + openings [t.kind] := by
  cases advance_of_step h with
  | arrayEnd hawait hkind =>
    have hone : 1 ≤ s.tally.depth := hs.one_le_depth (congrArg Awaiting.holdings hawait)
    rw [depth_deliver, hkind]
    exact Nat.sub_add_cancel hone
  | objectEnd hawait hkind =>
    have hone : 1 ≤ s.tally.depth := hs.one_le_depth (congrArg Awaiting.holdings hawait)
    rw [depth_deliver, hkind]
    exact Nat.sub_add_cancel hone
  | number _ hkind =>
    rw [depth_deliver, hkind]
    rfl
  | text _ hkind =>
    rw [depth_deliver, hkind]
    rfl
  | referenceEnd _ hkind =>
    rw [depth_deliver, hkind]
    rfl
  | global _ hkind | entryKey _ hkind | block _ hkind | globalName _ hkind | globalEquals _ hkind
  | entryEquals _ hkind | hash _ hkind | question _ hkind | object _ hkind | arrayParen _ hkind
  | key _ hkind | equals _ hkind | referenceBracket _ hkind | referenceName _ hkind =>
    rw [hkind]
    rfl

/-- So do tokens that are taken one after the other. -/
theorem depth_of_feed (hs : ∃ b, s.Bounded limits b) (h : s.feed limits ts = .ok s') :
    s'.tally.depth + closings (ts.map Token.kind) = s.tally.depth + openings (ts.map Token.kind) := by
  induction ts generalizing s with
  | nil =>
    cases h
    rfl
  | cons t ts ih =>
    obtain ⟨s₁, hstep, hfeed⟩ := feed_cons_eq_ok_iff.mp h
    obtain ⟨b, hb⟩ := hs
    have hhead := depth_of_step hb hstep
    have htail := ih (bounded_of_step hstep ⟨b, hb⟩) hfeed
    rw [List.map_cons, ← List.singleton_append, openings_append, closings_append]
    omega

/-- A count that is too much is none of containers. -/
theorem depth_of_charge {n : Nat} {p : Position} (h : s.charge limits n p = .error (.failed d s')) :
    s'.tally.depth = s.tally.depth := by
  unfold charge at h
  split at h
  · cases h
    rfl
  · exact nomatch h

/-- A container whose first token raises a fault is counted as open, unless it is too deep. -/
theorem depth_of_openContainer {p : Position} {inside : Awaiting} (hkind : opens t.kind = true)
    (h : s.openContainer limits p inside = .error (.failed d s')) :
    s'.tally.depth = s.tally.depth + openings ((d.entered [t]).map Token.kind) := by
  have hone : openings [t.kind] = 1 := by simp [openings, hkind]
  rcases bind_eq_error_iff.mp h with h | ⟨s₁, henter, h⟩
  · unfold enter at h
    split at h
    · cases h
      rfl
    · exact nomatch h
  · obtain ⟨-, rfl⟩ := enter_eq_ok_iff.mp henter
    rcases bind_eq_error_iff.mp h with h | ⟨_, -, h⟩
    · unfold charge at h
      split at h
      · cases h
        exact congrArg (s.tally.depth + ·) hone.symm
      · exact nomatch h
    · exact nomatch h

theorem openings_entered (hkind : opens t.kind = false) :
    openings ((d.entered [t]).map Token.kind) = 0 := by
  unfold Diagnostic.entered
  split
  · rfl
  · simp [openings, hkind]

theorem depth_of_beginValue (h : s.beginValue limits t ctx = .error (.failed d s')) :
    s'.tally.depth = s.tally.depth + openings ((d.entered [t]).map Token.kind) := by
  unfold beginValue at h
  split at h
  · next hkind =>
    rw [openings_entered (by rw [hkind]; rfl)]
    rcases bind_eq_error_iff.mp h with h | ⟨_, hcharge, h⟩
    · exact depth_of_charge h
    · obtain ⟨-, rfl⟩ := charge_eq_ok_iff.mp hcharge
      split at h
      · exact nomatch h
      · cases h
        rfl
  · next hkind =>
    rw [openings_entered (by rw [hkind]; rfl)]
    rcases bind_eq_error_iff.mp h with h | ⟨_, -, h⟩
    · exact depth_of_charge h
    · exact nomatch h
  · exact nomatch h
  · exact nomatch h
  · next hkind => exact depth_of_openContainer (by rw [hkind]; rfl) h
  · exact nomatch h

theorem depth_of_refer {question : Position} {name : Token}
    (h : s.refer limits question name ctx = .error (.failed d s')) : s'.tally.depth = s.tally.depth := by
  unfold refer at h
  split at h
  · cases h
    rfl
  · next c hc =>
    split at h
    · cases h
      rfl
    · rcases bind_eq_error_iff.mp h with h | ⟨_, -, h⟩
      · exact (depth_of_charge h).trans rfl
      · exact nomatch h

theorem depth_of_stalls (h : Stalls limits s t d s') :
    s'.tally.depth = s.tally.depth + openings ((d.entered [t]).map Token.kind) := by
  cases h with
  | value _ hbegin => exact depth_of_beginValue hbegin
  | block _ hkind hopen => exact depth_of_openContainer (by rw [hkind]; rfl) hopen
  | array _ hkind hopen => exact depth_of_openContainer (by rw [hkind]; rfl) hopen
  | reference _ hkind hrefer =>
    rw [openings_entered (by rw [hkind]; rfl)]
    exact depth_of_refer hrefer

/-- A token that raises a fault counts a container more if it has opened one. -/
theorem depth_of_failed (h : s.step limits t = .error (.failed d s')) :
    s'.tally.depth = s.tally.depth + openings ((d.entered [t]).map Token.kind) := by
  have hstalls := depth_of_stalls (stalls_of_step h)
  exact hstalls

/-- No token that raises a fault closes a container. -/
theorem closes_of_stalls (h : Stalls limits s t d s') : closes t.kind = false := by
  cases h with
  | value _ hbegin =>
    unfold beginValue at hbegin
    split at hbegin
    · next hkind => rw [hkind]; rfl
    · next hkind => rw [hkind]; rfl
    · next hkind => rw [hkind]; rfl
    · next hkind => rw [hkind]; rfl
    · next hkind => rw [hkind]; rfl
    · exact nomatch hbegin
  | block _ hkind => rw [hkind]; rfl
  | array _ hkind => rw [hkind]; rfl
  | reference _ hkind => rw [hkind]; rfl

/-! ## Values -/

/-- A value is read next, for `ctx`, where `rest` is what follows. In an array it is, unless the array is
closed or input ends. -/
inductive Calls (s : State) (ctx : Context) (rest : List Token) : Prop
  | value : s.awaiting = .value ctx → Calls s ctx rest
  | item {items : List Value} {outer : Context} {t : Token} {rest' : List Token} :
      s.awaiting = .item items outer → ctx = outer.within (.sequence items) → rest = t :: rest' →
      t.kind ≠ .rightParen → Calls s ctx rest

/-- The tokens of a whole value are taken, the first of `rest`. -/
def Finishes (limits : Limits) (s : State) (rest : List Token) : Prop :=
  ∃ (x : Term) (us : List Token) (s' : State), us <+: rest ∧ us.map Token.word = x.words ∧
    s.feed limits us = .ok s'

variable {us rest : List Token}

theorem Calls.forValue (h : s.Calls ctx rest) : s.ForValue ctx := by
  cases h with
  | value hawait => exact .inl hawait
  | item hawait hctx => exact .inr ⟨_, _, hawait, hctx⟩

/-- What is taken of a value is followed in a value. -/
theorem Calls.follow (h : s.Calls ctx (t :: rest)) (hfeed : s.feed limits (t :: us) = .ok s₁) :
    follow ([.value] ++ ctx.goals) ((t :: us).map Token.kind) = some s₁.awaiting.goals := by
  have hfollow := follow_of_feed hfeed
  cases h with
  | value hawait =>
    rw [hawait] at hfollow
    exact hfollow
  | @item items outer _ _ hawait hctx hrest hkind =>
    obtain ⟨rfl, -⟩ := List.cons.inj hrest
    rw [hawait] at hfollow
    rw [hctx]
    exact (follow_arrayRest_cons hkind).symm.trans hfollow

/-- A value of which tokens were taken, and not all, has something left to be read. -/
theorem exists_left_of_feed (hcalls : s.Calls ctx (t :: rest)) (hus : t :: us <+: t :: rest)
    (hproper : ∀ u ∈ t :: us, Word.Proper u.word) (hnot : ¬ s.Finishes limits (t :: rest))
    (hfeed : s.feed limits (t :: us) = .ok s₁) :
    ∃ g gs, Grammar.follow [.value] ((t :: us).map Token.kind) = some (g :: gs) ∧
      s₁.awaiting.goals = g :: gs ++ ctx.goals := by
  rcases exists_left_of_follow (hcalls.follow hfeed) with ⟨front, back, hks, hfront⟩ | hleft
  · obtain ⟨vs, ws, hvs, rfl, -⟩ := List.map_eq_append_iff.mp hks
    rw [hvs] at hus hproper hfeed
    have hwords : ∀ w ∈ vs.map Token.word, Word.Proper w := by
      intro w hw
      obtain ⟨u, hu, rfl⟩ := List.mem_map.mp hw
      exact hproper u (List.mem_append_left _ hu)
    have hvalue : Grammar.Derives .value (vs.map Token.kind) :=
      derivesAll_singleton.mp (follow_eq_nil_iff.mp hfront)
    obtain ⟨x, hx⟩ := hvalue.reads hwords (by rw [Grammar.kindsOf, List.map_map]; rfl)
    obtain ⟨s', hs', -⟩ := feed_append_eq_ok_iff.mp hfeed
    exact absurd ⟨x, vs, s', (List.prefix_append vs ws).trans hus, hx, hs'⟩ hnot
  · exact hleft

/-- What is taken of a value that is not finished closes no more containers than it opens. -/
theorem closings_le_openings_of_feed (hcalls : s.Calls ctx rest) (hus : us <+: rest)
    (hproper : ∀ u ∈ us, Word.Proper u.word) (hnot : ¬ s.Finishes limits rest)
    (hfeed : s.feed limits us = .ok s₁) :
    closings (us.map Token.kind) ≤ openings (us.map Token.kind) ∧ s₁.awaiting ≠ .declaration := by
  cases us with
  | nil =>
    cases hfeed
    refine ⟨Nat.le_refl 0, fun hawait => ?_⟩
    have haround := hcalls.forValue.around?
    rw [hawait] at haround
    exact nomatch haround
  | cons t us =>
    obtain ⟨ws, rfl⟩ := hus
    obtain ⟨g, gs, hfollow, hgoals⟩ :=
      exists_left_of_feed hcalls (List.prefix_append (t :: us) ws) hproper hnot hfeed
    refine ⟨closings_le_openings_of_follow hfollow, fun hawait => ?_⟩
    rw [hawait] at hgoals
    have hlength := congrArg List.length hgoals
    simp [Awaiting.goals, Awaiting.behind, Context.goals] at hlength

/-- A value whose tokens are taken leaves the depth as it was. -/
theorem depth_of_value (x : Term) (hs : ∃ b, s.Bounded limits b) (hus : us.map Token.word = x.words)
    (hfeed : s.feed limits us = .ok s') : s'.tally.depth = s.tally.depth := by
  have hderives : Grammar.Derives .value (us.map Token.kind) := by
    have hvalue := derives_words x
    rw [← hus, Grammar.kindsOf, List.map_map] at hvalue
    exact hvalue
  have hbalance := closings_eq_openings_of_derives hderives
  have hdepth := depth_of_feed hs hfeed
  omega

/-! ## Publishing -/

/-- A value that finishes a declaration of a constant publishes it. -/
theorem publish_of_deliver {name : String} {before : Nat} (hname : ctx.destination = .global name before)
    (h : (s.deliver v ctx).awaiting = .declaration) : s.deliver v ctx = s.publish name before v := by
  obtain ⟨destination, frames⟩ := ctx
  obtain rfl : destination = .global name before := hname
  cases frames with
  | nil => rfl
  | cons f frames => cases f <;> exact nomatch h

/-- The machine is inside the constant `name`, begun when `before` values were counted. -/
def Inside (s : State) (name : String) (before : Nat) : Prop :=
  ∃ ctx, s.awaiting.around? = some ctx ∧ ctx.destination = .global name before

/-- Inside a constant at least as many values are counted as when it was begun. -/
theorem Bounded.le_nodes {name : String} {before : Nat} (h : s.Bounded limits b)
    (hinside : s.Inside name before) : before ≤ s.tally.nodes := by
  obtain ⟨ctx, hctx, hname⟩ := hinside
  rw [(h.around hctx).2 hname]
  exact h.base_le

/-- A token that finishes a constant publishes it, with at least as many values counted as when it was
begun. -/
theorem publish_of_step {name : String} {before : Nat} (hs : s.Bounded limits b)
    (hinside : s.Inside name before) (h : s.step limits t = .ok s') (hawait : s'.awaiting = .declaration) :
    ∃ v tally, s' = ({ s.note (.consumed t) with tally := tally }).publish name before v ∧
      before ≤ tally.nodes := by
  have hbefore : before ≤ s.tally.nodes := hs.le_nodes hinside
  have hcharge : ∀ n, before ≤ sumUpTo s.tally.nodes n := fun n =>
    Nat.le_trans hbefore (le_sumUpTo hs.nodes_le)
  obtain ⟨ctx, hctx, hname⟩ := hinside
  have hdestination : ∀ ctx' : Context, s.awaiting.around? = some ctx' →
      ctx'.destination = .global name before := by
    intro ctx' hctx'
    obtain rfl := Option.some.inj (hctx.symm.trans hctx')
    exact hname
  cases advance_of_step h with
  | number hctx | text hctx =>
    exact ⟨_, _, publish_of_deliver (hdestination _ hctx.around?) hawait, hcharge 1⟩
  | @arrayEnd items ctx' hitem =>
    have hname' := hdestination (ctx'.within (.sequence items)) (congrArg Awaiting.around? hitem)
    exact ⟨_, _, publish_of_deliver hname' hawait, hbefore⟩
  | @objectEnd entries ctx' hkey =>
    have hname' := hdestination (ctx'.within (.mapping entries "")) (congrArg Awaiting.around? hkey)
    exact ⟨_, _, publish_of_deliver hname' hawait, hbefore⟩
  | @referenceEnd question name' ctx' c hend =>
    have hname' := hdestination ctx' (congrArg Awaiting.around? hend)
    exact ⟨_, _, publish_of_deliver hname' hawait, hcharge c.size⟩
  | _ => exact nomatch hawait

end State

/-! ## What stays counted -/

/-- What stays counted of so many values inside a declaration: a constant takes back what was counted since it
was begun. -/
def Context.floor (ctx : Context) (nodes : Nat) : Nat :=
  match ctx.destination with
  | .global _ before => before
  | _ => nodes

theorem Context.floor_mono (ctx : Context) {m n : Nat} (h : m ≤ n) : ctx.floor m ≤ ctx.floor n := by
  unfold floor
  split
  · exact Nat.le_refl _
  · exact h

namespace State

variable {limits : Limits} {b : Nat} {s s' s₁ : State} {t : Token} {ts : List Token} {v : Value}
  {ctx : Context} {d : Diagnostic}

/-- What stays counted of the values counted so far. -/
def floor (s : State) : Nat := s.awaiting.around?.elim s.tally.nodes (·.floor s.tally.nodes)

theorem floor_of_top (h : s.awaiting.around? = none) : s.floor = s.tally.nodes := by
  rw [floor, h]
  rfl

theorem floor_of_around (h : s.awaiting.around? = some ctx) : s.floor = ctx.floor s.tally.nodes := by
  rw [floor, h]
  rfl

theorem floor_deliver (s : State) (v : Value) (ctx : Context) :
    (s.deliver v ctx).floor = ctx.floor s.tally.nodes := by
  obtain ⟨destination, frames⟩ := ctx
  cases frames with
  | nil => cases destination <;> rfl
  | cons f frames => cases f <;> rfl

/-- No more stays counted than is counted. -/
theorem Bounded.floor_le (h : s.Bounded limits b) : s.floor ≤ s.tally.nodes := by
  cases hctx : s.awaiting.around? with
  | none => exact Nat.le_of_eq (floor_of_top hctx)
  | some ctx =>
    rw [floor_of_around hctx]
    unfold Context.floor
    split
    · next name before hname => exact h.le_nodes ⟨ctx, hctx, hname⟩
    · exact Nat.le_refl _

/-- A token that is taken leaves counted what stays counted. -/
theorem floor_le_of_advance (hnodes : s.tally.nodes ≤ Limits.greatest) (h : Advance limits s t s') :
    s.floor ≤ s'.floor := by
  have hcharge : ∀ n, s.tally.nodes ≤ sumUpTo s.tally.nodes n := fun n => le_sumUpTo hnodes
  cases h with
  | global hawait | entryKey hawait | globalName hawait | globalEquals hawait | entryEquals hawait =>
    rw [floor_of_top (by rw [hawait]; rfl)]
    exact Nat.le_refl _
  | block hawait =>
    rw [floor_of_top (by rw [hawait]; rfl)]
    exact hcharge 1
  | number hctx | text hctx =>
    rw [floor_of_around hctx.around?, floor_deliver]
    exact Context.floor_mono _ (hcharge 1)
  | hash hctx | question hctx =>
    rw [floor_of_around hctx.around?]
    exact Nat.le_refl _
  | object hctx =>
    rw [floor_of_around hctx.around?]
    exact Context.floor_mono _ (hcharge 1)
  | arrayParen hawait =>
    rw [floor_of_around (by rw [hawait]; rfl)]
    exact Context.floor_mono _ (hcharge 1)
  | arrayEnd hawait | objectEnd hawait =>
    rw [floor_of_around (by rw [hawait]; rfl), floor_deliver]
    exact Nat.le_refl _
  | key hawait | equals hawait | referenceBracket hawait | referenceName hawait =>
    rw [floor_of_around (by rw [hawait]; rfl)]
    exact Nat.le_refl _
  | referenceEnd hawait =>
    rw [floor_of_around (by rw [hawait]; rfl), floor_deliver]
    exact Context.floor_mono _ (hcharge _)

theorem floor_le_of_step (hs : s.Bounded limits b) (h : s.step limits t = .ok s') : s.floor ≤ s'.floor := by
  have hnoted : (s.note (.consumed t)).floor ≤ s'.floor := floor_le_of_advance hs.nodes_le (advance_of_step h)
  exact hnoted

/-- So do tokens that are taken one after the other. -/
theorem floor_le_of_feed (hs : ∃ b, s.Bounded limits b) (h : s.feed limits ts = .ok s') :
    s.floor ≤ s'.floor := by
  induction ts generalizing s with
  | nil =>
    cases h
    exact Nat.le_refl _
  | cons t ts ih =>
    obtain ⟨s₁, hstep, hfeed⟩ := feed_cons_eq_ok_iff.mp h
    obtain ⟨b, hb⟩ := hs
    exact Nat.le_trans (floor_le_of_step hb hstep) (ih (bounded_of_step hstep ⟨b, hb⟩) hfeed)

/-- A token that raises a fault takes nothing back. -/
theorem nodes_le_of_failed (hs : s.Bounded limits b) (h : s.step limits t = .error (.failed d s')) :
    s.tally.nodes ≤ s'.tally.nodes := by
  have hcharge : ∀ n, s.tally.nodes ≤ sumUpTo s.tally.nodes n := fun n => le_sumUpTo hs.nodes_le
  cases failure_of_step h with
  | tooDeep | tooDeepSpliced | unknown => exact Nat.le_refl _
  | @tooMany tally n p htally =>
    have hnodes : tally.nodes = s.tally.nodes := htally
    show s.tally.nodes ≤ sumUpTo tally.nodes n
    rw [hnodes]
    exact hcharge n
  | number => exact hcharge 1

end State

/-! ## Readings -/

variable {r : Reader} {used rest : List Token} {s : State} {ctx : Context}

/-- In the next reading the machine comes to `s`, with `used` taken and `rest` still to come. -/
structure Reaches (r : Reader) (used rest : List Token) (s : State) : Prop where
  list : r.tokens.list = used ++ rest
  feed : (State.start r.constants r.tally).feed r.limits used = .ok s

/-- Where a reading goes on from a state to: tokens are taken, and then it rests, where the grammar has no
room for more or at the end, or the next token raises a fault of another kind. -/
inductive Stops (r : Reader) (used rest : List Token) (s : State) : Prop
  | resting {inside : List Token} {s₁ : State} : inside <+: rest → s.feed r.limits inside = .ok s₁ →
      r.read.1.consumed = used ++ inside → r.read.2.tally = s₁.tally →
      (∀ doc, r.read.1.result = .ok doc → s₁.awaiting = .declaration) →
      (∀ d, r.read.1.result = .error d → d.IsSyntax) → Stops r used rest s
  | failing {inside : List Token} {t : Token} {s₁ s₂ : State} {d : Diagnostic} : inside ++ [t] <+: rest →
      s.feed r.limits inside = .ok s₁ → s₁.step r.limits t = .error (.failed d s₂) →
      r.read.1.consumed = used ++ (inside ++ [t]) → r.read.2.tally = s₂.tally →
      r.read.1.result = .error d → Stops r used rest s

/-- What was taken on the way comes before the token that stops the machine. -/
theorem State.exists_inside_of_feed {limits : Limits} {s₀ s' : State} {used' rest' : List Token} {t : Token}
    {halt : Halt} (hused : s₀.feed limits used = .ok s) (hlist : used ++ rest = used' ++ t :: rest')
    (hused' : s₀.feed limits used' = .ok s') (hstep : s'.step limits t = .error halt) :
    ∃ inside, used' = used ++ inside ∧ rest = inside ++ t :: rest' ∧ s.feed limits inside = .ok s' := by
  rcases List.append_eq_append_iff.mp hlist with ⟨inside, rfl, hrest⟩ | ⟨more, rfl, hmore⟩
  · rw [feed_append_of_ok hused] at hused'
    exact ⟨inside, rfl, hrest, hused'⟩
  · rw [feed_append_of_ok hused'] at hused
    cases more with
    | nil => exact ⟨[], by simp, hmore.symm, by cases hused; rfl⟩
    | cons u more =>
      obtain ⟨rfl, -⟩ := List.cons.inj hmore
      obtain ⟨s₁, htaken, -⟩ := feed_cons_eq_ok_iff.mp hused
      rw [hstep] at htaken
      exact nomatch htaken

/-- Where a reading rests, it tells of the tokens it took, and leaves what the machine counted. -/
theorem Reaches.stops_resting {inside more : List Token} {s₁ : State} {result : Except Diagnostic Document}
    (h : r.Reaches used rest s) (hbegins : inside <+: rest) (hinside : s.feed r.limits inside = .ok s₁)
    (hread : r.read = (⟨result, s₁.log.reverse⟩, r.leftAt more s₁))
    (hok : ∀ doc, result = .ok doc → s₁.awaiting = .declaration)
    (herror : ∀ d, result = .error d → d.IsSyntax) : r.Stops used rest s := by
  have hconsumed : s₁.consumed = used ++ inside :=
    State.consumed_of_feed ((State.feed_append_of_ok h.feed).trans hinside)
  refine .resting hbegins hinside ?_ ?_ ?_ ?_
  · rw [hread]
    exact hconsumed
  · rw [hread]
    rfl
  · rw [hread]
    exact hok
  · rw [hread]
    exact herror

/-- A reading goes on from every state it comes to. -/
theorem Reaches.stops (h : r.Reaches used rest s) : r.Stops used rest s := by
  cases r.ending with
  | whole hfeed hawait hread =>
    rw [h.list, State.feed_append_of_ok h.feed] at hfeed
    exact h.stops_resting List.prefix_rfl hfeed hread (fun _ _ => hawait) (fun d hd => by cases hd)
  | @unfinished s' e hfeed hmissing hread =>
    rw [h.list, State.feed_append_of_ok h.feed] at hfeed
    exact h.stops_resting List.prefix_rfl hfeed hread (fun doc hdoc => by cases hdoc)
      fun d hd => ⟨e, _, (Except.error.inj hd).symm⟩
  | @refused used' rest' t s' e hlist hfeed hstep hread =>
    obtain ⟨inside, rfl, rfl, hinside⟩ :=
      State.exists_inside_of_feed h.feed (h.list.symm.trans hlist) hfeed hstep
    exact h.stops_resting (List.prefix_append _ _) hinside hread (fun doc hdoc => by cases hdoc)
      fun d hd => ⟨e, t, (Except.error.inj hd).symm⟩
  | @failed used' rest' t s' s₂ d hlist hfeed hstep hread =>
    have hconsumed : s₂.consumed = used' ++ [t] := State.consumed_of_fault hfeed hstep
    obtain ⟨inside, rfl, rfl, hinside⟩ :=
      State.exists_inside_of_feed h.feed (h.list.symm.trans hlist) hfeed hstep
    refine .failing ?_ hinside hstep ?_ ?_ ?_
    · exact ⟨rest', (List.append_cons inside t rest').symm⟩
    · rw [hread, ← List.append_assoc]
      exact hconsumed
    · rw [hread]
      rfl
    · rw [hread]

theorem reaches_start (r : Reader) : r.Reaches [] r.tokens.list (State.start r.constants r.tally) :=
  ⟨rfl, rfl⟩

theorem Reaches.bounded (h : r.Reaches used rest s) (hr : r.Sound) : ∃ b, s.Bounded r.limits b :=
  State.bounded_of_feed h.feed ⟨_, State.bounded_start hr r.limits⟩

/-- A reading leaves counted what stayed counted where it came to. -/
theorem Reaches.floor_le (h : r.Reaches used rest s) (hr : r.Sound) : s.floor ≤ r.read.2.tally.nodes := by
  have hs := h.bounded hr
  cases h.stops with
  | @resting inside s₁ _ hinside _ htally =>
    obtain ⟨b, hb⟩ := State.bounded_of_feed hinside hs
    rw [htally]
    exact Nat.le_trans (State.floor_le_of_feed hs hinside) hb.floor_le
  | @failing inside t s₁ s₂ d _ hinside hstep _ htally =>
    obtain ⟨b, hb⟩ := State.bounded_of_feed hinside hs
    rw [htally]
    exact Nat.le_trans (State.floor_le_of_feed hs hinside)
      (Nat.le_trans hb.floor_le (State.nodes_le_of_failed hb hstep))

/-- No history takes back what is counted between readings. -/
theorem nodes_le_run (hr : r.Sound) (moves : List Move) : r.tally.nodes ≤ (r.run moves).tally.nodes := by
  induction moves generalizing r with
  | nil => exact Nat.le_refl _
  | cons m moves ih =>
    refine Nat.le_trans ?_ (ih (sound_move hr m))
    cases m with
    | read => exact r.reaches_start.floor_le hr
    | maxDepth n => exact Nat.le_refl _
    | maxNodes n => exact Nat.le_refl _

/-- A container is counted as open for no more tokens than were taken. -/
theorem Reaches.depth_le (h : r.Reaches used rest s) (hr : r.Sound) :
    s.tally.depth ≤ r.tally.depth + used.length := by
  have hdepth := State.depth_of_feed ⟨_, State.bounded_start hr r.limits⟩ h.feed
  have hopenings := openings_le_length (used.map Token.kind)
  rw [List.length_map] at hopenings
  have hstart : (State.start r.constants r.tally).tally.depth = r.tally.depth := rfl
  omega

/-- A reading counts no more containers as open than it uses up tokens. -/
theorem depth_read_le (hr : r.Sound) :
    r.read.2.tally.depth + r.read.2.tokens.list.length ≤ r.tally.depth + r.tokens.list.length := by
  have hlist : r.tokens.list.length = r.read.1.consumed.length + r.read.2.tokens.list.length := by
    rw [← List.length_append, ← (tokens_of_read r).1]
  have hstart : ∃ b, (State.start r.constants r.tally).Bounded r.limits b := ⟨_, State.bounded_start hr r.limits⟩
  have hdepth : r.read.2.tally.depth ≤ r.tally.depth + r.read.1.consumed.length := by
    cases r.reaches_start.stops with
    | @resting inside s₁ _ hinside hconsumed htally =>
      have htaken : s₁.tally.depth + _ = r.tally.depth + _ := State.depth_of_feed hstart hinside
      have hopenings := openings_le_length (inside.map Token.kind)
      rw [htally, hconsumed, List.nil_append]
      rw [List.length_map] at hopenings
      omega
    | @failing inside t s₁ s₂ d _ hinside hstep hconsumed htally =>
      have htaken : s₁.tally.depth + _ = r.tally.depth + _ := State.depth_of_feed hstart hinside
      have hopenings := openings_le_length (inside.map Token.kind)
      have hfault := State.depth_of_failed hstep
      have hone : openings ((d.entered [t]).map Token.kind) ≤ 1 := by
        refine Nat.le_trans (openings_le_length _) ?_
        rw [List.length_map]
        exact d.length_entered_le [t]
      rw [htally, hconsumed, List.nil_append, List.length_append, List.length_singleton]
      rw [List.length_map] at hopenings
      omega
  omega

/-- Throughout a history no more containers are counted as open than there are tokens in the text. -/
theorem depth_run_le (hr : r.Sound) (moves : List Move) :
    (r.run moves).tally.depth + (r.run moves).tokens.list.length ≤ r.tally.depth + r.tokens.list.length := by
  induction moves generalizing r with
  | nil => exact Nat.le_refl _
  | cons m moves ih =>
    refine Nat.le_trans (ih (sound_move hr m)) ?_
    cases m with
    | read => exact depth_read_le hr
    | maxDepth n => exact Nat.le_refl _
    | maxNodes n => exact Nat.le_refl _

/-- A value that is not finished leaves counted, besides what was, just those containers that were opened and
not closed while it was read. -/
theorem Reaches.depth_of_unfinished (h : r.Reaches used rest s) (hr : r.Sound) (hwritten : r.Written)
    (hcalls : s.Calls ctx rest) (hnot : ¬ s.Finishes r.limits rest) :
    ∃ (d : Diagnostic) (inside : List Token), r.read.1.result = .error d ∧
      r.read.1.consumed = used ++ inside ∧
      closings (inside.map Token.kind) ≤ openings ((d.entered inside).map Token.kind) ∧
      r.read.2.tally.depth + closings (inside.map Token.kind) =
        s.tally.depth + openings ((d.entered inside).map Token.kind) := by
  have hs := h.bounded hr
  have hproper : ∀ {us : List Token}, us <+: rest → ∀ u ∈ us, Word.Proper u.word := by
    intro us hus u hu
    exact hwritten.tokens u (h.list ▸ List.mem_append_right _ (hus.subset hu))
  cases h.stops with
  | @resting inside s₁ hprefix hinside hconsumed htally hok herror =>
    obtain ⟨hle, hawait⟩ := State.closings_le_openings_of_feed hcalls hprefix (hproper hprefix) hnot hinside
    have hdepth := State.depth_of_feed hs hinside
    cases hresult : r.read.1.result with
    | ok doc => exact absurd (hok doc hresult) hawait
    | error d =>
      have hentered : d.entered inside = inside := by
        obtain ⟨e, t, rfl⟩ := herror d hresult
        rfl
      refine ⟨d, inside, rfl, hconsumed, ?_, ?_⟩
      · rw [hentered]
        exact hle
      · rw [hentered, htally]
        exact hdepth
  | @failing inside t s₁ s₂ d hprefix hinside hstep hconsumed htally hresult =>
    have hprefix' : inside <+: rest := (List.prefix_append _ _).trans hprefix
    obtain ⟨hle, -⟩ := State.closings_le_openings_of_feed hcalls hprefix' (hproper hprefix') hnot hinside
    have hdepth := State.depth_of_feed hs hinside
    have hfault := State.depth_of_failed hstep
    have hcloses : closings [t.kind] = 0 := by
      have hkind : closes t.kind = false := State.closes_of_stalls (State.stalls_of_step hstep)
      simp [closings, hkind]
    have hentered : d.entered (inside ++ [t]) = inside ++ d.entered [t] := d.entered_concat inside t
    refine ⟨d, inside ++ [t], hresult, hconsumed, ?_, ?_⟩
    · rw [hentered, List.map_append, List.map_append, openings_append, closings_append, List.map_singleton, hcloses]
      omega
    · rw [hentered, List.map_append, List.map_append, openings_append, closings_append, List.map_singleton,
        hcloses, htally]
      omega

/-- No counter of a reader wraps, whatever it went through, in a text of less than `2 ^ 63` bytes. In every
state `s` that a reading comes to, one more container can be counted as open; where a token closes a
container, one is counted; where a token publishes a constant, at least as many values are counted as when the
constant was begun. A value that is read from there on leaves the depth as it was, or, where it is not
finished, deeper by the containers that its tokens opened and did not close. And at the top level as many
values are counted as at every place there before, in this reading and in all others. -/
theorem counters_never_wrap (source : String) (limits : Limits) (moves : List Move)
    (hsize : source.utf8ByteSize < Integer.signedBound) :
    let r := (ofText source limits).run moves
    ∀ (used rest : List Token) (s : State), r.Reaches used rest s →
      s.tally.depth + 1 ≤ Limits.greatest ∧
      (∀ t s', s.step r.limits t = .ok s' → closes t.kind → 1 ≤ s.tally.depth) ∧
      (∀ t s' name before, s.Inside name before → s.step r.limits t = .ok s' → s'.awaiting = .declaration →
        ∃ v tally, s' = ({ s.note (.consumed t) with tally := tally }).publish name before v ∧
          before ≤ tally.nodes) ∧
      (∀ ctx, s.Calls ctx rest →
        (∀ (x : Term) (us : List Token) (s' : State), us <+: rest → us.map Token.word = x.words →
          s.feed r.limits us = .ok s' → s'.tally.depth = s.tally.depth) ∧
        (¬ s.Finishes r.limits rest → ∃ (d : Diagnostic) (inside : List Token),
          r.read.1.result = .error d ∧ r.read.1.consumed = used ++ inside ∧
          closings (inside.map Token.kind) ≤ openings ((d.entered inside).map Token.kind) ∧
          r.read.2.tally.depth + closings (inside.map Token.kind) =
            s.tally.depth + openings ((d.entered inside).map Token.kind))) ∧
      (s.awaiting = .declaration →
        r.tally.nodes ≤ s.tally.nodes ∧
        (∀ us s', us <+: rest → s.feed r.limits us = .ok s' → s'.awaiting = .declaration →
          s.tally.nodes ≤ s'.tally.nodes) ∧
        ∀ more, s.tally.nodes ≤ (r.read.2.run more).tally.nodes) := by
  intro r used rest s h
  have hr : r.Sound := sound_run (sound_ofText source limits) moves
  have hwritten : r.Written := (written_ofText source limits).run moves
  obtain ⟨b, hb⟩ := h.bounded hr
  have htop : ∀ {s' : State}, s'.awaiting = .declaration → s'.floor = s'.tally.nodes := fun hawait =>
    State.floor_of_top (by rw [hawait]; rfl)
  refine ⟨?_, ?_, ?_, ?_, ?_⟩
  · have hdepth : r.tally.depth + r.tokens.list.length ≤ 0 + (Tokens.ofText source).list.length :=
      depth_run_le (sound_ofText source limits) moves
    have htokens := Tokens.length_ofText_le source
    have hlist := congrArg List.length h.list
    have hreached := h.depth_le hr
    rw [List.length_append] at hlist
    unfold Integer.signedBound at hsize
    unfold Limits.greatest
    omega
  · intro t s' hstep hcloses
    have hone : closings [t.kind] = 1 := by simp [closings, hcloses]
    have hzero : openings [t.kind] = 0 := by simp [openings, opens_eq_false_of_closes hcloses]
    have hdepth := State.depth_of_step hb hstep
    omega
  · intro t s' name before hinside hstep hawait
    exact State.publish_of_step hb hinside hstep hawait
  · intro ctx hcalls
    refine ⟨fun x us s' _ hus hfeed => State.depth_of_value x ⟨b, hb⟩ hus hfeed, fun hnot => ?_⟩
    exact h.depth_of_unfinished hr hwritten hcalls hnot
  · intro hawait
    have hfloor : s.floor = s.tally.nodes := htop hawait
    refine ⟨?_, ?_, ?_⟩
    · rw [← hfloor]
      exact State.floor_le_of_feed ⟨_, State.bounded_start hr r.limits⟩ h.feed
    · intro us s' _ hfeed hawait'
      rw [← hfloor, ← htop hawait']
      exact State.floor_le_of_feed ⟨b, hb⟩ hfeed
    · intro more
      rw [← hfloor]
      exact Nat.le_trans (h.floor_le hr) (nodes_le_run (sound_read hr) more)

/-- An instance: the first reading is stopped with two containers open. The second goes on under a limit of one,
and is stopped before an array that it does not open. -/
theorem counters_never_wrap_resumed :
    let r := (ofText "a = #(\x7b b = ?[C] k = #(0x1)" .standard).run [.read, .maxDepth 1]
    r.tally.depth = 2 ∧ r.limits.maxDepth = 1 ∧ r.read.1.result = .error ⟨.nestingTooDeep 1, ⟨1, 22⟩⟩ ∧
      ∃ (d : Diagnostic) (inside : List Token), r.read.1.result = .error d ∧
        closings (inside.map Token.kind) ≤ openings ((d.entered inside).map Token.kind) ∧
        r.read.2.tally.depth + closings (inside.map Token.kind) =
          2 + openings ((d.entered inside).map Token.kind) := by
  intro r
  have hdepth : r.tally.depth = 2 := by decide +kernel
  have hresult : r.read.1.result = .error ⟨.nestingTooDeep 1, ⟨1, 22⟩⟩ := by decide +kernel
  refine ⟨hdepth, by decide +kernel, hresult, ?_⟩
  let s : State := ⟨.value ⟨.entry "k", []⟩, .empty, [], ⟨2, 2, 2⟩,
    [.consumed ⟨.equals, "=", ⟨1, 20⟩⟩, .consumed ⟨.identifier, "k", ⟨1, 18⟩⟩]⟩
  have hfeed : ((State.start r.constants r.tally).feed r.limits (r.tokens.list.take 2)).toOption = some s := by
    decide +kernel
  have hreaches : r.Reaches (r.tokens.list.take 2) (r.tokens.list.drop 2) s := by
    refine ⟨(List.take_append_drop 2 _).symm, ?_⟩
    cases htaken : (State.start r.constants r.tally).feed r.limits (r.tokens.list.take 2) with
    | error stop => rw [htaken] at hfeed; exact nomatch hfeed
    | ok s' => rw [htaken] at hfeed; exact congrArg _ (Option.some.inj hfeed)
  have hrest : r.tokens.list.drop 2 = [⟨.hash, "#", ⟨1, 22⟩⟩, ⟨.leftParen, "(", ⟨1, 23⟩⟩,
      ⟨.number, "1", ⟨1, 24⟩⟩, ⟨.rightParen, ")", ⟨1, 27⟩⟩] := by decide +kernel
  have hstops : (s.feed r.limits [⟨.hash, "#", ⟨1, 22⟩⟩, ⟨.leftParen, "(", ⟨1, 23⟩⟩]).isOk = false := by
    decide +kernel
  have hnot : ¬ s.Finishes r.limits (r.tokens.list.drop 2) := by
    rintro ⟨x, us, s', ⟨vs, hus⟩, hwords, htaken⟩
    rw [hrest] at hus
    cases us with
    | nil => exact absurd hwords.symm x.words_ne_nil
    | cons u us =>
      obtain ⟨rfl, htail⟩ := List.cons.inj hus
      cases us with
      | nil => cases x <;> simp [Term.words, Token.word] at hwords
      | cons u' us =>
        obtain ⟨rfl, -⟩ := List.cons.inj htail
        obtain ⟨s₁, htwo, -⟩ := State.feed_append_eq_ok_iff.mp
          (show s.feed r.limits ([_, _] ++ us) = .ok s' from htaken)
        rw [htwo] at hstops
        cases hstops
  have hsafe := counters_never_wrap "a = #(\x7b b = ?[C] k = #(0x1)" .standard [.read, .maxDepth 1]
    (by decide +kernel) _ _ s hreaches
  obtain ⟨-, -, -, hvalue, -⟩ := hsafe
  obtain ⟨d, inside, hd, -, hle, hleft⟩ := (hvalue _ (.value rfl)).2 hnot
  exact ⟨d, inside, hd, hle, hleft⟩

end Reader

end HexConfig
