import HexConfig.Proofs.Reader.Advance
import HexConfig.Proofs.Reader.Growth
import HexConfig.Proofs.Reader.Runs
import HexConfig.Proofs.Source.Expansion

/-!
# How reading something written turns out

The machine is given the tokens of a value whose references can be written out to a term that has a
value. Then one of two things happens (`State.Outcome`), and which one depends on the limits alone:
either the limits allow what the term nests and counts, the value is delivered, and the tally has grown
by just that; or they do not, and the machine stops at the fault of a limit that was exceeded.

So a reference is no different from its constant written out. It is measured by what was recorded when
the constant was published, and a record may have stopped at the greatest number; but `Records` says
that the record then is still large enough to do what the true measure would do to the count.
-/

namespace HexConfig.Reader

/-- The measures of a constant as they were recorded when `counted` values or fewer were counted. Its size
may be too small only where the count, with it, is at its end anyway, and its depth only where no limit
tells the two apart. -/
structure Measured (counted : Nat) (u : Term) (c : Constant) : Prop where
  depth : sumUpTo 0 c.depth = sumUpTo 0 u.nest
  size_le : c.size ≤ u.cost
  size : c.size = u.cost ∨ Limits.greatest ≤ counted + c.size

theorem Measured.mono {counted counted' : Nat} {u : Term} {c : Constant} (h : Measured counted u c)
    (hle : counted ≤ counted') : Measured counted' u c where
  depth := h.depth
  size_le := h.size_le
  size := h.size.imp_right fun hsize => Nat.le_trans hsize (Nat.add_le_add_right hle _)

/-- Charging what was recorded is charging what the constant counts. -/
theorem Measured.sumUpTo_size {counted nodes : Nat} {u : Term} {c : Constant}
    (h : Measured counted u c) (hle : counted ≤ nodes) :
    sumUpTo nodes c.size = sumUpTo nodes u.cost := by
  have hsize_le := h.size_le
  unfold sumUpTo
  rcases h.size with hsize | hsize
  · rw [hsize]
  · omega

/-- What was recorded reaches as deep as the constant nests. -/
theorem Measured.reach_depth {counted : Nat} {u : Term} {c : Constant} (h : Measured counted u c)
    (t : Tally) : t.reach c.depth = t.reach u.nest := by
  have hdepth := h.depth
  unfold sumUpTo at hdepth
  unfold Tally.reach sumUpTo
  omega

/-- A constant as it was recorded when `counted` values or fewer were counted. Its size may be too
small only where the count, with it, is at its end anyway. -/
structure Records (counted : Nat) (u : Term) (c : Constant) : Prop where
  value : u.value? = some c.value
  depth : c.depth = sumUpTo 0 u.nest
  size_le : c.size ≤ u.cost
  size : c.size = u.cost ∨ Limits.greatest ≤ counted + c.size

/-- The constants published are those declared, as they were recorded. -/
def Recorded (known : Entries Term) (constants : Constants) (counted : Nat) : Prop :=
  known.Related (Records counted) constants

theorem Records.measured {counted : Nat} {u : Term} {c : Constant} (h : Records counted u c) :
    Measured counted u c where
  depth := by
    rw [h.depth]
    unfold sumUpTo
    omega
  size_le := h.size_le
  size := h.size

theorem Records.mono {counted counted' : Nat} {u : Term} {c : Constant} (h : Records counted u c)
    (hle : counted ≤ counted') : Records counted' u c where
  value := h.value
  depth := h.depth
  size_le := h.size_le
  size := (h.measured.mono hle).size

theorem Recorded.mono {known : Entries Term} {constants : Constants} {counted counted' : Nat}
    (h : Recorded known constants counted) (hle : counted ≤ counted') :
    Recorded known constants counted' :=
  Entries.Related.mono h fun _ _ hrec => hrec.mono hle

namespace State

variable {limits : Limits} {s s₁ s₂ : State} {t : Token} {ts ts' rest : List Token} {ctx : Context}
  {nest cost nest' cost' : Nat}

/-! ## Outcomes -/

/-- How reading the row `ts` turns out, if it nests and counts so much: if the limits allow it the
machine comes to `s'`, and otherwise it stops because of them. -/
def Outcome (limits : Limits) (s : State) (ts : List Token) (nest cost : Nat) (s' : State) : Prop :=
  limits.Allow s.tally nest cost ∧ s.feed limits ts = .ok s' ∨
    ∃ stop, s.feed limits ts = .error stop ∧
      limits.Exceeded s.tally nest cost stop.diagnostic.fault

/-- A row is taken exactly if the limits allow what it nests and counts. -/
theorem Outcome.exists_feed_iff (h : Outcome limits s ts nest cost s₁) :
    (∃ s', s.feed limits ts = .ok s') ↔ limits.Allow s.tally nest cost := by
  rcases h with ⟨hallow, hfeed⟩ | ⟨stop, hfeed, hexceeded⟩
  · exact ⟨fun _ => hallow, fun _ => ⟨s₁, hfeed⟩⟩
  · constructor
    · rintro ⟨s', hok⟩
      rw [hfeed] at hok
      exact nomatch hok
    · intro hallow
      exact absurd hallow hexceeded.not_allow

/-- The state after the tokens of a row, with another tally. -/
def after (s : State) (ts : List Token) (tally : Tally) : State :=
  { s with tally := tally, log := (ts.map Event.consumed).reverse ++ s.log }

theorem after_after (s : State) (ts ts' : List Token) (tally tally' : Tally) :
    (s.after ts tally).after ts' tally' = s.after (ts ++ ts') tally' := by
  simp [after]

/-- What was awaited before a value does not matter once it is delivered. -/
theorem deliver_await (s : State) (awaiting : Awaiting) (v : Value) (ctx : Context) :
    (s.await awaiting).deliver v ctx = s.deliver v ctx := by
  obtain ⟨destination, frames⟩ := ctx
  cases frames with
  | nil => cases destination <;> rfl
  | cons f frames => cases f <;> rfl

/-- Two rows one after the other, where `kept` values of the first stay counted. -/
theorem Outcome.followed {kept : Nat} (h : Outcome limits s ts nest cost s₁)
    (hdepth : s₁.tally.depth = s.tally.depth) (hnodes : s₁.tally.nodes = sumUpTo s.tally.nodes kept)
    (h' : limits.Allow s.tally nest cost → Outcome limits s₁ ts' nest' cost' s₂) :
    Outcome limits s (ts ++ ts') (max nest nest') (max cost (kept + cost')) s₂ := by
  rcases h with ⟨hallow, hfeed⟩ | ⟨stop, hfeed, hexceeded⟩
  · rcases h' hallow with ⟨hallow', hfeed'⟩ | ⟨stop, hfeed', hexceeded⟩
    · exact .inl ⟨hallow.max hdepth hnodes hallow', (feed_append_of_ok hfeed).trans hfeed'⟩
    · exact .inr ⟨stop, (feed_append_of_ok hfeed).trans hfeed', hexceeded.max_right hdepth hnodes⟩
  · exact .inr ⟨_, feed_append_of_error hfeed, hexceeded.max_left⟩

/-- Two rows one after the other inside a value. -/
theorem Outcome.append (h : Outcome limits s ts nest cost s₁)
    (htally : s₁.tally = s.tally.grow nest cost)
    (h' : limits.Allow s.tally nest cost → Outcome limits s₁ ts' nest' cost' s₂) :
    Outcome limits s (ts ++ ts') (max nest nest') (cost + cost') s₂ := by
  have hdepth : s₁.tally.depth = s.tally.depth := by rw [htally, Tally.depth_grow]
  have hnodes : s₁.tally.nodes = sumUpTo s.tally.nodes cost := by rw [htally, Tally.nodes_grow]
  have hall := h.followed hdepth hnodes h'
  rwa [Nat.max_eq_right (Nat.le_add_right cost cost')] at hall

/-- Tokens that are taken and count nothing, in front. -/
theorem Outcome.prepend (hfeed : s.feed limits ts = .ok s₁) (hdepth : s₁.tally.depth = s.tally.depth)
    (hnodes : s₁.tally.nodes = s.tally.nodes) (h : Outcome limits s₁ ts' nest cost s₂) :
    Outcome limits s (ts ++ ts') nest cost s₂ := by
  unfold Outcome Limits.Allow Limits.Exceeded Tally.reach at h ⊢
  rwa [feed_append_of_ok hfeed, ← hdepth, ← hnodes]

/-- A token that is taken and counts nothing, behind. -/
theorem Outcome.concat (h : Outcome limits s ts nest cost s₁) (hstep : s₁.step limits t = .ok s₂) :
    Outcome limits s (ts ++ [t]) nest cost s₂ := by
  rcases h with ⟨hallow, hfeed⟩ | ⟨stop, hfeed, hexceeded⟩
  · refine .inl ⟨hallow, ?_⟩
    rw [feed_append_of_ok hfeed, feed_cons_of_ok hstep, feed]
  · exact .inr ⟨_, feed_append_of_error hfeed, hexceeded⟩

/-! ## Steps that count -/

theorem charge_cases (s : State) (limits : Limits) (n : Nat) (p : Position) :
    sumUpTo s.tally.nodes n ≤ limits.maxNodes ∧ s.charge limits n p = .ok (s.charged n) ∨
      limits.maxNodes < sumUpTo s.tally.nodes n ∧
        s.charge limits n p = .error (.failed ⟨.tooManyNodes limits.maxNodes, p⟩ (s.charged n)) := by
  rcases Nat.lt_or_ge limits.maxNodes (sumUpTo s.tally.nodes n) with h | h
  · exact .inr ⟨h, if_pos h⟩
  · exact .inl ⟨h, if_neg (Nat.not_lt_of_le h)⟩

theorem openContainer_cases (s : State) (limits : Limits) (p : Position) (inside : Awaiting) :
    (s.tally.depth < limits.maxDepth ∧ (s.tally.enter.charge 1).nodes ≤ limits.maxNodes ∧
      s.openContainer limits p inside = .ok (s.opened inside)) ∨
    (limits.maxDepth ≤ s.tally.depth ∧ s.openContainer limits p inside =
      .error (.failed ⟨.nestingTooDeep limits.maxDepth, p⟩ s)) ∨
    (limits.maxNodes < sumUpTo s.tally.nodes 1 ∧ ∃ s', s.openContainer limits p inside =
      .error (.failed ⟨.tooManyNodes limits.maxNodes, p⟩ s')) := by
  unfold openContainer enter
  by_cases hdepth : limits.maxDepth ≤ s.tally.depth
  · rw [if_pos hdepth]
    exact .inr (.inl ⟨hdepth, rfl⟩)
  · rw [if_neg hdepth]
    rcases charge_cases { s with tally := s.tally.enter } limits 1 p with ⟨hn, hc⟩ | ⟨hn, hc⟩
    · refine .inl ⟨Nat.lt_of_not_le hdepth, hn, ?_⟩
      show (charge limits 1 p { s with tally := s.tally.enter } >>= _) = _
      rw [hc]
      rfl
    · refine .inr (.inr ⟨hn, charged { s with tally := s.tally.enter } 1, ?_⟩)
      show (charge limits 1 p { s with tally := s.tally.enter } >>= _) = _
      rw [hc]
      rfl

/-- A reference to a constant that is recorded. -/
theorem refer_cases (limits : Limits) (p : Position) {name : Token} {c : Constant}
    (hc : s.constants.find? name.text = some c) (ctx : Context) :
    (s.tally.reach c.depth ≤ limits.maxDepth ∧ sumUpTo s.tally.nodes c.size ≤ limits.maxNodes ∧
      s.refer limits p name ctx = .ok ((s.spliced c).deliver c.value ctx)) ∨
    (limits.maxDepth < s.tally.reach c.depth ∧ s.refer limits p name ctx =
      .error (.failed ⟨.nestingTooDeep limits.maxDepth, p⟩ s)) ∨
    (limits.maxNodes < sumUpTo s.tally.nodes c.size ∧ ∃ s', s.refer limits p name ctx =
      .error (.failed ⟨.tooManyNodes limits.maxNodes, p⟩ s')) := by
  unfold refer
  rw [hc]
  by_cases hdepth : limits.maxDepth < s.tally.reach c.depth
  · exact .inr (.inl ⟨hdepth, if_pos hdepth⟩)
  · let s₁ : State := { s with tally := s.tally.splice c.depth }
    rcases charge_cases s₁ limits c.size p with ⟨hn, hcharge⟩ | ⟨hn, hcharge⟩
    · refine .inl ⟨Nat.le_of_not_lt hdepth, hn, (if_neg hdepth).trans ?_⟩
      show (charge limits c.size p s₁ >>= _) = _
      rw [hcharge]
      rfl
    · refine .inr (.inr ⟨hn, s₁.charged c.size, (if_neg hdepth).trans ?_⟩)
      show (charge limits c.size p s₁ >>= _) = _
      rw [hcharge]
      rfl

/-- A value that is one token and no container. -/
theorem outcome_scalar (hsteady : limits.Steady s.tally) (hroom : s.tally.depth ≤ Limits.greatest)
    {v : Value} (hstep : s.step limits t =
      (s.note (.consumed t)).charge limits 1 t.position >>= fun s => pure (s.deliver v ctx)) :
    Outcome limits s [t] 0 1 ((s.after [t] (s.tally.grow 0 1)).deliver v ctx) := by
  rcases charge_cases (s.note (.consumed t)) limits 1 t.position with ⟨hn, hc⟩ | ⟨hn, hc⟩
  · rw [hc] at hstep
    refine .inl ⟨⟨?_, hn⟩, ?_⟩
    · exact (hsteady.allow_zero hroom).1
    · rw [feed_cons_of_ok hstep, feed, ← hsteady.charge_eq_grow hroom]
      rfl
  · rw [hc] at hstep
    exact .inr ⟨_, feed_cons_of_failed hstep, Limits.exceeded_of_lt_nodes hn (Nat.le_refl 1)⟩

/-- A token that opens a container, and the row of what is inside. -/
theorem Outcome.open (hroom : s.tally.depth + 1 ≤ Limits.greatest) {p : Position} {inside : Awaiting}
    (hstep : s.step limits t = (s.note (.consumed t)).openContainer limits p inside)
    (h : limits.Steady (s.tally.enter.charge 1) →
      Outcome limits ((s.after [t] (s.tally.enter.charge 1)).await inside) ts nest cost s₂) :
    Outcome limits s (t :: ts) (nest + 1) (cost + 1) s₂ := by
  rcases openContainer_cases (s.note (.consumed t)) limits p inside with
    ⟨hd, hn, ho⟩ | ⟨hd, ho⟩ | ⟨hn, s', ho⟩
  · rw [ho] at hstep
    rcases h (Limits.steady_open hd hn) with ⟨hallow, hfeed⟩ | ⟨stop, hfeed, hexceeded⟩
    · exact .inl ⟨hallow.open, (feed_cons_of_ok hstep).trans hfeed⟩
    · exact .inr ⟨stop, (feed_cons_of_ok hstep).trans hfeed, hexceeded.open⟩
  · rw [ho] at hstep
    exact .inr ⟨_, feed_cons_of_failed hstep, Limits.exceeded_of_le_depth hroom hd nest (cost + 1)⟩
  · rw [ho] at hstep
    exact .inr ⟨_, feed_cons_of_failed hstep,
      Limits.exceeded_of_lt_nodes hn (Nat.le_add_left 1 cost)⟩

/-! ## Values -/

/-- A state in good order, with the constants that are known recorded and room for `size` more open
containers. -/
structure Prepared (limits : Limits) (known : Entries Term) (size : Nat) (s : State) : Prop where
  steady : limits.Steady s.tally
  recorded : Recorded known s.constants s.tally.nodes
  room : s.tally.depth + size ≤ Limits.greatest

variable {known : Entries Term} {size size' : Nat}

theorem Prepared.depth_le (h : s.Prepared limits known size) : s.tally.depth ≤ Limits.greatest :=
  Nat.le_trans (Nat.le_add_right _ _) h.room

/-- The state after something that the limits allow. -/
theorem Prepared.grow (h : s.Prepared limits known size) (hallow : limits.Allow s.tally nest cost)
    (htally : s₁.tally = s.tally.grow nest cost) (hconstants : s₁.constants = s.constants)
    (hsize : size' ≤ size) : s₁.Prepared limits known size' where
  steady := htally ▸ h.steady.grow hallow
  recorded := by
    have hle : s.tally.nodes ≤ s₁.tally.nodes := by
      rw [htally, Tally.nodes_grow]
      exact le_sumUpTo h.steady.nodes_le_greatest
    exact hconstants ▸ h.recorded.mono hle
  room := by
    rw [htally, Tally.depth_grow]
    exact Nat.le_trans (Nat.add_le_add_left hsize _) h.room

/-- The state inside a container. -/
theorem Prepared.open (h : s.Prepared limits known (size + 1))
    (hsteady : limits.Steady (s.tally.enter.charge 1)) (htally : s₁.tally = s.tally.enter.charge 1)
    (hconstants : s₁.constants = s.constants) (hsize : size' ≤ size) :
    s₁.Prepared limits known size' where
  steady := htally ▸ hsteady
  recorded := by
    have hle : s.tally.nodes ≤ s₁.tally.nodes := by
      rw [htally]
      exact le_sumUpTo h.steady.nodes_le_greatest
    exact hconstants ▸ h.recorded.mono hle
  room := by
    have hroom := h.room
    rw [htally]
    show s.tally.depth + 1 + size' ≤ Limits.greatest
    omega

/-- The same state as far as preparation goes. -/
theorem Prepared.congr (h : s.Prepared limits known size) (htally : s₁.tally = s.tally)
    (hconstants : s₁.constants = s.constants) (hsize : size' ≤ size) :
    s₁.Prepared limits known size' where
  steady := htally ▸ h.steady
  recorded := by rw [htally, hconstants]; exact h.recorded
  room := by
    rw [htally]
    exact Nat.le_trans (Nat.add_le_add_left hsize _) h.room

/-- The token of the first word of a row, and the rest. -/
theorem tokens_of_words {w : Word} {ws : List Word} (h : ts.map Token.word = w :: ws) :
    ∃ t ts', ts = t :: ts' ∧ t.kind = w.1 ∧ t.text = w.2 ∧ ts'.map Token.word = ws := by
  obtain ⟨t, ts', rfl, rfl, rfl⟩ := List.map_eq_cons_iff.mp h
  exact ⟨t, ts', rfl, rfl, rfl, rfl⟩

/-- The first token of a value. -/
theorem step_of_forValue (h : s.ForValue ctx) (hkind : t.kind ≠ .rightParen) :
    s.step limits t = (s.note (.consumed t)).beginValue limits t ctx := by
  rcases h with hawait | ⟨items, outer, hawait, rfl⟩
  · simp only [step, note, hawait]
  · simp only [step, note, hawait, insideArray, if_neg hkind]

/-- The mark of an array. -/
theorem feed_arrayHead (hctx : s.ForValue ctx) (hkind : t.kind = .hash) :
    s.feed limits [t] = .ok ((s.after [t] s.tally).await (.arrayParen t.position ctx)) := by
  have hstep : s.step limits t = .ok ((s.after [t] s.tally).await (.arrayParen t.position ctx)) := by
    rw [step_of_forValue hctx (by rw [hkind]; nofun), beginValue, hkind]
    rfl
  rw [feed_cons_of_ok hstep, feed]

/-- A reference up to its name. -/
theorem feed_referenceHead {question bracket name : Token} (hctx : s.ForValue ctx)
    (hquestion : question.kind = .question) (hbracket : bracket.kind = .leftBracket)
    (hname : name.kind = .identifier) :
    s.feed limits [question, bracket, name] = .ok ((s.after [question, bracket, name] s.tally).await
      (.referenceEnd question.position name ctx)) := by
  have hstep : s.step limits question =
      .ok ((s.after [question] s.tally).await (.referenceBracket question.position ctx)) := by
    rw [step_of_forValue hctx (by rw [hquestion]; nofun), beginValue, hquestion]
    rfl
  rw [feed_cons_of_ok hstep]
  simp only [feed, step, await, note, require, if_pos hbracket, if_pos hname]
  rfl

/-- A name in an object and the sign behind it. -/
theorem feed_keyHead {key equals : Token} {before : Entries Value}
    (hawait : s.awaiting = .key before ctx) (hkey : key.kind = .identifier)
    (hequals : equals.kind = .equals) :
    s.feed limits [key, equals] = .ok ((s.after [key, equals] s.tally).await
      (.value (ctx.within (.mapping before key.text)))) := by
  simp only [feed, step, note, hawait, insideObject, hkey, await, require, if_pos hequals]
  rfl

/-- The token that closes an object. -/
theorem step_of_rightBrace {entries : Entries Value} (hawait : s.awaiting = .key entries ctx)
    (hkind : t.kind = .rightBrace) :
    s.step limits t = .ok ((s.note (.consumed t)).leave.deliver (.mapping entries) ctx) := by
  simp only [step, note, hawait, insideObject, hkind]
  rfl

/-! ### References -/

/-- The last token of a reference, whose constant is `c`. -/
theorem outcome_referenceEnd {question : Position} {name : Token} {u : Term} {c : Constant}
    (hawait : s.awaiting = .referenceEnd question name ctx) (hkind : t.kind = .rightBracket)
    (hc : s.constants.find? name.text = some c) (hrec : Records s.tally.nodes u c) :
    Outcome limits s [t] u.nest u.cost
      ((s.after [t] (s.tally.grow u.nest u.cost)).deliver c.value ctx) := by
  have hstep : s.step limits t = (s.note (.consumed t)).refer limits question name ctx := by
    simp only [step, note, hawait, require, if_pos hkind]
    rfl
  have htally : (s.tally.splice c.depth).charge c.size = s.tally.grow u.nest u.cost := by
    show Tally.mk s.tally.depth (max s.tally.peak (s.tally.reach c.depth))
      (sumUpTo s.tally.nodes c.size) = s.tally.grow u.nest u.cost
    rw [hrec.measured.reach_depth, hrec.measured.sumUpTo_size (Nat.le_refl _)]
    rfl
  have hcases := refer_cases (s := s.note (.consumed t)) limits question hc ctx
  rw [show (s.note (.consumed t)).tally = s.tally from rfl, hrec.measured.reach_depth,
    hrec.measured.sumUpTo_size (Nat.le_refl _)] at hcases
  rcases hcases with ⟨hdepth, hn, hrefer⟩ | ⟨hdepth, hrefer⟩ | ⟨hn, _, hrefer⟩
  · refine .inl ⟨⟨hdepth, hn⟩, ?_⟩
    rw [feed_cons_of_ok (hstep.trans hrefer), feed, ← htally]
    rfl
  · exact .inr ⟨_, feed_cons_of_failed (hstep.trans hrefer), .inl ⟨rfl, hdepth⟩⟩
  · exact .inr ⟨_, feed_cons_of_failed (hstep.trans hrefer), .inr ⟨rfl, hn⟩⟩

/-- The reference to a constant counts and nests what the constant written out does. -/
theorem outcome_reference {name : String} {u : Term} {v : Value} (hu : known.find? name = some u)
    (hv : u.value? = some v) (hts : ts.map Token.word = (Term.reference name).words)
    (hctx : s.ForValue ctx) (h : s.Prepared limits known size) :
    Outcome limits s ts u.nest u.cost
      ((s.after ts (s.tally.grow u.nest u.cost)).deliver v ctx) := by
  obtain ⟨c, hc, hrec⟩ := Entries.Related.exists_right h.recorded hu
  obtain rfl : c.value = v := Option.some.inj (hrec.value.symm.trans hv)
  obtain ⟨t₁, ts, rfl, hk₁, -, hts⟩ := tokens_of_words hts
  obtain ⟨t₂, ts, rfl, hk₂, -, hts⟩ := tokens_of_words hts
  obtain ⟨t₃, ts, rfl, hk₃, hname, hts⟩ := tokens_of_words hts
  obtain ⟨t₄, ts, rfl, hk₄, -, hts⟩ := tokens_of_words hts
  obtain rfl := List.map_eq_nil_iff.mp hts
  have hend : Outcome limits ((s.after [t₁, t₂, t₃] s.tally).await (.referenceEnd t₁.position t₃ ctx))
      [t₄] u.nest u.cost _ :=
    outcome_referenceEnd rfl hk₄ (hname ▸ hc) hrec
  rw [← deliver_await _ (.referenceEnd t₁.position t₃ ctx)]
  exact .prepend (feed_referenceHead hctx hk₁ hk₂ hk₃) rfl rfl hend

/-! ### All values -/

/-- Nothing, where an item or a name may follow. -/
theorem outcome_nil {awaiting : Awaiting} (h : s.Prepared limits known size)
    (hawait : s.awaiting = awaiting) :
    Outcome limits s [] 0 0 ((s.after [] (s.tally.grow 0 0)).await awaiting) := by
  refine .inl ⟨h.steady.allow_zero h.depth_le, ?_⟩
  rw [feed, h.steady.grow_zero h.depth_le, ← hawait]
  rfl

/-- A container, from the token that opens it to the one that closes it. The machine awaits `inside`
behind the one and `closing` before the other. -/
theorem outcome_container {p : Position} {inside closing : Awaiting} {v : Value} {last : Token}
    (hroom : s.tally.depth + 1 ≤ Limits.greatest)
    (hopen : s.step limits t = (s.note (.consumed t)).openContainer limits p inside)
    (hclose : ∀ s' : State, s'.awaiting = closing →
      s'.step limits last = .ok ((s'.note (.consumed last)).leave.deliver v ctx))
    (h : limits.Steady (s.tally.enter.charge 1) →
      Outcome limits ((s.after [t] (s.tally.enter.charge 1)).await inside) ts nest cost
        ((((s.after [t] (s.tally.enter.charge 1)).await inside).after ts
          ((s.tally.enter.charge 1).grow nest cost)).await closing)) :
    Outcome limits s (t :: (ts ++ [last])) (nest + 1) (cost + 1)
      ((s.after (t :: (ts ++ [last])) (s.tally.grow (nest + 1) (cost + 1))).deliver v ctx) := by
  refine Outcome.open hroom hopen fun hsteady => ?_
  have hall := (h hsteady).concat (hclose _ rfl)
  rw [← Limits.leave_grow_open hroom, ← deliver_await _ closing]
  have hstate : (((((s.after [t] (s.tally.enter.charge 1)).await inside).after ts
      ((s.tally.enter.charge 1).grow nest cost)).await closing).note (.consumed last)).leave =
      (s.after (t :: (ts ++ [last])) ((s.tally.enter.charge 1).grow nest cost).leave).await closing := by
    simp [after, await, note, leave]
  rwa [hstate] at hall

/-- An array, if its items turn out. -/
theorem outcome_array {hash paren last : Token} {vs : List Value} (hctx : s.ForValue ctx)
    (hhash : hash.kind = .hash) (hparen : paren.kind = .leftParen) (hlast : last.kind = .rightParen)
    (hroom : s.tally.depth + 1 ≤ Limits.greatest)
    (h : limits.Steady (s.tally.enter.charge 1) →
      Outcome limits ((s.after [hash, paren] (s.tally.enter.charge 1)).await (.item [] ctx)) ts
        nest cost ((((s.after [hash, paren] (s.tally.enter.charge 1)).await (.item [] ctx)).after ts
          ((s.tally.enter.charge 1).grow nest cost)).await (.item (vs.reverse ++ []) ctx))) :
    Outcome limits s (hash :: paren :: (ts ++ [last])) (nest + 1) (cost + 1)
      ((s.after (hash :: paren :: (ts ++ [last])) (s.tally.grow (nest + 1) (cost + 1))).deliver
        (.sequence vs) ctx) := by
  let s₁ := (s.after [hash] s.tally).await (.arrayParen hash.position ctx)
  have hopen : s₁.step limits paren =
      (s₁.note (.consumed paren)).openContainer limits hash.position (.item [] ctx) := by
    simp only [s₁, step, await, note, require, if_pos hparen]
    rfl
  have hclose (s' : State) (hawait : s'.awaiting = .item (vs.reverse ++ []) ctx) :
      s'.step limits last = .ok ((s'.note (.consumed last)).leave.deliver (.sequence vs) ctx) := by
    rw [List.append_nil] at hawait
    simp only [step, note, hawait, insideArray, if_pos hlast, List.reverse_reverse]
    rfl
  have hinside : Outcome limits s₁ (paren :: (ts ++ [last])) (nest + 1) (cost + 1)
      ((s₁.after (paren :: (ts ++ [last])) (s.tally.grow (nest + 1) (cost + 1))).deliver
        (.sequence vs) ctx) := outcome_container hroom hopen hclose h
  have hstate : s₁.after (paren :: (ts ++ [last])) (s.tally.grow (nest + 1) (cost + 1)) =
      (s.after (hash :: paren :: (ts ++ [last])) (s.tally.grow (nest + 1) (cost + 1))).await
        (.arrayParen hash.position ctx) := by
    simp [s₁, after, await]
  rw [← deliver_await _ (.arrayParen hash.position ctx), ← hstate]
  exact .prepend (feed_arrayHead hctx hhash) rfl rfl hinside

mutual

/-- How a value turns out, whatever container or declaration it is for. -/
theorem outcome_term : ∀ {x u : Term} {v : Value}, x.expand? known = some u → u.value? = some v →
    ∀ {s : State} {ts : List Token} {ctx : Context}, ts.map Token.word = x.words →
      s.ForValue ctx → s.Prepared limits known x.words.length →
      Outcome limits s ts u.nest u.cost
        ((s.after ts (s.tally.grow u.nest u.cost)).deliver v ctx)
  | .number digits, _, _, hx, hv, s, ts, ctx, hts, hctx, h => by
    cases hx
    obtain ⟨n, hn, rfl⟩ := Option.map_eq_some_iff.mp hv
    obtain ⟨t, ts, rfl, hkind, htext, hnil⟩ := tokens_of_words hts
    obtain rfl := List.map_eq_nil_iff.mp hnil
    obtain rfl : t.text = digits := htext
    refine outcome_scalar h.steady h.depth_le ?_
    rw [step_of_forValue hctx (by rw [hkind]; nofun), beginValue, hkind]
    simp only [number, decode_eq_ok_iff.mpr hn]
  | .string text, _, _, hx, hv, s, ts, ctx, hts, hctx, h => by
    cases hx
    cases hv
    obtain ⟨t, ts, rfl, hkind, htext, hnil⟩ := tokens_of_words hts
    obtain rfl := List.map_eq_nil_iff.mp hnil
    obtain rfl : t.text = text := htext
    refine outcome_scalar h.steady h.depth_le ?_
    rw [step_of_forValue hctx (by rw [hkind]; nofun), beginValue, hkind]
    rfl
  | .reference name, _, _, hx, hv, _, _, _, hts, hctx, h => outcome_reference hx hv hts hctx h
  | .array items, _, _, hx, hv, s, ts, ctx, hts, hctx, h => by
    obtain ⟨us, hus, rfl⟩ := Term.expand?_array_eq_some.mp hx
    obtain ⟨vs, hvs, rfl⟩ := Term.value?_array_eq_some.mp hv
    obtain ⟨t₁, ts, rfl, hk₁, -, hts⟩ := tokens_of_words hts
    obtain ⟨t₂, ts, rfl, hk₂, -, hts⟩ := tokens_of_words hts
    obtain ⟨ts, last, rfl, hitems, hlast⟩ := List.map_eq_append_iff.mp hts
    obtain ⟨t₃, last, rfl, hk₃, -, hnil⟩ := tokens_of_words hlast
    obtain rfl := List.map_eq_nil_iff.mp hnil
    have hsize : (Term.array items).words.length = (Term.wordsOfItems items).length + 2 + 1 := by
      simp [Term.words]
    rw [hsize] at h
    have hroom : s.tally.depth + 1 ≤ Limits.greatest := by have := h.room; omega
    exact outcome_array hctx hk₁ hk₂ hk₃ hroom fun hsteady => outcome_items hus hvs hitems rfl
      (h.open hsteady rfl rfl (Nat.le_succ_of_le (Nat.le_succ _)))
  | .object entries, _, _, hx, hv, s, ts, ctx, hts, hctx, h => by
    obtain ⟨us, hus, rfl⟩ := Term.expand?_object_eq_some.mp hx
    obtain ⟨vs, hvs, rfl⟩ := Term.value?_object_eq_some.mp hv
    obtain ⟨t₁, ts, rfl, hk₁, -, hts⟩ := tokens_of_words hts
    obtain ⟨ts, last, rfl, hentries, hlast⟩ := List.map_eq_append_iff.mp hts
    obtain ⟨t₂, last, rfl, hk₂, -, hnil⟩ := tokens_of_words hlast
    obtain rfl := List.map_eq_nil_iff.mp hnil
    have hsize : (Term.object entries).words.length = (Term.wordsOfEntries entries).length + 1 + 1 := by
      simp [Term.words]
    rw [hsize] at h
    have hroom : s.tally.depth + 1 ≤ Limits.greatest := by have := h.room; omega
    have hstep₁ : s.step limits t₁ =
        (s.note (.consumed t₁)).openContainer limits t₁.position (.key [] ctx) := by
      rw [step_of_forValue hctx (by rw [hk₁]; nofun), beginValue, hk₁]
    exact outcome_container hroom hstep₁ (fun _ hawait => step_of_rightBrace hawait hk₂)
      fun hsteady => outcome_entries hus hvs hentries rfl (h.open hsteady rfl rfl (Nat.le_succ _))

theorem outcome_items : ∀ {xs us : List Term} {vs : List Value},
    Term.expandItems? known xs = some us → Term.itemsOf? us = some vs →
    ∀ {s : State} {ts : List Token} {before : List Value} {ctx : Context},
      ts.map Token.word = Term.wordsOfItems xs → s.awaiting = .item before ctx →
      s.Prepared limits known (Term.wordsOfItems xs).length →
      Outcome limits s ts (Term.nestOfItems us) (Term.costOfItems us)
        ((s.after ts (s.tally.grow (Term.nestOfItems us) (Term.costOfItems us))).await
          (.item (vs.reverse ++ before) ctx))
  | [], _, _, hxs, hvs, s, ts, before, ctx, hts, hawait, h => by
    cases hxs
    cases hvs
    obtain rfl := List.map_eq_nil_iff.mp hts
    exact outcome_nil h hawait
  | x :: xs, _, _, hxs, hvs, s, ts, before, ctx, hts, hawait, h => by
    obtain ⟨u, us, hu, hus, rfl⟩ := Term.expandItems?_cons_eq_some.mp hxs
    obtain ⟨v, vs, hv, hvs', rfl⟩ := Term.itemsOf?_cons_eq_some.mp hvs
    obtain ⟨ts₁, ts₂, rfl, hts₁, hts₂⟩ := List.map_eq_append_iff.mp hts
    rw [Term.wordsOfItems, List.length_append] at h
    have hfirst := outcome_term hu hv hts₁ (.inr ⟨before, ctx, hawait, rfl⟩)
      (h.congr rfl rfl (Nat.le_add_right _ _))
    rw [Term.nestOfItems, Term.costOfItems, ← Tally.grow_grow,
      ← after_after s ts₁ ts₂ (s.tally.grow u.nest u.cost), List.reverse_cons, List.append_assoc]
    exact hfirst.append rfl fun hallow => outcome_items hus hvs' hts₂ rfl
      (h.grow hallow rfl rfl (Nat.le_add_left _ _))

theorem outcome_entries : ∀ {xs us : List (String × Term)} {before vs : Entries Value},
    Term.expandEntries? known xs = some us → Term.entriesOf? before us = some vs →
    ∀ {s : State} {ts : List Token} {ctx : Context},
      ts.map Token.word = Term.wordsOfEntries xs → s.awaiting = .key before ctx →
      s.Prepared limits known (Term.wordsOfEntries xs).length →
      Outcome limits s ts (Term.nestOfEntries us) (Term.costOfEntries us)
        ((s.after ts (s.tally.grow (Term.nestOfEntries us) (Term.costOfEntries us))).await
          (.key vs ctx))
  | [], _, _, _, hxs, hvs, s, ts, ctx, hts, hawait, h => by
    cases hxs
    cases hvs
    obtain rfl := List.map_eq_nil_iff.mp hts
    exact outcome_nil h hawait
  | (k, x) :: xs, _, before, vs, hxs, hvs, s, ts, ctx, hts, hawait, h => by
    obtain ⟨u, us, hu, hus, rfl⟩ := Term.expandEntries?_cons_eq_some.mp hxs
    obtain ⟨v, hv, hvs'⟩ := Term.entriesOf?_cons_eq_some.mp hvs
    obtain ⟨t₁, ts, rfl, hk₁, hkey, hts⟩ := tokens_of_words hts
    obtain ⟨t₂, ts, rfl, hk₂, -, hts⟩ := tokens_of_words hts
    obtain ⟨ts₁, ts₂, rfl, hts₁, hts₂⟩ := List.map_eq_append_iff.mp hts
    obtain rfl : t₁.text = k := hkey
    rw [show (Term.wordsOfEntries ((t₁.text, x) :: xs)).length =
      x.words.length + (Term.wordsOfEntries xs).length + 2 by simp [Term.wordsOfEntries]] at h
    have hprepared : Prepared limits known x.words.length ((s.after [t₁, t₂] s.tally).await
        (.value (ctx.within (.mapping before t₁.text)))) := h.congr rfl rfl (by omega)
    have hfirst := outcome_term hu hv hts₁ (.inl rfl) hprepared
    rw [Term.nestOfEntries, Term.costOfEntries, ← Tally.grow_grow,
      show t₁ :: t₂ :: (ts₁ ++ ts₂) = [t₁, t₂] ++ (ts₁ ++ ts₂) from rfl,
      ← after_after s [t₁, t₂] (ts₁ ++ ts₂) s.tally,
      ← after_after _ ts₁ ts₂ (s.tally.grow u.nest u.cost)]
    refine Outcome.prepend (feed_keyHead hawait hk₁ hk₂) rfl rfl (hfirst.append rfl fun hallow => ?_)
    exact outcome_entries hus hvs' hts₂ rfl (h.grow hallow rfl rfl (by omega))

end

/-- The checks at a reference, made in one step, come to what reading the constant written out in its
place would come to: the one is taken exactly if the other is. -/
theorem exists_feed_reference_iff {name : String} {u : Term} {v : Value}
    (hu : known.find? name = some u) (hclosed : u.Closed) (hv : u.value? = some v)
    (hts : ts.map Token.word = (Term.reference name).words) (hts' : ts'.map Token.word = u.words)
    (hctx : s.ForValue ctx) (h : s.Prepared limits known u.words.length) :
    (∃ s', s.feed limits ts = .ok s') ↔ ∃ s', s.feed limits ts' = .ok s' := by
  have hreference := outcome_reference hu hv hts hctx h
  have hwritten := outcome_term (u.expand?_of_closed known hclosed) hv hts' hctx h
  rw [hreference.exists_feed_iff, hwritten.exists_feed_iff]

end State

end HexConfig.Reader
