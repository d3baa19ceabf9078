import HexConfig.Proofs.Reader.Accounts
import HexConfig.Proofs.Reader.Prefix

/-!
# The value that is at fault

A fault that is none of the grammar is raised while a value is begun: at its first token, or, for an array and
for a reference, at the last of the tokens it starts with. The machine stood then where the value could start
(`exists_start`), and what it held against the limits, looked up and decoded is what is wrong with the value by
what is written before it (`offends_of_failed`). The other way round, where the machine went on to another
value, nothing was wrong with the one before (`passes_of_feed`).
-/

namespace HexConfig.Reader

/-! ## Places -/

/-- The words around a place for a value are those of an opening. -/
theorem Context.Wraps.exists_opening {known : Entries Term} {ctx : Context} {ws : List Word}
    (h : ctx.Wraps known ws) : ∃ o : Opening, o.words = ws ∧ (o = .block → ctx = ⟨.block, []⟩) := by
  induction h with
  | global name before => exact ⟨.global name, rfl, nofun⟩
  | entry key => exact ⟨.entry key, rfl, nofun⟩
  | block => exact ⟨.block, rfl, fun _ => rfl⟩
  | @sequence d fs ws ts us vs _ _ _ _ ih =>
    obtain ⟨o, rfl, -⟩ := ih
    exact ⟨.item o ts, rfl, nofun⟩
  | @mapping d fs ws es us vs key _ _ _ ih =>
    obtain ⟨o, rfl, -⟩ := ih
    exact ⟨.field o es key, rfl, nofun⟩

namespace State

variable {limits : Limits} {s s₁ s' : State} {t : Token} {used rest : List Token} {ctx : Context}
  {d : Diagnostic}

/-- Where the machine stands before a value, what it has taken leads to a place for the value. -/
theorem exists_place {k : Token.Kind} (hfeed : (start [] .zero).feed limits used = .ok s)
    (hproper : ∀ t ∈ used, Word.Proper t.word) (h : s.Admits k) :
    ∃ pl : Place, used.map Token.word = pl.words ∧ pl.opening.Admits k := by
  obtain ⟨p, q, ws, -, hfollows, hwords⟩ := read_of_feed hfeed hproper (read_start .zero)
  rw [List.nil_append] at hwords
  rcases h with ⟨⟨ctx, hctx⟩, hk⟩ | ⟨hawait, rfl⟩
  · obtain ⟨hany, hwraps⟩ := hctx.wraps hfollows
    obtain ⟨o, rfl, ho⟩ := hwraps.exists_opening
    exact ⟨⟨p, o⟩, hwords, Opening.admits_of_ne_block (fun hblock => hany (ho hblock)) hk⟩
  · rw [hawait] at hfollows
    obtain rfl : ws = [] := hfollows
    exact ⟨⟨p, .block⟩, hwords, rfl⟩

/-! ## Where a fault is raised -/

/-- The ways in which a token that fits stops the machine: as the first token of a value, as that of a block
by itself, or as the last of the tokens that an array or a reference starts with. -/
inductive Stalls (limits : Limits) (s : State) (t : Token) (d : Diagnostic) (s' : State) : Prop
  | value {ctx : Context} : s.ForValue ctx → s.beginValue limits t ctx = .error (.failed d s') →
      Stalls limits s t d s'
  | block {inside : Awaiting} : s.awaiting = .declaration → t.kind = .leftBrace →
      s.openContainer limits t.position inside = .error (.failed d s') → Stalls limits s t d s'
  | array {hash : Position} {ctx : Context} {inside : Awaiting} : s.awaiting = .arrayParen hash ctx →
      t.kind = .leftParen → s.openContainer limits hash inside = .error (.failed d s') →
      Stalls limits s t d s'
  | reference {question : Position} {name : Token} {ctx : Context} :
      s.awaiting = .referenceEnd question name ctx → t.kind = .rightBracket →
      s.refer limits question name ctx = .error (.failed d s') → Stalls limits s t d s'

theorem stalls_of_step (h : s.step limits t = .error (.failed d s')) :
    Stalls limits (s.note (.consumed t)) t d s' := by
  unfold step at h
  generalize s.note (.consumed t) = s₁ at h ⊢
  simp only at h
  split at h
  · next hawait =>
    unfold beginDeclaration at h
    split at h
    · exact nomatch h
    · exact nomatch h
    · next hkind => exact .block hawait hkind h
    · exact nomatch h
  · exact absurd h map_require_ne_failed
  · exact absurd h map_require_ne_failed
  · exact absurd h map_require_ne_failed
  · next hawait => exact .value (.inl hawait) h
  · next hawait =>
    rcases bind_eq_error_iff.mp h with h | ⟨_, hreq, h⟩
    · exact absurd h require_ne_failed
    · obtain ⟨hkind, rfl⟩ := require_eq_ok_iff.mp hreq
      exact .array hawait hkind h
  · next items ctx hawait =>
    unfold insideArray at h
    split at h
    · exact nomatch h
    · exact .value (.inr ⟨items, ctx, hawait, rfl⟩) h
  · unfold insideObject at h
    split at h
    · exact nomatch h
    · exact nomatch h
    · exact nomatch h
  · exact absurd h map_require_ne_failed
  · exact absurd h map_require_ne_failed
  · exact absurd h map_require_ne_failed
  · next hawait =>
    rcases bind_eq_error_iff.mp h with h | ⟨_, hreq, h⟩
    · exact absurd h require_ne_failed
    · obtain ⟨hkind, rfl⟩ := require_eq_ok_iff.mp hreq
      exact .reference hawait hkind h

/-- What the token before must have been, where an array or a reference has begun. -/
def Begun (s : State) (t : Token) : Awaiting → Prop
  | .arrayParen hash ctx => s.ForValue ctx ∧ t.kind = .hash ∧ t.position = hash
  | .referenceBracket question ctx => s.ForValue ctx ∧ t.kind = .question ∧ t.position = question
  | .referenceName question ctx => s.awaiting = .referenceBracket question ctx ∧ t.kind = .leftBracket
  | .referenceEnd question name ctx =>
    s.awaiting = .referenceName question ctx ∧ t.kind = .identifier ∧ t = name
  | _ => True

theorem begun_deliver (s s₁ : State) (t : Token) (v : Value) (ctx : Context) :
    Begun s t (s₁.deliver v ctx).awaiting := by
  obtain ⟨destination, frames⟩ := ctx
  cases frames with
  | nil => cases destination <;> trivial
  | cons f frames => cases f <;> trivial

theorem begun_of_step (h : s.step limits t = .ok s₁) : Begun s t s₁.awaiting := by
  cases advance_of_step h with
  | number => exact begun_deliver s _ t _ _
  | text => exact begun_deliver s _ t _ _
  | arrayEnd => exact begun_deliver s _ t _ _
  | objectEnd => exact begun_deliver s _ t _ _
  | referenceEnd => exact begun_deliver s _ t _ _
  | hash hctx hkind => exact ⟨hctx, hkind, rfl⟩
  | question hctx hkind => exact ⟨hctx, hkind, rfl⟩
  | referenceBracket hawait hkind => exact ⟨hawait, hkind⟩
  | referenceName hawait hkind => exact ⟨hawait, hkind, rfl⟩
  | _ => trivial

/-- Away from where it started, the machine has taken a last token. -/
theorem exists_last (hfeed : (start [] .zero).feed limits used = .ok s)
    (hawait : s.awaiting ≠ .declaration) :
    ∃ used' t s', used = used' ++ [t] ∧ (start [] .zero).feed limits used' = .ok s' ∧
      s'.step limits t = .ok s := by
  rcases List.eq_nil_or_concat used with rfl | ⟨used', t, rfl⟩
  · cases hfeed
    exact absurd rfl hawait
  · rw [List.concat_eq_append] at hfeed ⊢
    obtain ⟨s', hfeed', hlast⟩ := feed_append_eq_ok_iff.mp hfeed
    exact ⟨used', t, s', rfl, hfeed', feed_singleton_eq_ok_iff.mp hlast⟩

/-! ## What is wrong -/

variable {pl : Place} {known : Entries Term} {count cost : Nat}

theorem At.sumUpTo_nodes (h : s.At pl known count) (k : Nat) :
    sumUpTo s.tally.nodes k = sumUpTo count k := by
  rw [h.nodes, sumUpTo_sumUpTo, sumUpTo_zero_add]

theorem At.offends_nodes (h : s.At pl known count) (hadds : pl.Adds (t :: rest) cost)
    (hnodes : limits.maxNodes < sumUpTo s.tally.nodes cost) :
    pl.Offends limits (t :: rest) ⟨.tooManyNodes limits.maxNodes, t.position⟩ := by
  rw [h.sumUpTo_nodes, lt_sumUpTo_iff] at hnodes
  exact .tooManyNodes hadds h.count_eq hnodes.1 hnodes.2

/-- A value is counted that is one by itself. -/
theorem At.offends_charge (h : s.At pl known count) (hadds : pl.Adds (t :: rest) 1)
    (htally : s₁.tally = s.tally)
    (hfail : s₁.charge limits 1 t.position = .error (.failed d s')) :
    pl.Offends limits (t :: rest) d := by
  rcases charge_cases s₁ limits 1 t.position with ⟨-, hcharge⟩ | ⟨hnodes, hcharge⟩
  · rw [hcharge] at hfail
    exact nomatch hfail
  · rw [hcharge] at hfail
    cases hfail
    rw [htally] at hnodes
    exact h.offends_nodes hadds hnodes

/-- A container is opened. -/
theorem At.offends_open (h : s.At pl known count) (hopens : Opens (t :: rest))
    (htally : s₁.tally = s.tally) {inside : Awaiting}
    (hfail : s₁.openContainer limits t.position inside = .error (.failed d s')) :
    pl.Offends limits (t :: rest) d := by
  rcases openContainer_cases s₁ limits t.position inside with
    ⟨-, -, hopen⟩ | ⟨hdepth, hopen⟩ | ⟨hnodes, _, hopen⟩
  · rw [hopen] at hfail
    exact nomatch hfail
  · rw [hopen] at hfail
    cases hfail
    rw [htally, h.depth] at hdepth
    exact .opensTooDeep hopens (Nat.lt_succ_of_le hdepth)
  · rw [hopen] at hfail
    cases hfail
    rw [htally] at hnodes
    exact h.offends_nodes (.container hopens) hnodes

/-- The first token of a value stops the machine. -/
theorem At.offends_beginValue (h : s.At pl known count) (htally : s₁.tally = s.tally)
    (hfail : s₁.beginValue limits t ctx = .error (.failed d s')) : pl.Offends limits (t :: rest) d := by
  unfold beginValue at hfail
  split at hfail
  · next hkind =>
    rcases bind_eq_error_iff.mp hfail with hcharge | ⟨_, -, hdecode⟩
    · exact h.offends_charge (.number hkind) htally hcharge
    · unfold decode at hdecode
      by_cases hempty : t.text = ""
      · rw [if_pos hempty] at hdecode
        cases hdecode
        exact .invalidNumber hkind hempty
      · rw [if_neg hempty] at hdecode
        by_cases hfits : Hex.value t.text.toList < Integer.signedBound
        · rw [if_pos hfits] at hdecode
          exact nomatch hdecode
        · rw [if_neg hfits] at hdecode
          cases hdecode
          exact .numericOverflow hkind (Nat.le_of_not_lt hfits)
  · next hkind =>
    rcases bind_eq_error_iff.mp hfail with hcharge | ⟨_, -, hdeliver⟩
    · exact h.offends_charge (.text hkind) htally hcharge
    · exact nomatch hdeliver
  · exact nomatch hfail
  · exact nomatch hfail
  · next hkind => exact h.offends_open (.object hkind) htally hfail
  · exact nomatch hfail

/-- A reference is looked up, and what was recorded is held against the limits. -/
theorem At.offends_refer (h : s.At pl known count) {name : Token} (hrefers : Refers (t :: rest) name)
    (htally : s₁.tally = s.tally) (hconstants : s₁.constants = s.constants)
    (hfail : s₁.refer limits t.position name ctx = .error (.failed d s')) :
    pl.Offends limits (t :: rest) d := by
  cases hc : s₁.constants.find? name.text with
  | none =>
    unfold refer at hfail
    rw [hc] at hfail
    cases hfail
    rw [hconstants] at hc
    refine .unknownConstant hrefers fun x hx => ?_
    obtain ⟨u, hu⟩ := (Place.exists_find?_iff h.known_eq name.text).mpr ⟨x, hx⟩
    obtain ⟨c, hfound, -⟩ := Entries.Related.exists_right h.accounted hu
    rw [hc] at hfound
    exact nomatch hfound
  | some c =>
    obtain ⟨u, hu, hmeasured⟩ := Entries.Related.exists_left h.accounted (hconstants ▸ hc)
    rcases refer_cases limits t.position hc ctx with
      ⟨-, -, hrefer⟩ | ⟨hdepth, hrefer⟩ | ⟨hnodes, _, hrefer⟩
    · rw [hrefer] at hfail
      exact nomatch hfail
    · rw [hrefer] at hfail
      cases hfail
      rw [htally, hmeasured.reach_depth, Tally.reach, h.depth, lt_sumUpTo_iff] at hdepth
      exact .refersTooDeep hrefers h.known_eq hu hdepth.1 hdepth.2
    · rw [hrefer] at hfail
      cases hfail
      rw [htally, hmeasured.sumUpTo_size (Nat.le_refl _)] at hnodes
      exact h.offends_nodes (.reference hrefers h.known_eq hu) hnodes

/-! ## The first value at fault -/

theorem beginsValue_of_failed (h : s.beginValue limits t ctx = .error (.failed d s')) :
    t.kind.BeginsValue := by
  unfold beginValue at h
  split at h
  · next hkind =>
    rw [hkind]
    decide
  · next hkind =>
    rw [hkind]
    decide
  · exact nomatch h
  · exact nomatch h
  · next hkind =>
    rw [hkind]
    decide
  · exact nomatch h

/-- Where the parenthesis of an array is awaited, its mark was taken last. -/
theorem exists_array {hash : Position} (hfeed : (start [] .zero).feed limits used = .ok s)
    (hawait : s.awaiting = .arrayParen hash ctx) :
    ∃ used' t s₀, used = used' ++ [t] ∧ (start [] .zero).feed limits used' = .ok s₀ ∧
      s₀.ForValue ctx ∧ t.kind = .hash ∧ t.position = hash ∧ s.tally = s₀.tally := by
  obtain ⟨used', t, s₀, rfl, hfeed', hstep⟩ := exists_last hfeed (by rw [hawait]; nofun)
  have hbegun := begun_of_step hstep
  rw [hawait] at hbegun
  obtain ⟨hctx, hkind, hposition⟩ := hbegun
  rw [← feed_singleton_eq_ok_iff, feed_arrayHead hctx hkind] at hstep
  cases hstep
  exact ⟨used', t, s₀, rfl, hfeed', hctx, hkind, hposition, rfl⟩

/-- Where the end of a reference is awaited, the reference up to its name was taken last. -/
theorem exists_reference {question : Position} {name : Token}
    (hfeed : (start [] .zero).feed limits used = .ok s)
    (hawait : s.awaiting = .referenceEnd question name ctx) :
    ∃ used' t bracket s₀, used = used' ++ [t, bracket, name] ∧
      (start [] .zero).feed limits used' = .ok s₀ ∧ s₀.ForValue ctx ∧ t.kind = .question ∧
      bracket.kind = .leftBracket ∧ name.kind = .identifier ∧ t.position = question ∧
      s.tally = s₀.tally ∧ s.constants = s₀.constants := by
  obtain ⟨used₃, t₃, s₃, rfl, hfeed₃, hstep₃⟩ := exists_last hfeed (by rw [hawait]; nofun)
  have hbegun₃ := begun_of_step hstep₃
  rw [hawait] at hbegun₃
  obtain ⟨hawait₃, hname, rfl⟩ := hbegun₃
  obtain ⟨used₂, t₂, s₂, rfl, hfeed₂, hstep₂⟩ := exists_last hfeed₃ (by rw [hawait₃]; nofun)
  have hbegun₂ := begun_of_step hstep₂
  rw [hawait₃] at hbegun₂
  obtain ⟨hawait₂, hbracket⟩ := hbegun₂
  obtain ⟨used₁, t₁, s₁, rfl, hfeed₁, hstep₁⟩ := exists_last hfeed₂ (by rw [hawait₂]; nofun)
  have hbegun₁ := begun_of_step hstep₁
  rw [hawait₂] at hbegun₁
  obtain ⟨hctx, hquestion, hposition⟩ := hbegun₁
  have hhead : s₁.feed limits [t₁, t₂, t₃] = .ok s :=
    (feed_cons_of_ok hstep₁).trans ((feed_cons_of_ok hstep₂).trans (feed_cons_of_ok hstep₃))
  rw [feed_referenceHead hctx hquestion hbracket hname] at hhead
  cases hhead
  exact ⟨used₁, t₁, t₂, s₁, by simp, hfeed₁, hctx, hquestion, hbracket, hname, hposition, rfl, rfl⟩

/-- Where the machine is stopped by a token that fits, a value was begun that is at fault: it starts with the
token, or the token ends what it starts with. -/
theorem exists_start (hfeed : (start [] .zero).feed limits used = .ok s)
    (hstep : s.step limits t = .error (.failed d s')) (rest : List Token) :
    ∃ used' t' rest' s₀, used ++ t :: rest = used' ++ t' :: rest' ∧
      (start [] .zero).feed limits used' = .ok s₀ ∧ s₀.Admits t'.kind ∧
      ∀ (pl : Place) (known : Entries Term) (count : Nat), s₀.At pl known count →
        pl.Offends limits (t' :: rest') d := by
  have hnoted : (s.note (.consumed t)).tally = s.tally := rfl
  cases stalls_of_step hstep with
  | @value ctx hctx hfail =>
    refine ⟨used, t, rest, s, rfl, hfeed, .inl ⟨⟨ctx, hctx⟩, beginsValue_of_failed hfail⟩, ?_⟩
    intro pl known count h
    exact h.offends_beginValue hnoted hfail
  | block hawait hkind hfail =>
    refine ⟨used, t, rest, s, rfl, hfeed, .inr ⟨hawait, hkind⟩, ?_⟩
    intro pl known count h
    exact h.offends_open (.object hkind) hnoted hfail
  | array hawait hparen hfail =>
    obtain ⟨used', hash, s₀, rfl, hfeed', hctx, hhash, rfl, htally⟩ := exists_array hfeed hawait
    have hbegins : hash.kind.BeginsValue := by simp [hhash, Token.Kind.BeginsValue]
    refine ⟨used', hash, t :: rest, s₀, by simp, hfeed', .inl ⟨⟨_, hctx⟩, hbegins⟩, ?_⟩
    intro pl known count h
    exact h.offends_open (.array hhash hparen) (hnoted.trans htally) hfail
  | @reference _ name _ hawait hlast hfail =>
    obtain ⟨used', question, bracket, s₀, rfl, hfeed', hctx, hquestion, hbracket, hname, rfl, htally,
      hconstants⟩ := exists_reference hfeed hawait
    have hbegins : question.kind.BeginsValue := by simp [hquestion, Token.Kind.BeginsValue]
    have hnoted' : (s.note (.consumed t)).constants = s.constants := rfl
    refine ⟨used', question, bracket :: name :: t :: rest, s₀, by simp, hfeed',
      .inl ⟨⟨_, hctx⟩, hbegins⟩, ?_⟩
    intro pl known count h
    exact h.offends_refer (.intro hquestion hbracket hname hlast) (hnoted.trans htally)
      (hnoted'.trans hconstants) hfail

/-! ## The values before -/

/-- If there is more of the row, it is another value. -/
def Resumes (row : List Token) : Prop := ∀ t, row.head? = some t → t.kind.BeginsValue

variable {mid row : List Token}

/-- A token that no value starts with stands before the next value does. -/
theorem Resumes.exists_cons (h : Resumes row) (heq : mid ++ row = t :: rest)
    (hkind : ¬ t.kind.BeginsValue) : ∃ mid', mid = t :: mid' ∧ mid' ++ row = rest := by
  rcases List.append_eq_cons_iff.mp heq with ⟨-, rfl⟩ | ⟨mid', hmid, hrest⟩
  · exact absurd (h t rfl) hkind
  · exact ⟨mid', hmid, hrest.symm⟩

/-- A container that was opened was neither too deep nor one too many. -/
theorem opens_of_feed (h : s.Admits t.kind) (hopens : Opens (t :: (mid ++ row))) (hnext : Resumes row)
    (hfeed : s.feed limits (t :: mid) = .ok s₁) :
    s.tally.depth < limits.maxDepth ∧ sumUpTo s.tally.nodes 1 ≤ limits.maxNodes := by
  generalize hrow : mid ++ row = tail at hopens
  cases hopens with
  | @array _ paren _ hhash hparen =>
    obtain ⟨mid, rfl, -⟩ := hnext.exists_cons hrow (by simp [hparen, Token.Kind.BeginsValue])
    obtain ⟨ctx, hctx⟩ := h.forValue (by simp [hhash])
    rw [show t :: paren :: mid = [t, paren] ++ mid from rfl] at hfeed
    obtain ⟨s', hopen, -⟩ := feed_append_eq_ok_iff.mp hfeed
    obtain ⟨hdepth, hnodes, -⟩ := (feed_arrayOpen_eq_ok_iff hctx hhash hparen).mp hopen
    exact ⟨hdepth, hnodes⟩
  | object hbrace =>
    obtain ⟨ctx, hctx⟩ := h.starts
    obtain ⟨s', hopen, -⟩ := feed_cons_eq_ok_iff.mp hfeed
    obtain ⟨hdepth, hnodes, -⟩ := (step_leftBrace_eq_ok_iff hctx hbrace).mp hopen
    exact ⟨hdepth, hnodes⟩

/-- A reference that was taken is to a constant that was published, and it was neither too deep nor did it
count too much. -/
theorem refers_of_feed (h : s.Admits t.kind) {name : Token} (hrefers : Refers (t :: (mid ++ row)) name)
    (hnext : Resumes row) (hfeed : s.feed limits (t :: mid) = .ok s₁) :
    ∃ c, s.constants.find? name.text = some c ∧ s.tally.reach c.depth ≤ limits.maxDepth ∧
      sumUpTo s.tally.nodes c.size ≤ limits.maxNodes := by
  generalize hrow : mid ++ row = tail at hrefers
  cases hrefers with
  | @intro _ bracket _ last rest hquestion hbracket hname hlast =>
    obtain ⟨mid₁, rfl, hrow₁⟩ := hnext.exists_cons hrow (by simp [hbracket, Token.Kind.BeginsValue])
    obtain ⟨mid₂, rfl, hrow₂⟩ := hnext.exists_cons hrow₁ (by simp [hname, Token.Kind.BeginsValue])
    obtain ⟨mid₃, rfl, -⟩ := hnext.exists_cons hrow₂ (by simp [hlast, Token.Kind.BeginsValue])
    obtain ⟨ctx, hctx⟩ := h.forValue (by simp [hquestion])
    rw [show t :: bracket :: name :: last :: mid₃ = [t, bracket, name, last] ++ mid₃ from rfl] at hfeed
    obtain ⟨s', hreference, -⟩ := feed_append_eq_ok_iff.mp hfeed
    obtain ⟨c, hc, hdepth, hnodes, -⟩ :=
      (feed_reference_eq_ok_iff hctx hquestion hbracket hname hlast).mp hreference
    exact ⟨c, hc, hdepth, hnodes⟩

/-- A number that was taken has digits and fits. -/
theorem number_of_feed (h : s.Admits t.kind) (hkind : t.kind = .number)
    (hfeed : s.feed limits (t :: mid) = .ok s₁) :
    (∃ n, Term.numberOf? t.text = some n) ∧ sumUpTo s.tally.nodes 1 ≤ limits.maxNodes := by
  obtain ⟨ctx, hctx⟩ := h.forValue (by simp [hkind])
  obtain ⟨s', hstep, -⟩ := feed_cons_eq_ok_iff.mp hfeed
  obtain ⟨n, hn, hnodes, -⟩ := (step_number_eq_ok_iff hctx hkind).mp hstep
  exact ⟨⟨n, hn⟩, hnodes⟩

/-- The constant that is found is the one that is known at the place. -/
theorem At.measured (h : s.At pl known count) {known' : Entries Term} {name : String} {u : Term}
    {c : Constant} (hknown : pl.known? = some known') (hu : known'.find? name = some u)
    (hc : s.constants.find? name = some c) : Measured s.tally.nodes u c := by
  obtain rfl : known' = known := Option.some.inj (hknown.symm.trans h.known_eq)
  obtain ⟨u', hu', hmeasured⟩ := Entries.Related.exists_left h.accounted hc
  obtain rfl : u' = u := Option.some.inj (hu'.symm.trans hu)
  exact hmeasured

/-- What was counted where a value was taken is within the limit. -/
theorem At.adds_of_feed (h : s.At pl known count) (hadmits : s.Admits t.kind)
    (hadds : pl.Adds (t :: (mid ++ row)) cost) (hnext : Resumes row)
    (hfeed : s.feed limits (t :: mid) = .ok s₁) : sumUpTo s.tally.nodes cost ≤ limits.maxNodes := by
  cases hadds with
  | number hkind => exact (number_of_feed hadmits hkind hfeed).2
  | text hkind =>
    obtain ⟨ctx, hctx⟩ := hadmits.forValue (by simp [hkind])
    obtain ⟨s', hstep, -⟩ := feed_cons_eq_ok_iff.mp hfeed
    exact ((step_text_eq_ok_iff hctx hkind).mp hstep).1
  | container hopens => exact (opens_of_feed hadmits hopens hnext hfeed).2
  | reference hrefers hknown hu =>
    obtain ⟨c, hc, -, hnodes⟩ := refers_of_feed hadmits hrefers hnext hfeed
    rwa [(h.measured hknown hu hc).sumUpTo_size (Nat.le_refl _)] at hnodes

/-- Where the machine goes on to another value, the value passed that it was at. -/
theorem At.passes_of_feed (h : s.At pl known count) (hkind : t.kind.BeginsValue) (hnext : Resumes row)
    (hfeed : s.feed limits (t :: mid) = .ok s₁) : pl.Passes limits (t :: (mid ++ row)) where
  known := ⟨known, h.known_eq⟩
  count := ⟨count, h.count_eq⟩
  sound := by
    obtain ⟨s', hstep, -⟩ := feed_cons_eq_ok_iff.mp hfeed
    have hadmits := admits_of_step hstep hkind
    intro d hoffends
    cases hoffends with
    | @unknownConstant _ name hrefers hnone =>
      obtain ⟨c, hc, -⟩ := refers_of_feed hadmits hrefers hnext hfeed
      obtain ⟨u, hu, -⟩ := Entries.Related.exists_left h.accounted hc
      obtain ⟨x, hx⟩ := (Place.exists_find?_iff h.known_eq name.text).mp ⟨u, hu⟩
      exact hnone x hx
    | numericOverflow hnumber hlarge =>
      obtain ⟨hn, -⟩ := number_of_feed hadmits hnumber hfeed
      have hfits := (Term.exists_numberOf?_iff _).mp hn rfl
      exact Nat.not_lt_of_le hlarge hfits.2
    | invalidNumber hnumber hempty =>
      obtain ⟨hn, -⟩ := number_of_feed hadmits hnumber hfeed
      have hfits := (Term.exists_numberOf?_iff _).mp hn rfl
      exact hfits.1 hempty
    | opensTooDeep hopens hdeep =>
      obtain ⟨hdepth, -⟩ := opens_of_feed hadmits hopens hnext hfeed
      rw [h.depth] at hdepth
      exact Nat.not_le_of_lt hdeep hdepth
    | refersTooDeep hrefers hknown hu hdeep hlimit =>
      obtain ⟨c, hc, hdepth, -⟩ := refers_of_feed hadmits hrefers hnext hfeed
      rw [(h.measured hknown hu hc).reach_depth, Tally.reach, h.depth] at hdepth
      exact Nat.not_lt_of_le hdepth (lt_sumUpTo_iff.mpr ⟨hdeep, hlimit⟩)
    | @tooManyNodes _ _ count' cost hadds hcount hmany hlimit =>
      obtain rfl : count' = count := Option.some.inj (hcount.symm.trans h.count_eq)
      have hnodes := h.adds_of_feed hadmits hadds hnext hfeed
      rw [h.sumUpTo_nodes] at hnodes
      exact Nat.not_lt_of_le hnodes (lt_sumUpTo_iff.mpr ⟨hmany, hlimit⟩)

end State

end HexConfig.Reader
