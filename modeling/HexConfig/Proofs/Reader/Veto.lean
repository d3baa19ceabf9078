import HexConfig.Reader

/-!
# Limits only stop

Two readings of one text, the second under limits no lower than the first. As long as the first goes
on, the second does the same; and where the first is at fault, either the second is at the same fault
in the same state, or the first was stopped by one of its own limits (`State.Vetoed`). So a limit never
changes what is read: it stops a reading or leaves it alone (`State.vetoed_feed`).

The machine is gone through once, function by function. Only `enter`, `charge` and `refer` look at the
limits at all.
-/

namespace HexConfig

namespace Limits

/-- The fault of a limit that stops a reading. A limit on values at the greatest number stops none,
since counting stops there as well. -/
def Veto (limits : Limits) (fault : Fault) : Prop :=
  fault = .nestingTooDeep limits.maxDepth ∨
    fault = .tooManyNodes limits.maxNodes ∧ limits.maxNodes < greatest

/-- No limit is lower in the first. -/
structure AtMost (limits limits' : Limits) : Prop where
  maxDepth : limits.maxDepth ≤ limits'.maxDepth
  maxNodes : limits.maxNodes ≤ limits'.maxNodes

end Limits

namespace Reader.State

variable {limits limits' : Limits} {α β : Type}

/-- The first, under `limits`, is what the second is, or was stopped by a limit. -/
def Vetoed (limits : Limits) (x y : Except Halt α) : Prop :=
  x = y ∨ ∃ d s, x = .error (.failed d s) ∧ limits.Veto d.fault

theorem Vetoed.refl (x : Except Halt α) : Vetoed limits x x := .inl rfl

/-- One thing after another. -/
theorem Vetoed.bind {x y : Except Halt α} (h : Vetoed limits x y) {f g : α → Except Halt β}
    (hf : ∀ a, Vetoed limits (f a) (g a)) : Vetoed limits (x >>= f) (y >>= g) := by
  rcases h with rfl | ⟨d, s, rfl, hveto⟩
  · cases x with
    | error e => exact .refl _
    | ok a => exact hf a
  · exact .inr ⟨d, s, rfl, hveto⟩

section

variable (hle : limits.AtMost limits') (s : State) (t : Token) (p : Position) (ctx : Context)

include hle

/-- A level that is entered under lower limits is entered under the others. -/
theorem vetoed_enter : Vetoed limits (s.enter limits p) (s.enter limits' p) := by
  unfold enter
  by_cases h : limits.maxDepth ≤ s.tally.depth
  · rw [if_pos h]
    exact .inr ⟨_, _, rfl, .inl rfl⟩
  · have h' : ¬ limits'.maxDepth ≤ s.tally.depth := fun h' => h (Nat.le_trans hle.maxDepth h')
    rw [if_neg h, if_neg h']
    exact .refl _

/-- Nodes that are counted under lower limits are counted under the others. A limit that stops them is not the
greatest, which no count exceeds. -/
theorem vetoed_charge (n : Nat) :
    Vetoed limits (s.charge limits n p) (s.charge limits' n p) := by
  unfold charge
  by_cases h : limits.maxNodes < (s.tally.charge n).nodes
  · rw [if_pos h]
    have hgreatest : (s.tally.charge n).nodes ≤ Limits.greatest := Nat.min_le_right _ _
    exact .inr ⟨_, _, rfl, .inr ⟨rfl, Nat.lt_of_lt_of_le h hgreatest⟩⟩
  · have h' : ¬ limits'.maxNodes < (s.tally.charge n).nodes :=
      fun h' => h (Nat.lt_of_le_of_lt hle.maxNodes h')
    rw [if_neg h, if_neg h']
    exact .refl _

theorem vetoed_openContainer (inside : Awaiting) :
    Vetoed limits (s.openContainer limits p inside) (s.openContainer limits' p inside) :=
  (vetoed_enter hle s p).bind fun s => (vetoed_charge hle s p 1).bind fun _ => .refl _

/-- A constant there is room for under lower limits is spliced in under the others. -/
theorem vetoed_refer (name : Token) :
    Vetoed limits (s.refer limits p name ctx) (s.refer limits' p name ctx) := by
  unfold refer
  cases s.constants.find? name.text with
  | none => exact .refl _
  | some c =>
    simp only
    by_cases h : limits.maxDepth < s.tally.reach c.depth
    · rw [if_pos h]
      exact .inr ⟨_, _, rfl, .inl rfl⟩
    · have h' : ¬ limits'.maxDepth < s.tally.reach c.depth :=
        fun h' => h (Nat.lt_of_le_of_lt hle.maxDepth h')
      rw [if_neg h, if_neg h']
      exact (vetoed_charge hle _ p c.size).bind fun _ => .refl _

theorem vetoed_beginValue :
    Vetoed limits (s.beginValue limits t ctx) (s.beginValue limits' t ctx) := by
  unfold beginValue
  cases t.kind with
  | number => exact (vetoed_charge hle s t.position 1).bind fun _ => .refl _
  | text => exact (vetoed_charge hle s t.position 1).bind fun _ => .refl _
  | leftBrace => exact vetoed_openContainer hle s t.position _
  | _ => exact .refl _

theorem vetoed_beginDeclaration :
    Vetoed limits (s.beginDeclaration limits t) (s.beginDeclaration limits' t) := by
  unfold beginDeclaration
  cases t.kind with
  | leftBrace => exact vetoed_openContainer hle s t.position _
  | _ => exact .refl _

theorem vetoed_insideArray (items : List Value) :
    Vetoed limits (s.insideArray limits t items ctx) (s.insideArray limits' t items ctx) := by
  unfold insideArray
  by_cases h : t.kind = .rightParen
  · rw [if_pos h, if_pos h]
    exact .refl _
  · rw [if_neg h, if_neg h]
    exact vetoed_beginValue hle s t _

/-- One token under lower limits: as under the others, or stopped by a limit. -/
theorem vetoed_step : Vetoed limits (s.step limits t) (s.step limits' t) := by
  unfold step
  generalize s.note (.consumed t) = s
  simp only
  cases s.awaiting with
  | declaration => exact vetoed_beginDeclaration hle s t
  | value ctx => exact vetoed_beginValue hle s t ctx
  | arrayParen hash ctx =>
    exact (Vetoed.refl _).bind fun s => vetoed_openContainer hle s hash _
  | item items ctx => exact vetoed_insideArray hle s t ctx items
  | referenceEnd question name ctx =>
    exact (Vetoed.refl _).bind fun s => vetoed_refer hle s question ctx name
  | _ => exact .refl _

/-- A row of tokens under lower limits: as under the others, or stopped by a limit. -/
theorem vetoed_feed (ts : List Token) :
    s.feed limits ts = s.feed limits' ts ∨
      ∃ stop, s.feed limits ts = .error stop ∧ limits.Veto stop.diagnostic.fault := by
  induction ts generalizing s with
  | nil => exact .inl rfl
  | cons t ts ih =>
    rcases vetoed_step hle s t with hstep | ⟨d, s', hstep, hveto⟩
    · unfold feed
      rw [hstep]
      cases s.step limits' t with
      | ok s' => exact ih s'
      | error halt =>
        cases halt with
        | refused expected => exact .inl rfl
        | failed d s' => exact .inl rfl
    · refine .inr ⟨⟨d, s', ts⟩, ?_, hveto⟩
      rw [feed, hstep]

end

end Reader.State

end HexConfig
