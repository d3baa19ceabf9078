import HexConfig.Proofs.Reader.Runs
import HexConfig.Proofs.Source.Viable

/-!
# What the machine still has to read

What the machine awaits, and the containers that are open around it, are a row of goals of the grammar
(`Awaiting.goals`). A token that is taken is followed in the goals (`follow_of_step`), and so is a row of
them (`follow_of_feed`). A token is refused exactly if the goals cannot be followed along it, whatever
the limits are and whatever was counted (`step_eq_refused_iff`); so a token that raises a fault fits the
grammar, and what a refused token is told was expected does fit (`Awaiting.isSome_next?_of_starts`).

The mark of the end is not one of the tokens: it fits where the machine may stop.
-/

namespace HexConfig

open Grammar

/-- A kind of token that would have been as expected. -/
def Expected.Starts : Expected → Token.Kind → Prop
  | kind k, k' => k' = k
  | value, k => ∃ ks, Derives .value (k :: ks)
  | declaration, k => k = .global ∨ k = .identifier ∨ k = .leftBrace

namespace Reader

/-- What is left to be read of an open container behind the value being read. -/
def Frame.goal : Frame → Goal
  | .sequence _ => .arrayRest
  | .mapping _ _ => .objectRest

/-- What is left to be read behind a value. -/
def Context.goals (ctx : Context) : List Goal := ctx.frames.map Frame.goal ++ [.programRest]

/-- What is to be read next. -/
def Awaiting.goal : Awaiting → Goal
  | .declaration => .programRest
  | .globalName => .kind .identifier
  | .globalEquals _ => .kind .equals
  | .entryEquals _ => .kind .equals
  | .value _ => .value
  | .arrayParen _ _ => .kind .leftParen
  | .item _ _ => .arrayRest
  | .key _ _ => .objectRest
  | .equals _ _ _ => .kind .equals
  | .referenceBracket _ _ => .kind .leftBracket
  | .referenceName _ _ => .kind .identifier
  | .referenceEnd _ _ _ => .kind .rightBracket

/-- What is left to be read behind that. -/
def Awaiting.behind : Awaiting → List Goal
  | .declaration => []
  | .globalName => [.kind .equals, .value, .programRest]
  | .globalEquals _ => [.value, .programRest]
  | .entryEquals _ => [.value, .programRest]
  | .value ctx => ctx.goals
  | .arrayParen _ ctx => .arrayRest :: ctx.goals
  | .item _ ctx => ctx.goals
  | .key _ ctx => ctx.goals
  | .equals _ _ ctx => .value :: .objectRest :: ctx.goals
  | .referenceBracket _ ctx => .kind .identifier :: .kind .rightBracket :: ctx.goals
  | .referenceName _ ctx => .kind .rightBracket :: ctx.goals
  | .referenceEnd _ _ ctx => ctx.goals

/-- What is left to be read. -/
def Awaiting.goals (a : Awaiting) : List Goal := a.goal :: a.behind

variable {limits : Limits} {s s' : State} {t : Token} {ctx : Context} {e : Expected}
  {k : Token.Kind} {g : Goal} {gs hs : List Goal}

theorem follow_singleton (h : g.next? k = some hs) : follow (g :: gs) [k] = some (hs ++ gs) := by
  rw [follow, h]
  rfl

theorem follow_singleton_isSome : (follow (g :: gs) [k]).isSome = (g.next? k).isSome := by
  cases hnext : g.next? k with
  | none => rw [follow, hnext, Option.bind_none]
  | some hs => rw [follow_singleton hnext, Option.isSome_some, Option.isSome_some]

namespace State

/-! ## Tokens that are taken -/

/-- A finished value leaves what is around it to be read. -/
theorem goals_deliver (s : State) (v : Value) (ctx : Context) :
    (s.deliver v ctx).awaiting.goals = ctx.goals := by
  obtain ⟨destination, frames⟩ := ctx
  cases frames with
  | nil => cases destination <;> rfl
  | cons f frames => cases f <;> rfl

/-- Where a value may start, its first token leaves the rest of the value to be read, and what is around it. -/
theorem ForValue.follow (h : s.ForValue ctx) (hnext : Goal.valueNext? k = some gs) :
    follow s.awaiting.goals [k] = some (gs ++ ctx.goals) := by
  rcases h with hawait | ⟨items, outer, hawait, rfl⟩
  · rw [hawait]
    exact follow_singleton hnext
  · have hitem : Grammar.follow (Awaiting.item items outer).goals [k] = _ :=
      follow_singleton (Goal.next?_arrayRest hnext)
    rw [hawait, hitem, List.append_assoc]
    rfl

/-- Each way of going on follows its token in the goals. -/
theorem follow_of_advance (h : Advance limits s t s') :
    follow s.awaiting.goals [t.kind] = some s'.awaiting.goals := by
  cases h with
  | global hawait hkind => rw [hawait, hkind]; rfl
  | entryKey hawait hkind => rw [hawait, hkind]; rfl
  | block hawait hkind => rw [hawait, hkind]; rfl
  | globalName hawait hkind => rw [hawait, hkind]; rfl
  | globalEquals hawait hkind => rw [hawait, hkind]; rfl
  | entryEquals hawait hkind => rw [hawait, hkind]; rfl
  | number hctx hkind =>
    have hnext : Goal.valueNext? .number = some [] := rfl
    rw [goals_deliver, hkind]
    exact hctx.follow hnext
  | text hctx hkind =>
    have hnext : Goal.valueNext? .text = some [] := rfl
    rw [goals_deliver, hkind]
    exact hctx.follow hnext
  | hash hctx hkind =>
    have hnext : Goal.valueNext? .hash = some [.kind .leftParen, .arrayRest] := rfl
    rw [hkind]
    exact hctx.follow hnext
  | question hctx hkind =>
    have hnext : Goal.valueNext? .question =
      some [.kind .leftBracket, .kind .identifier, .kind .rightBracket] := rfl
    rw [hkind]
    exact hctx.follow hnext
  | object hctx hkind =>
    have hnext : Goal.valueNext? .leftBrace = some [.objectRest] := rfl
    rw [hkind]
    exact hctx.follow hnext
  | arrayParen hawait hkind => rw [hawait, hkind]; rfl
  | arrayEnd hawait hkind => rw [goals_deliver, hawait, hkind]; rfl
  | key hawait hkind => rw [hawait, hkind]; rfl
  | objectEnd hawait hkind => rw [goals_deliver, hawait, hkind]; rfl
  | equals hawait hkind => rw [hawait, hkind]; rfl
  | referenceBracket hawait hkind => rw [hawait, hkind]; rfl
  | referenceName hawait hkind => rw [hawait, hkind]; rfl
  | referenceEnd hawait hkind => rw [goals_deliver, hawait, hkind]; rfl

/-- A token that is taken is followed in the goals. -/
theorem follow_of_step (h : s.step limits t = .ok s') :
    follow s.awaiting.goals [t.kind] = some s'.awaiting.goals := by
  have hadvance := follow_of_advance (advance_of_step h)
  exact hadvance

/-- Tokens that are taken are followed in the goals. -/
theorem follow_of_feed {ts : List Token} (h : s.feed limits ts = .ok s') :
    follow s.awaiting.goals (ts.map Token.kind) = some s'.awaiting.goals := by
  induction ts generalizing s with
  | nil =>
    cases h
    rfl
  | cons t ts ih =>
    unfold feed at h
    split at h
    · next s₁ hstep =>
      rw [List.map_cons, ← List.singleton_append, follow_append, follow_of_step hstep]
      exact ih h
    · exact nomatch h
    · exact nomatch h

/-! ## Tokens that are refused -/

/-- Counting raises faults, but refuses no token. -/
theorem charge_ne_refused {n : Nat} {p : Position} :
    s.charge limits n p ≠ .error (.refused e) := by
  unfold charge
  split
  · nofun
  · nofun

/-- Opening a container raises faults, but refuses no token. -/
theorem openContainer_ne_refused {p : Position} {inside : Awaiting} :
    s.openContainer limits p inside ≠ .error (.refused e) := by
  intro h
  rcases bind_eq_error_iff.mp h with h | ⟨_, -, h⟩
  · unfold enter at h
    split at h
    · exact nomatch h
    · exact nomatch h
  · rcases bind_eq_error_iff.mp h with h | ⟨_, -, h⟩
    · exact charge_ne_refused h
    · exact nomatch h

theorem number_ne_refused : s.number limits t ctx ≠ .error (.refused e) := by
  intro h
  rcases bind_eq_error_iff.mp h with h | ⟨_, -, h⟩
  · exact charge_ne_refused h
  · split at h
    · exact nomatch h
    · exact nomatch h

theorem string_ne_refused : s.string limits t ctx ≠ .error (.refused e) := by
  intro h
  rcases bind_eq_error_iff.mp h with h | ⟨_, -, h⟩
  · exact charge_ne_refused h
  · exact nomatch h

/-- Splicing in a constant raises faults, but refuses no token. -/
theorem refer_ne_refused {question : Position} {name : Token} :
    s.refer limits question name ctx ≠ .error (.refused e) := by
  intro h
  unfold refer at h
  split at h
  · exact nomatch h
  · split at h
    · exact nomatch h
    · rcases bind_eq_error_iff.mp h with h | ⟨_, -, h⟩
      · exact charge_ne_refused h
      · exact nomatch h

/-- Where a value may start, the tokens that start none are refused. -/
theorem beginValue_eq_refused_iff :
    s.beginValue limits t ctx = .error (.refused e) ↔
      Goal.valueNext? t.kind = none ∧ e = .value := by
  unfold beginValue
  cases t.kind with
  | number => exact iff_of_false number_ne_refused nofun
  | text => exact iff_of_false string_ne_refused nofun
  | hash => exact iff_of_false nofun nofun
  | question => exact iff_of_false nofun nofun
  | leftBrace => exact iff_of_false openContainer_ne_refused nofun
  | _ => simp [Goal.valueNext?, throw, throwThe, MonadExceptOf.throw, eq_comm]

/-- Where one kind of token is required, the others are refused. -/
theorem map_require_eq_refused_iff {f : State → State} :
    f <$> s.require k t = .error (.refused e) ↔
      (Goal.kind k).next? t.kind = none ∧ e = .kind k := by
  unfold require
  split
  · next h => simp [h, Goal.next?, Functor.map, Except.map]
  · next h => simp [h, Goal.next?, Functor.map, Except.map, eq_comm]

theorem require_bind_eq_refused_iff {f : State → Except Halt State}
    (hf : ∀ s, f s ≠ .error (.refused e)) :
    s.require k t >>= f = .error (.refused e) ↔
      (Goal.kind k).next? t.kind = none ∧ e = .kind k := by
  unfold require
  split
  · next h => exact iff_of_false (hf s) (by simp [h, Goal.next?])
  · next h => simp [h, Goal.next?, bind, Except.bind, eq_comm]

/-- Where a declaration may start, the tokens that start none are refused. The end is no token to be refused
there. -/
theorem beginDeclaration_eq_refused_iff (hfinish : t.kind ≠ .finish) :
    s.beginDeclaration limits t = .error (.refused e) ↔
      Goal.programRest.next? t.kind = none ∧ e = .declaration := by
  unfold beginDeclaration
  cases hkind : t.kind with
  | global => exact iff_of_false nofun nofun
  | identifier => exact iff_of_false nofun nofun
  | leftBrace => exact iff_of_false openContainer_ne_refused nofun
  | finish => exact absurd hkind hfinish
  | _ => simp [Goal.next?, throw, throwThe, MonadExceptOf.throw, eq_comm]

/-- Inside an array the tokens that neither start an item nor close it are refused. -/
theorem insideArray_eq_refused_iff {items : List Value} :
    s.insideArray limits t items ctx = .error (.refused e) ↔
      Goal.arrayRest.next? t.kind = none ∧ e = .value := by
  unfold insideArray
  rw [Goal.next?]
  split
  · simp [pure, Except.pure]
  · rw [beginValue_eq_refused_iff, Option.map_eq_none_iff]

/-- Inside an object the tokens that are neither a name nor close it are refused. -/
theorem insideObject_eq_refused_iff {entries : Entries Value} :
    s.insideObject t entries ctx = .error (.refused e) ↔
      Goal.objectRest.next? t.kind = none ∧ e = .kind .identifier := by
  unfold insideObject
  cases t.kind with
  | identifier => exact iff_of_false nofun nofun
  | rightBrace => exact iff_of_false nofun nofun
  | _ => simp [Goal.next?, throw, throwThe, MonadExceptOf.throw, eq_comm]

/-- A token is refused exactly if it cannot be the first of what is to be read, and it is told what
the machine awaits. -/
theorem step_eq_refused_iff (hfinish : t.kind ≠ .finish) :
    s.step limits t = .error (.refused e) ↔
      s.awaiting.goal.next? t.kind = none ∧ e = s.awaiting.expected := by
  unfold step
  generalize hawaiting : s.awaiting = awaiting
  have hnoted : (s.note (.consumed t)).awaiting = awaiting := hawaiting
  generalize s.note (.consumed t) = s₁ at hnoted ⊢
  simp only [hnoted]
  cases awaiting with
  | declaration => exact beginDeclaration_eq_refused_iff hfinish
  | globalName => exact map_require_eq_refused_iff
  | globalEquals => exact map_require_eq_refused_iff
  | entryEquals => exact map_require_eq_refused_iff
  | value => exact beginValue_eq_refused_iff
  | arrayParen => exact require_bind_eq_refused_iff fun _ => openContainer_ne_refused
  | item => exact insideArray_eq_refused_iff
  | key => exact insideObject_eq_refused_iff
  | equals => exact map_require_eq_refused_iff
  | referenceBracket => exact map_require_eq_refused_iff
  | referenceName => exact map_require_eq_refused_iff
  | referenceEnd => exact require_bind_eq_refused_iff fun _ => refer_ne_refused

end State

/-! ## What is told of them -/

/-- What a refused token is told was expected can be the first of what is to be read. -/
theorem Awaiting.isSome_next?_of_starts (a : Awaiting) (h : a.expected.Starts k) :
    (a.goal.next? k).isSome := by
  cases a with
  | declaration => rcases h with rfl | rfl | rfl <;> rfl
  | value =>
    obtain ⟨ks, hks⟩ := h
    obtain ⟨_, _, gs, heq, hnext, -⟩ := Goal.exists_valueNext? hks
    cases heq
    exact Option.isSome_of_eq_some hnext
  | item =>
    obtain ⟨ks, hks⟩ := h
    obtain ⟨_, _, gs, heq, hnext, -⟩ := Goal.exists_valueNext? hks
    cases heq
    exact Option.isSome_of_eq_some (Goal.next?_arrayRest hnext)
  | _ =>
    obtain rfl := h
    rfl

/-- What input that runs out is told was expected can be the first of what is to be read. -/
theorem Awaiting.isSome_next?_of_missing {a : Awaiting} (hmissing : a.missing? = some e)
    (h : e.Starts k) : (a.goal.next? k).isSome := by
  cases a with
  | declaration => exact nomatch hmissing
  | item =>
    cases hmissing
    obtain rfl := h
    rfl
  | key =>
    cases hmissing
    obtain rfl := h
    rfl
  | _ =>
    cases hmissing
    exact Awaiting.isSome_next?_of_starts _ h

/-- Where something is missed at the end, the end does not fit. -/
theorem Awaiting.next?_finish {a : Awaiting} (hmissing : a.missing? = some e) :
    a.goal.next? .finish = none := by
  cases a with
  | declaration => exact nomatch hmissing
  | _ => rfl

end Reader

end HexConfig
