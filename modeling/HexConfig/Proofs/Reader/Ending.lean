import HexConfig.Proofs.Conversion.Image
import HexConfig.Proofs.Conversion.SyntaxFaults
import HexConfig.Proofs.Reader.Steps

/-!
# How a reading ends

A reading ends in one of four ways: at the end of its row, where input may end or where more was needed;
before a token that does not fit; behind a token that fits and raised a fault. `Ending` lists them, with
the state that the machine had come to and with what the reading gives, so that nobody takes `Reader.read`
apart a second time (`ending`).

What a reading tells of as used up is what it used up: these tokens and those it leaves are the row it was
given, and the mark of the end is not one of them (`tokens_of_read`).
-/

namespace HexConfig

/-- The token that an event tells of as used up. -/
def Event.token? : Event → Option Token
  | consumed t => some t
  | _ => none

/-- The tokens that a reading tells of as used up, in order. -/
def Reading.consumed (x : Reading) : List Token := x.log.filterMap Event.token?

namespace Reader

namespace State

/-- The tokens that were told of as used up so far, in order. -/
def consumed (s : State) : List Token := s.log.reverse.filterMap Event.token?

variable {limits : Limits} {s s' : State} {t : Token} {ts : List Token} {d : Diagnostic}

theorem consumed_note (s : State) (t : Token) : (s.note (.consumed t)).consumed = s.consumed ++ [t] := by
  simp [consumed, note, Event.token?]

/-- What is told of a value that is delivered is nothing about tokens. -/
theorem consumed_deliver (s : State) (v : Value) (ctx : Context) :
    (s.deliver v ctx).consumed = s.consumed := by
  obtain ⟨destination, frames⟩ := ctx
  cases frames with
  | cons f frames => cases f <;> rfl
  | nil =>
    cases destination with
    | global name before =>
      simp only [deliver, declare, publish, consumed]
      split <;> simp [Event.token?]
    | entry key =>
      simp only [deliver, declare, assign, consumed]
      split <;> simp [Event.token?]
    | block =>
      simp only [deliver, declare, assign, consumed]
      split <;> simp [Event.token?]

theorem consumed_of_advance (h : Advance limits s t s') : s'.consumed = s.consumed := by
  cases h with
  | number | text | arrayEnd | objectEnd | referenceEnd =>
    rw [consumed_deliver]
    rfl
  | _ => rfl

/-- A token that is taken is told of. -/
theorem consumed_of_step (h : s.step limits t = .ok s') : s'.consumed = s.consumed ++ [t] := by
  rw [consumed_of_advance (advance_of_step h), consumed_note]

/-- So is a token that raises a fault. -/
theorem consumed_of_failed (h : s.step limits t = .error (.failed d s')) :
    s'.consumed = s.consumed ++ [t] := by
  rw [← consumed_note]
  cases failure_of_step h <;> rfl

theorem consumed_of_feed (h : s.feed limits ts = .ok s') : s'.consumed = s.consumed ++ ts := by
  induction ts generalizing s with
  | nil =>
    cases h
    rw [List.append_nil]
  | cons t ts ih =>
    obtain ⟨s₁, hstep, hfeed⟩ := feed_cons_eq_ok_iff.mp h
    rw [ih hfeed, consumed_of_step hstep, List.append_assoc, List.singleton_append]

/-- Of tokens taken from the start and one behind them that raises a fault, all are told of. -/
theorem consumed_of_fault {constants : Constants} {tally : Tally}
    (hfeed : (start constants tally).feed limits ts = .ok s)
    (hstep : s.step limits t = .error (.failed d s')) : s'.consumed = ts ++ [t] := by
  rw [consumed_of_failed hstep, consumed_of_feed hfeed]
  rfl

end State

/-! ## The four ways -/

/-- The ways in which the next reading ends, and what it gives. -/
inductive Ending (r : Reader) : Prop
  /-- At the end of the row, where input may end. -/
  | whole {s : State} :
      (State.start r.constants r.tally).feed r.limits r.tokens.list = .ok s →
      s.awaiting = .declaration →
      r.read = (⟨.ok s.document, s.log.reverse⟩, r.leftAt [] s) → Ending r
  /-- At the end of the row, where more was needed. -/
  | unfinished {s : State} {e : Expected} :
      (State.start r.constants r.tally).feed r.limits r.tokens.list = .ok s →
      s.awaiting.missing? = some e →
      r.read = (⟨.error (.unexpected e (Token.finish r.tokens.finish)), s.log.reverse⟩,
        r.leftAt [] s) → Ending r
  /-- Before a token that does not fit. -/
  | refused {used rest : List Token} {t : Token} {s : State} {e : Expected} :
      r.tokens.list = used ++ t :: rest →
      (State.start r.constants r.tally).feed r.limits used = .ok s →
      s.step r.limits t = .error (.refused e) →
      r.read = (⟨.error (.unexpected e t), s.log.reverse⟩, r.leftAt (t :: rest) s) → Ending r
  /-- Behind a token that raises a fault. -/
  | failed {used rest : List Token} {t : Token} {s s' : State} {d : Diagnostic} :
      r.tokens.list = used ++ t :: rest →
      (State.start r.constants r.tally).feed r.limits used = .ok s →
      s.step r.limits t = .error (.failed d s') →
      r.read = (⟨.error d, s'.log.reverse⟩, r.leftAt rest s') → Ending r

/-- A reading of tokens that are all taken, up to where input may end, gives what was written. -/
theorem read_of_feed_ok {r : Reader} {s : State}
    (hfeed : (State.start r.constants r.tally).feed r.limits r.tokens.list = .ok s)
    (hawait : s.awaiting = .declaration) :
    r.read = (⟨.ok s.document, s.log.reverse⟩, r.leftAt [] s) := by
  have hfinish : s.finish? r.tokens.finish = none := State.finish?_eq_none_iff.mpr hawait
  rw [read, hfeed]
  simp only [hfinish]

/-- Every reading ends in one of these ways. -/
theorem ending (r : Reader) : r.Ending := by
  cases hfeed : (State.start r.constants r.tally).feed r.limits r.tokens.list with
  | error stop =>
    have hread : r.read =
        (⟨.error stop.diagnostic, stop.state.log.reverse⟩, r.leftAt stop.rest stop.state) := by
      rw [read, hfeed]
    obtain ⟨used, t, rest, s, hlist, hused, ⟨e, hstep, rfl⟩ | ⟨hstep, hrest⟩⟩ :=
      State.stop_of_feed hfeed
    · exact .refused hlist hused hstep hread
    · rw [hrest] at hread
      exact .failed hlist hused hstep hread
  | ok s =>
    cases hmissing : s.awaiting.missing? with
    | none =>
      have hfinish : s.finish? r.tokens.finish = none := by
        rw [State.finish?, hmissing, Option.map_none]
      have hawait := State.finish?_eq_none_iff.mp hfinish
      exact .whole hfeed hawait (read_of_feed_ok hfeed hawait)
    | some e =>
      have hfinish : s.finish? r.tokens.finish =
          some (.unexpected e (Token.finish r.tokens.finish)) := by
        rw [State.finish?, hmissing, Option.map_some]
      refine .unfinished hfeed hmissing ?_
      rw [read, hfeed]
      simp only [hfinish]

variable {r : Reader}

/-- The tokens that a reading tells of as used up and those that it leaves are the row it was given. -/
theorem tokens_of_read (r : Reader) :
    r.tokens.list = r.read.1.consumed ++ r.read.2.tokens.list ∧
      r.read.2.tokens.finish = r.tokens.finish ∧ r.read.2.limits = r.limits := by
  cases r.ending with
  | whole hfeed hawait hread =>
    have hconsumed := State.consumed_of_feed hfeed
    rw [hread]
    exact ⟨((List.append_nil _).trans hconsumed).symm, rfl, rfl⟩
  | unfinished hfeed hmissing hread =>
    have hconsumed := State.consumed_of_feed hfeed
    rw [hread]
    exact ⟨((List.append_nil _).trans hconsumed).symm, rfl, rfl⟩
  | refused hlist hfeed hstep hread =>
    have hconsumed := State.consumed_of_feed hfeed
    rw [hread, hlist]
    exact ⟨congrArg (· ++ _) hconsumed.symm, rfl, rfl⟩
  | @failed used rest t s s' d hlist hfeed hstep hread =>
    have hconsumed : s'.consumed = used ++ [t] := State.consumed_of_fault hfeed hstep
    rw [hread, hlist, ← List.singleton_append, ← List.append_assoc]
    exact ⟨congrArg (· ++ rest) hconsumed.symm, rfl, rfl⟩

/-- No token of a reader that a text can leave is the mark of the end. -/
theorem Written.kind_ne_finish (h : r.Written) {t : Token} (ht : t ∈ r.tokens.list) :
    t.kind ≠ .finish := by
  intro hkind
  have hproper := h.tokens t ht
  rw [Token.word, hkind] at hproper
  exact hproper

end Reader

end HexConfig
