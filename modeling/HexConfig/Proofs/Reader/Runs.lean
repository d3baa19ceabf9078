import HexConfig.Proofs.Reader.Advance

/-!
# Runs over a row of tokens

A run over one row and then over another is a run over both together. A run that does not come to the
end of its row comes to the token that stops it (`stop_of_feed`), so whatever every token keeps is known
of the state in which the machine stops (`feed_induction`).
-/

namespace HexConfig.Reader.State

variable {limits : Limits} {s s₁ : State} {t : Token} {ts ts' rest : List Token}

theorem feed_cons_of_ok (h : s.step limits t = .ok s₁) :
    s.feed limits (t :: rest) = s₁.feed limits rest := by
  rw [feed, h]

theorem feed_cons_of_failed {d : Diagnostic} (h : s.step limits t = .error (.failed d s₁)) :
    s.feed limits (t :: rest) = .error ⟨d, s₁, rest⟩ := by
  rw [feed, h]

/-- A row and the row behind it. -/
theorem feed_append_of_ok (h : s.feed limits ts = .ok s₁) :
    s.feed limits (ts ++ ts') = s₁.feed limits ts' := by
  induction ts generalizing s with
  | nil =>
    cases h
    rfl
  | cons t ts ih =>
    unfold feed at h
    split at h
    · next hstep =>
      rw [List.cons_append, feed_cons_of_ok hstep]
      exact ih h
    · exact nomatch h
    · exact nomatch h

theorem feed_append_of_error {stop : Stop} (h : s.feed limits ts = .error stop) :
    s.feed limits (ts ++ ts') = .error { stop with rest := stop.rest ++ ts' } := by
  induction ts generalizing s with
  | nil => exact nomatch h
  | cons t ts ih =>
    unfold feed at h
    split at h
    · next hstep =>
      rw [List.cons_append, feed_cons_of_ok hstep]
      exact ih h
    · next hstep =>
      cases h
      rw [List.cons_append, feed, hstep]
    · next hstep =>
      cases h
      rw [List.cons_append, feed, hstep]

/-- Where a run stops: at a token that does not fit, or at one that raises a fault. -/
theorem stop_of_feed {stop : Stop} (h : s.feed limits ts = .error stop) :
    ∃ used t rest s₁, ts = used ++ t :: rest ∧ s.feed limits used = .ok s₁ ∧
      ((∃ expected, s₁.step limits t = .error (.refused expected) ∧
          stop = ⟨.unexpected expected t, s₁, t :: rest⟩) ∨
        s₁.step limits t = .error (.failed stop.diagnostic stop.state) ∧ stop.rest = rest) := by
  induction ts generalizing s with
  | nil => exact nomatch h
  | cons t ts ih =>
    unfold feed at h
    split at h
    · next hstep =>
      obtain ⟨used, t', rest, s₂, rfl, hfeed, hstop⟩ := ih h
      exact ⟨t :: used, t', rest, s₂, rfl, (feed_cons_of_ok hstep).trans hfeed, hstop⟩
    · next hstep =>
      cases h
      exact ⟨[], t, ts, s, rfl, rfl, .inl ⟨_, hstep, rfl⟩⟩
    · next hstep =>
      cases h
      exact ⟨[], t, ts, s, rfl, rfl, .inr ⟨hstep, rfl⟩⟩

/-- What every token of a row keeps that is taken, a run over the row keeps. -/
theorem feed_induction_mem {P : State → Prop}
    (hstep : ∀ {s s' t}, t ∈ ts → P s → s.step limits t = .ok s' → P s') (hs : P s)
    (h : s.feed limits ts = .ok s₁) : P s₁ := by
  induction ts generalizing s with
  | nil =>
    cases h
    exact hs
  | cons t ts ih =>
    unfold feed at h
    split at h
    · next hok =>
      exact ih (fun ht => hstep (List.mem_cons_of_mem t ht)) (hstep List.mem_cons_self hs hok) h
    · exact nomatch h
    · exact nomatch h

/-- What every token that is taken keeps, a run keeps. -/
theorem feed_induction {P : State → Prop}
    (hstep : ∀ {s s' t}, P s → s.step limits t = .ok s' → P s') (hs : P s)
    (h : s.feed limits ts = .ok s₁) : P s₁ :=
  feed_induction_mem (fun _ => hstep) hs h

end HexConfig.Reader.State
