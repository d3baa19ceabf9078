import HexConfig.Proofs.Reader.Ending

/-!
# Readers come to rest

A reader can be read from again after a fault, and each reading goes on where the one before stopped. This
comes to an end. A reading that gives a document leaves nothing to read, and one that is stopped where a
declaration should start stops there again; after either of them every reading gives the same and leaves
the reader as it is. Any other fault uses up a token, so there are no more such readings than tokens
(`comes_to_rest`).

It is the place alone that makes a reader rest. The tally may be anything, with containers counted as open
that no reading will close, and limits that nothing keeps to any more.
-/

namespace HexConfig.Reader

/-- The reader after so many readings. -/
def after (r : Reader) (n : Nat) : Reader := r.run (List.replicate n .read)

/-- Every further reading gives `x` and leaves the reader as it is. -/
def Repeats (r : Reader) (x : Reading) : Prop := ∀ n, (r.after n).read = (x, r)

variable {r : Reader} {x : Reading} {n : Nat}

/-! ## Many readings -/

theorem after_succ (r : Reader) (n : Nat) : r.after (n + 1) = r.read.2.after n := rfl

/-- A reader that one reading leaves as it is gives the same for ever. -/
theorem repeats_of_read (h : r.read = (x, r)) : r.Repeats x := by
  intro n
  induction n with
  | zero => exact h
  | succ n ih =>
    rw [after_succ, h]
    exact ih

theorem Repeats.read (h : r.Repeats x) : r.read = (x, r) := h 0

/-- A reader that repeats itself stays as it is. -/
theorem Repeats.after (h : r.Repeats x) (n : Nat) : r.after n = r := by
  induction n with
  | zero => rfl
  | succ n ih => rw [after_succ, h.read, ih]

/-! ## Places of rest -/

/-- Where nothing is left, the document is empty. -/
theorem repeats_of_nil (h : r.tokens.list = []) : r.Repeats ⟨.ok .empty, []⟩ := by
  apply repeats_of_read
  obtain ⟨⟨list, finish⟩, limits, constants, tally⟩ := r
  obtain rfl : list = [] := h
  rfl

/-- What a refused token is told depends on what is awaited alone. -/
theorem State.step_refused_congr {limits limits' : Limits} {s s' : State} {t : Token} {e : Expected}
    (hfinish : t.kind ≠ .finish) (hawait : s'.awaiting = s.awaiting)
    (h : s.step limits t = .error (.refused e)) : s'.step limits' t = .error (.refused e) := by
  rw [step_eq_refused_iff hfinish] at h ⊢
  rw [hawait]
  exact h

/-- Before a token that no declaration starts with, the fault is the same each time. -/
theorem repeats_of_refused {t : Token} {rest : List Token} {e : Expected}
    (hlist : r.tokens.list = t :: rest)
    (hstep : (State.start r.constants r.tally).step r.limits t = .error (.refused e)) :
    r.Repeats ⟨.error (.unexpected e t), []⟩ := by
  apply repeats_of_read
  obtain ⟨⟨list, finish⟩, limits, constants, tally⟩ := r
  obtain rfl : list = t :: rest := hlist
  rw [read, State.feed]
  simp only [hstep]
  rfl

/-! ## One reading -/

/-- A declaration is expected only at the top level. -/
theorem Awaiting.expected_eq_declaration_iff {a : Awaiting} :
    a.expected = .declaration ↔ a = .declaration := by
  cases a <;> simp [Awaiting.expected]

/-- No declaration is missing at the end of a text. -/
theorem Awaiting.missing?_ne_declaration {a : Awaiting} : a.missing? ≠ some .declaration := by
  cases a <;> simp [Awaiting.missing?, Awaiting.expected]

/-- What a reading comes to: a document, a token that no declaration starts with, or a fault behind
something that was used up. -/
theorem read_cases (h : r.Written) :
    (∃ doc, r.read.1.result = .ok doc ∧ r.read.2.Repeats ⟨.ok .empty, []⟩) ∨
    (∃ t, r.read.1.result = .error (.unexpected .declaration t) ∧
      r.read.2.Repeats ⟨.error (.unexpected .declaration t), []⟩) ∨
    ∃ d, r.read.1.result = .error d ∧ (∀ t, d ≠ .unexpected .declaration t) ∧
      r.read.1.consumed ≠ [] := by
  cases r.ending with
  | whole hfeed hawait hread =>
    rw [hread]
    exact .inl ⟨_, rfl, repeats_of_nil rfl⟩
  | @unfinished s e hfeed hmissing hread =>
    have hconsumed : s.consumed = r.tokens.list := State.consumed_of_feed hfeed
    rw [hread]
    refine .inr (.inr ⟨_, rfl, ?_, ?_⟩)
    · intro t ht
      rw [(Diagnostic.unexpected_inj ht).1] at hmissing
      exact Awaiting.missing?_ne_declaration hmissing
    · -- nothing is missed at the start
      intro hnil
      rw [← hconsumed, show s.consumed = [] from hnil] at hfeed
      cases hfeed
      exact nomatch hmissing
  | @refused used rest t s e hlist hfeed hstep hread =>
    have hfinish : t.kind ≠ .finish :=
      h.kind_ne_finish (hlist ▸ List.mem_append_right used List.mem_cons_self)
    have hexpected : e = s.awaiting.expected := ((State.step_eq_refused_iff hfinish).mp hstep).2
    have hconsumed : s.consumed = used := State.consumed_of_feed hfeed
    rw [hread]
    by_cases he : e = .declaration
    · have hawait : s.awaiting = .declaration :=
        Awaiting.expected_eq_declaration_iff.mp (hexpected.symm.trans he)
      subst he
      refine .inr (.inl ⟨t, rfl, repeats_of_refused rfl ?_⟩)
      exact State.step_refused_congr hfinish hawait.symm hstep
    · refine .inr (.inr ⟨_, rfl, ?_, ?_⟩)
      · intro t' ht'
        exact he (Diagnostic.unexpected_inj ht').1
      · -- at the start a declaration is awaited
        intro hnil
        rw [← hconsumed, show s.consumed = [] from hnil] at hfeed
        cases hfeed
        exact he hexpected
  | @failed used rest t s s' d hlist hfeed hstep hread =>
    have hconsumed : s'.consumed ≠ [] := by
      rw [State.consumed_of_fault hfeed hstep]
      exact List.append_ne_nil_of_right_ne_nil _ (List.cons_ne_nil t [])
    rw [hread]
    refine .inr (.inr ⟨d, rfl, ?_, hconsumed⟩)
    intro t' hd
    exact not_isSyntax_of_failure (State.failure_of_step hstep) ⟨_, _, hd⟩

/-! ## All of them -/

/-- Readings keep to what can be written, however many there are. -/
theorem Written.after (h : r.Written) (n : Nat) : (r.after n).Written := h.run _

/-- After as many readings as there are tokens left, a reader rests. -/
theorem repeats_after (h : r.Written) (hn : r.tokens.list.length ≤ n) : ∃ x, (r.after n).Repeats x := by
  -- each reading either leaves the reader at rest or leaves fewer tokens
  induction n generalizing r with
  | zero => exact ⟨_, repeats_of_nil (List.eq_nil_of_length_eq_zero (Nat.le_zero.mp hn))⟩
  | succ n ih =>
    rw [after_succ]
    rcases read_cases h with ⟨_, -, hrest⟩ | ⟨_, -, hrest⟩ | ⟨_, -, -, hconsumed⟩
    · rw [hrest.after n]
      exact ⟨_, hrest⟩
    · rw [hrest.after n]
      exact ⟨_, hrest⟩
    · refine ih h.read.1 ?_
      have hlength := congrArg List.length (tokens_of_read r).1
      rw [List.length_append] at hlength
      have hpos := List.length_pos_iff.mpr hconsumed
      omega

/-- Reading on and on from a reader that has gone through anything comes to rest. Each reading gives a
document, and then every later one gives the empty document; or it meets a token that no declaration
starts with, and then every later one does; or it is another fault and used up a token. What is used up is
never the mark of the end. And after as many readings as there were tokens before that mark, every reading
gives the same and leaves the reader as it is. -/
theorem comes_to_rest (source : String) (limits : Limits) (moves : List Move) :
    let r := (ofText source limits).run moves
    (∀ n, (∃ doc, (r.after n).read.1.result = .ok doc ∧
          (r.after n).read.2.Repeats ⟨.ok .empty, []⟩) ∨
        (∃ t, (r.after n).read.1.result = .error (.unexpected .declaration t) ∧
          (r.after n).read.2.Repeats ⟨.error (.unexpected .declaration t), []⟩) ∨
        ∃ d, (r.after n).read.1.result = .error d ∧ (∀ t, d ≠ .unexpected .declaration t) ∧
          (r.after n).read.1.consumed ≠ []) ∧
      (∀ n, (r.after n).tokens.toList =
          (r.after n).read.1.consumed ++ (r.after n).read.2.tokens.toList ∧
        ∀ t ∈ (r.after n).read.1.consumed, t.kind ≠ .finish) ∧
      ∃ x, (r.after r.tokens.list.length).Repeats x := by
  intro r
  have hr : r.Written := (written_ofText source limits).run moves
  refine ⟨fun n => read_cases (hr.after n), fun n => ?_, repeats_after hr (Nat.le_refl _)⟩
  obtain ⟨hlist, hfinish, -⟩ := tokens_of_read (r.after n)
  refine ⟨?_, fun t ht => ?_⟩
  · rw [Tokens.toList, Tokens.toList, hfinish, ← List.append_assoc, ← hlist]
  · exact (hr.after n).kind_ne_finish (hlist ▸ List.mem_append_left _ ht)

/-- An instance: a number that does not fit is used up, so the second reading stops at the bracket behind
it, and so does every one that follows. -/
theorem comes_to_rest_at_bracket :
    ((ofText "a = 0xffffffffffffffff ] b = 0x1" .standard).after 0).read.1.result =
      .error ⟨.numericOverflow "ffffffffffffffff", ⟨1, 5⟩⟩ ∧
    ((ofText "a = 0xffffffffffffffff ] b = 0x1" .standard).after 2).Repeats
      ⟨.error (.unexpected .declaration ⟨.rightBracket, "]", ⟨1, 24⟩⟩), []⟩ := by
  have hsecond : ((ofText "a = 0xffffffffffffffff ] b = 0x1" .standard).after 1).read.1.result =
      .error (.unexpected .declaration ⟨.rightBracket, "]", ⟨1, 24⟩⟩) := by decide +kernel
  refine ⟨by decide +kernel, ?_⟩
  obtain ⟨hreadings, -, -⟩ := comes_to_rest "a = 0xffffffffffffffff ] b = 0x1" .standard []
  rcases hreadings 1 with ⟨doc, hdoc, -⟩ | ⟨t, ht, hrest⟩ | ⟨d, hd, hother, -⟩
  · exact nomatch hsecond.symm.trans hdoc
  · obtain rfl := (Diagnostic.unexpected_inj (Except.error.inj (hsecond.symm.trans ht))).2
    exact hrest
  · exact absurd (Except.error.inj (hsecond.symm.trans hd)).symm (hother _)

end HexConfig.Reader
