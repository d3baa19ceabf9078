import HexConfig.Proofs.Conversion
import HexConfig.Proofs.Reader.Goals

/-!
# Where a text stops being one of the language

A text that is not of the language is told so at the first token that leaves nothing to put behind it
that would make it one: the kinds before that token are viable, those with it are not, and what is told
to be expected would have been viable in its place (`compile_unexpected`). The mark of the end is such a
token where the text is only begun, so a text is told to be unterminated exactly if all of it could be
gone on with.

A fault of another kind comes first if an earlier token raises it. Where none does, the first token that
is not viable is the one that is told of.
-/

namespace HexConfig

open Grammar Reader

/-- The fault is that of a token that the grammar has no room for. -/
def Diagnostic.IsSyntax (d : Diagnostic) : Prop := ∃ expected t, d = .unexpected expected t

theorem Diagnostic.unexpected_inj {e e' : Expected} {t t' : Token}
    (h : unexpected e t = unexpected e' t') : e = e' ∧ t = t' := by
  obtain ⟨k, text, p⟩ := t
  obtain ⟨k', text', p'⟩ := t'
  simp_all [unexpected]

/-- Whether input ran out is told by the kind of the token. -/
theorem Diagnostic.isUnterminated_iff {d : Diagnostic} :
    d.isUnterminated = true ↔ ∃ expected t, d = .unexpected expected t ∧ t.kind = .finish := by
  constructor
  · intro h
    obtain ⟨fault, p⟩ := d
    unfold isUnterminated at h
    split at h
    · next e text heq =>
      cases heq
      exact ⟨e, ⟨.finish, text, p⟩, rfl, rfl⟩
    · exact nomatch h
  · rintro ⟨expected, ⟨k, text, p⟩, rfl, rfl⟩
    rfl

variable {settings : Settings} {limits : Limits} {source : String} {s s' : State} {t : Token}
  {used : List Token} {expected : Expected} {k : Token.Kind} {i : Nat}

/-! ## Rows of tokens -/

/-- No token of a text is the mark of the end. -/
theorem kind_ne_finish (ht : t ∈ (Tokens.ofText source).list) : t.kind ≠ .finish := by
  intro hkind
  have hproper := Tokens.proper_of_mem ht
  rw [Token.word, hkind] at hproper
  exact hproper

namespace Tokens

variable {ts : Tokens}

/-- A token of a row stands in the list, or it is the mark of the end. -/
theorem of_getElem? (h : ts.toList[i]? = some t) :
    (∃ rest, ts.list = ts.list.take i ++ t :: rest) ∨
      ts.list.take i = ts.list ∧ t = Token.finish ts.finish := by
  rcases Nat.lt_or_ge i ts.list.length with hlt | hle
  · rw [toList, List.getElem?_append_left hlt] at h
    obtain ⟨_, rfl⟩ := List.getElem?_eq_some_iff.mp h
    refine .inl ⟨ts.list.drop (i + 1), ?_⟩
    rw [← List.drop_eq_getElem_cons hlt, List.take_append_drop]
  · rw [toList, List.getElem?_append_right hle] at h
    obtain ⟨hzero, rfl⟩ := List.getElem?_eq_some_iff.mp h
    exact .inr ⟨List.take_of_length_le hle, by simp⟩

/-- The kinds up to a token. -/
theorem take_kinds (h : ts.toList[i]? = some t) :
    ts.kinds.take i = (ts.list.take i).map Token.kind ∧
      ts.kinds.take (i + 1) = (ts.list.take i).map Token.kind ++ [t.kind] := by
  have hi : i ≤ ts.list.length := by
    have hlt := (List.getElem?_eq_some_iff.mp h).1
    rw [toList, List.length_append, List.length_singleton] at hlt
    omega
  have htake : ts.kinds.take i = (ts.list.take i).map Token.kind := by
    rw [kinds, toList, ← List.map_take, List.take_append_of_le_length hi]
  refine ⟨htake, ?_⟩
  rw [List.take_add_one, htake, kinds, List.getElem?_map, h]
  rfl

end Tokens

/-! ## The machine and the grammar -/

/-- What the machine takes from the start on begins a text. -/
theorem follow_of_feed_start (h : (State.start [] .zero).feed limits used = .ok s) :
    follow [.programRest] (used.map Token.kind) = some s.awaiting.goals :=
  State.follow_of_feed h

/-- One more token begins a text if it can be the first of what is to be read. -/
theorem viable_concat_iff (h : (State.start [] .zero).feed limits used = .ok s) :
    Viable (used.map Token.kind ++ [k]) ↔ (s.awaiting.goal.next? k).isSome := by
  rw [viable_iff, follow_append, follow_of_feed_start h, Option.bind_some, Awaiting.goals,
    follow_singleton_isSome]

/-- A fault of a token that fits is none of the grammar. -/
theorem not_isSyntax_of_failure {d : Diagnostic} (h : State.Failure limits s d s') :
    ¬ d.IsSyntax := by
  rintro ⟨e, t, hd⟩
  cases h with
  | number hdecode =>
    obtain rfl := (Diagnostic.mk.inj hd).1
    unfold State.decode at hdecode
    split at hdecode
    · exact nomatch hdecode
    · split at hdecode
      · exact nomatch hdecode
      · exact nomatch hdecode
  | _ => exact nomatch hd

/-- Where a run stops with a fault of the grammar. -/
theorem refused_of_feed {ts : List Token} (hfinish : ∀ t ∈ ts, t.kind ≠ .finish) {stop : Stop}
    (h : s.feed limits ts = .error stop) (hstop : stop.diagnostic = .unexpected expected t) :
    ∃ used rest s₁, ts = used ++ t :: rest ∧ s.feed limits used = .ok s₁ ∧
      s₁.awaiting.goal.next? t.kind = none ∧ expected = s₁.awaiting.expected := by
  obtain ⟨used, t', rest, s₁, rfl, hfeed, ⟨e, hstep, rfl⟩ | ⟨hstep, -⟩⟩ := State.stop_of_feed h
  · obtain ⟨rfl, rfl⟩ := Diagnostic.unexpected_inj hstop
    have ht' := hfinish t' (List.mem_append_right _ List.mem_cons_self)
    exact ⟨used, rest, s₁, rfl, hfeed, (State.step_eq_refused_iff ht').mp hstep⟩
  · exact absurd ⟨expected, t, hstop⟩ (not_isSyntax_of_failure (State.failure_of_step hstep))

/-- Where a reading stops with a fault of the grammar. -/
theorem refused_of_compile (h : compile settings source = .error (.unexpected expected t)) :
    ∃ used rest s, (Tokens.ofText source).toList = used ++ t :: rest ∧
      (State.start [] .zero).feed settings.toLimits used = .ok s ∧
      s.awaiting.goal.next? t.kind = none ∧
      ∀ k, expected.Starts k → (s.awaiting.goal.next? k).isSome := by
  rw [compile_eq] at h
  split at h
  · next stop hfeed =>
    obtain ⟨used, rest, s, hlist, hused, hnext, rfl⟩ :=
      refused_of_feed (fun t ht => kind_ne_finish ht) hfeed (Except.error.inj h)
    refine ⟨used, rest ++ [Token.finish (Tokens.ofText source).finish], s, ?_, hused, hnext, ?_⟩
    · rw [Tokens.toList, hlist, List.append_assoc, List.cons_append]
    · exact fun k hk => s.awaiting.isSome_next?_of_starts hk
  · next s hfeed =>
    split at h
    · next d hd =>
      obtain ⟨e, hmissing, he⟩ := Option.map_eq_some_iff.mp hd
      obtain ⟨rfl, rfl⟩ := Diagnostic.unexpected_inj (he.trans (Except.error.inj h))
      exact ⟨_, [], s, rfl, hfeed, Awaiting.next?_finish hmissing,
        fun k hk => Awaiting.isSome_next?_of_missing hmissing hk⟩
    · cases h

/-! ## What is told -/

/-- A fault of the grammar is that of the first token which leaves nothing to put behind it, and what was
expected would have left something. -/
theorem viable_of_compile_unexpected
    (h : compile settings source = .error (.unexpected expected t)) :
    ∃ i, (Tokens.ofText source).toList[i]? = some t ∧
      Viable ((Tokens.ofText source).kinds.take i) ∧
      ¬ Viable ((Tokens.ofText source).kinds.take (i + 1)) ∧
      ∀ k, expected.Starts k → Viable ((Tokens.ofText source).kinds.take i ++ [k]) := by
  obtain ⟨used, rest, s, htokens, hused, hnext, hstarts⟩ := refused_of_compile h
  have hkinds : (Tokens.ofText source).kinds =
      used.map Token.kind ++ t.kind :: rest.map Token.kind := by
    rw [Tokens.kinds, htokens, List.map_append, List.map_cons]
  have hlength : used.length = (used.map Token.kind).length := (List.length_map _).symm
  have htake : (Tokens.ofText source).kinds.take used.length = used.map Token.kind := by
    rw [hkinds, List.take_left' hlength.symm]
  refine ⟨used.length, by simp [htokens], ?_, ?_, ?_⟩
  · rw [htake, viable_iff, follow_of_feed_start hused]
    rfl
  · rw [List.take_add_one, htake, hkinds, List.getElem?_append_right (Nat.le_of_eq hlength.symm), hlength,
      Nat.sub_self]
    show ¬ Viable (used.map Token.kind ++ [t.kind])
    rw [viable_concat_iff hused, hnext]
    exact Bool.false_ne_true
  · intro k hk
    rw [htake, viable_concat_iff hused]
    exact hstarts k hk

/-- A text is told to be unterminated exactly if the grammar is what it fails by, and all of it begins a
text without being one. -/
theorem isUnterminated_iff_of_compile {d : Diagnostic} (h : compile settings source = .error d) :
    d.isUnterminated = true ↔
      d.IsSyntax ∧ Viable ((Tokens.ofText source).list.map Token.kind) ∧
        ¬ Derives .program (Tokens.ofText source).kinds := by
  constructor
  · intro hd
    obtain ⟨expected, t, rfl, hfinish⟩ := Diagnostic.isUnterminated_iff.mp hd
    obtain ⟨i, hget, hviable, hbreaks, -⟩ := viable_of_compile_unexpected h
    obtain ⟨htake, hsucc⟩ := Tokens.take_kinds hget
    rcases Tokens.of_getElem? hget with ⟨rest, hlist⟩ | ⟨hall, rfl⟩
    · have ht : t ∈ (Tokens.ofText source).list :=
        hlist ▸ List.mem_append_right _ List.mem_cons_self
      exact absurd hfinish (kind_ne_finish ht)
    · rw [htake, hall] at hviable
      refine ⟨⟨_, _, rfl⟩, hviable, fun hwhole => hbreaks ?_⟩
      refine ⟨[], ?_⟩
      rw [hsucc, hall, List.append_nil]
      simpa [Tokens.kinds, Tokens.toList] using hwhole
  · rintro ⟨⟨expected, t, rfl⟩, hall, -⟩
    obtain ⟨i, hget, -, hbreaks, -⟩ := viable_of_compile_unexpected h
    rcases Tokens.of_getElem? hget with ⟨rest, hlist⟩ | ⟨-, rfl⟩
    · refine absurd ?_ hbreaks
      rw [hlist, List.map_append, List.map_cons, ← List.singleton_append, ← List.append_assoc] at hall
      rw [(Tokens.take_kinds hget).2]
      exact hall.of_append
    · rfl

/-- What begins a text is taken, unless it raises a fault of another kind. -/
theorem feed_of_viable (hfinish : ∀ t ∈ used, t.kind ≠ .finish) (h : Viable (used.map Token.kind))
    (hother : ∀ stop, (State.start [] .zero).feed limits used = .error stop →
      stop.diagnostic.IsSyntax) : ∃ s, (State.start [] .zero).feed limits used = .ok s := by
  cases hfeed : (State.start [] .zero).feed limits used with
  | ok s => exact ⟨s, rfl⟩
  | error stop =>
    obtain ⟨expected, t, hstop⟩ := hother stop hfeed
    obtain ⟨used', rest, s, rfl, hused, hnext, -⟩ := refused_of_feed hfinish hfeed hstop
    rw [List.map_append, List.map_cons, ← List.singleton_append, ← List.append_assoc] at h
    have hviable := (viable_concat_iff hused).mp h.of_append
    rw [hnext] at hviable
    exact nomatch hviable

/-- The first token that leaves nothing to put behind it is told of, if no token before it raises a fault
of another kind. -/
theorem compile_of_not_viable (hget : (Tokens.ofText source).toList[i]? = some t)
    (hviable : Viable ((Tokens.ofText source).kinds.take i))
    (hbreaks : ¬ Viable ((Tokens.ofText source).kinds.take (i + 1)))
    (hother : ∀ stop, (State.start [] .zero).feed settings.toLimits
      ((Tokens.ofText source).list.take i) = .error stop → stop.diagnostic.IsSyntax) :
    ∃ expected, compile settings source = .error (.unexpected expected t) := by
  obtain ⟨htake, hsucc⟩ := Tokens.take_kinds hget
  rw [htake] at hviable
  rw [hsucc] at hbreaks
  obtain ⟨s, hused⟩ := feed_of_viable
    (fun t ht => kind_ne_finish (List.mem_of_mem_take ht)) hviable hother
  have hnext : s.awaiting.goal.next? t.kind = none := by
    rw [← Option.not_isSome_iff_eq_none, ← viable_concat_iff hused]
    exact hbreaks
  rcases Tokens.of_getElem? hget with ⟨rest, hlist⟩ | ⟨hall, rfl⟩
  · have ht : t ∈ (Tokens.ofText source).list :=
      hlist ▸ List.mem_append_right _ List.mem_cons_self
    have hstep : s.step settings.toLimits t = .error (.refused s.awaiting.expected) :=
      (State.step_eq_refused_iff (kind_ne_finish ht)).mpr ⟨hnext, rfl⟩
    have hfeed : (State.start [] .zero).feed settings.toLimits
        ((Tokens.ofText source).list.take i ++ t :: rest) = _ := State.feed_append_of_ok hused
    rw [← hlist, State.feed, hstep] at hfeed
    exact ⟨_, compile_of_feed_error hfeed⟩
  · rw [hall] at hused
    cases hmissing : s.awaiting.missing? with
    | none =>
      have hfinish : s.finish? (Tokens.ofText source).finish = none := by
        rw [State.finish?, hmissing, Option.map_none]
      rw [State.finish?_eq_none_iff.mp hfinish] at hnext
      exact absurd hnext (Option.some_ne_none _)
    | some expected =>
      refine ⟨expected, ?_⟩
      rw [compile_eq, hused]
      simp only [State.finish?, hmissing, Option.map_some]

/-- A fault of the grammar is told of at the first token that leaves nothing to put behind it to make a
text of the language: the tokens before it begin one, they do not with it, and they do with whatever
was expected in its place. Input is told to have run out exactly if all tokens begin a text without
making one. The other way round, the first such token is told of, unless one before it raises a fault
of another kind. -/
theorem compile_unexpected (settings : Settings) (source : String) :
    (∀ (expected : Expected) (t : Token),
      compile settings source = .error (.unexpected expected t) →
        ∃ i, (Tokens.ofText source).toList[i]? = some t ∧
          Viable ((Tokens.ofText source).kinds.take i) ∧
          ¬ Viable ((Tokens.ofText source).kinds.take (i + 1)) ∧
          ∀ k, expected.Starts k → Viable ((Tokens.ofText source).kinds.take i ++ [k])) ∧
    (∀ d : Diagnostic, compile settings source = .error d →
      (d.isUnterminated = true ↔
        d.IsSyntax ∧ Viable ((Tokens.ofText source).list.map Token.kind) ∧
          ¬ Derives .program (Tokens.ofText source).kinds)) ∧
    ∀ (i : Nat) (t : Token), (Tokens.ofText source).toList[i]? = some t →
      Viable ((Tokens.ofText source).kinds.take i) →
      ¬ Viable ((Tokens.ofText source).kinds.take (i + 1)) →
      (∀ stop, (State.start [] .zero).feed settings.toLimits
        ((Tokens.ofText source).list.take i) = .error stop → stop.diagnostic.IsSyntax) →
      ∃ expected, compile settings source = .error (.unexpected expected t) := by
  refine ⟨?_, ?_, ?_⟩
  · intro expected t h
    exact viable_of_compile_unexpected h
  · intro d h
    exact isUnterminated_iff_of_compile h
  · intro i t hget hviable hbreaks hother
    exact compile_of_not_viable hget hviable hbreaks hother

/-- An instance: an array that is closed by a bracket, and one that is not closed. -/
theorem compile_unexpected_array :
    (∃ i, (Tokens.ofText "a = #(0x1 ]").toList[i]? = some ⟨.rightBracket, "]", ⟨1, 11⟩⟩ ∧
      Viable ((Tokens.ofText "a = #(0x1 ]").kinds.take i ++ [.hash])) ∧
    (∃ d, compile ⟨.standard, false⟩ "a = #(0x1" = .error d ∧ d.isUnterminated = true) ∧
    ∃ expected, compile ⟨.standard, false⟩ "a = #(0x1 ]" =
      .error (.unexpected expected ⟨.rightBracket, "]", ⟨1, 11⟩⟩) := by
  obtain ⟨hfirst, -, htold⟩ := compile_unexpected ⟨.standard, false⟩ "a = #(0x1 ]"
  obtain ⟨-, hends, -⟩ := compile_unexpected ⟨.standard, false⟩ "a = #(0x1"
  have hclosed : compile ⟨.standard, false⟩ "a = #(0x1 ]" =
      .error (.unexpected .value ⟨.rightBracket, "]", ⟨1, 11⟩⟩) := by decide +kernel
  have hopen : compile ⟨.standard, false⟩ "a = #(0x1" =
      .error (.unexpected (.kind .rightParen) ⟨.finish, "", ⟨1, 10⟩⟩) := by decide +kernel
  have htaken : ((State.start [] .zero).feed Limits.standard
      ((Tokens.ofText "a = #(0x1 ]").list.take 5)).isOk = true := by decide +kernel
  refine ⟨?_, ⟨_, hopen, ?_⟩, ?_⟩
  · obtain ⟨i, hget, -, -, hstarts⟩ := hfirst _ _ hclosed
    exact ⟨i, hget, hstarts .hash ⟨_, .array .noItems⟩⟩
  · exact (hends _ hopen).mpr ⟨⟨_, _, rfl⟩, by decide +kernel, by decide +kernel⟩
  · refine htold 5 _ (by decide +kernel) (by decide +kernel) (by decide +kernel) fun stop hstop => ?_
    rw [show Settings.toLimits ⟨.standard, false⟩ = Limits.standard from rfl] at hstop
    rw [hstop] at htaken
    exact nomatch htaken

end HexConfig
