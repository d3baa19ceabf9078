import HexConfig.Proofs.Reader.Ending
import HexConfig.Proofs.Token.Pulls

/-!
# The trace is the row of tokens

At the finest level a reading tells of nothing but the tokens it uses up (`trace_eq_map_consumed`). Over a
whole text these are the first so many tokens of its row, each once and in order: all of them where the
text is read to its end, and those before the offending one where the grammar has no room for a token
(`exists_traced`). A token that raises a fault of another kind is the last that is told of.

So it is the same whether the row is cut in one go or token by token while reading goes on, one token ahead of
what is used up: what is told of is what so many calls of `Cursor.next` give, and the offending token is what the
next call gives (`exists_pulled`).
-/

namespace HexConfig

open Grammar Reader

variable {settings : Settings} {source : String} {limits : Limits} {s s' : State} {t : Token}
  {used rest : List Token} {e : Expected} {d : Diagnostic}

/-! ## The finest level -/

/-- What a log tells at the finest level are the tokens it tells of, in order. -/
theorem trace_eq_map_consumed (log : List Event) :
    log.filter (·.level = .trace) = (log.filterMap Event.token?).map .consumed := by
  induction log with
  | nil => rfl
  | cons e log ih =>
    cases e with
    | consumed t => exact congrArg (.consumed t :: ·) ih
    | _ => exact ih

/-- The trace of a state that the machine came to from the start. -/
theorem trace_of_feed {constants : Constants} {tally : Tally}
    (h : (State.start constants tally).feed limits used = .ok s) :
    s.log.reverse.filter (·.level = .trace) = used.map .consumed := by
  rw [trace_eq_map_consumed]
  exact congrArg (List.map Event.consumed) (State.consumed_of_feed h)

/-- The trace of a state behind a token that raised a fault. -/
theorem trace_of_fault {constants : Constants} {tally : Tally}
    (hused : (State.start constants tally).feed limits used = .ok s)
    (hstep : s.step limits t = .error (.failed d s')) :
    s'.log.reverse.filter (·.level = .trace) = (used ++ [t]).map .consumed := by
  rw [trace_eq_map_consumed]
  exact congrArg (List.map Event.consumed) (State.consumed_of_fault hused hstep)

/-! ## The grammar along a reading -/

/-- What the machine took from the start on begins a text. -/
theorem viable_of_feed (h : (State.start [] .zero).feed limits used = .ok s) :
    Viable (used.map Token.kind) := by
  rw [viable_iff, follow_of_feed_start h]
  rfl

/-- A token that is refused leaves nothing to put behind it. -/
theorem not_viable_of_refused (hfinish : t.kind ≠ .finish)
    (hused : (State.start [] .zero).feed limits used = .ok s)
    (hstep : s.step limits t = .error (.refused e)) :
    ¬ Viable (used.map Token.kind ++ [t.kind]) := by
  rw [viable_concat_iff hused, ((State.step_eq_refused_iff hfinish).mp hstep).1]
  exact Bool.false_ne_true

/-- Nor does the end where more is missed. -/
theorem not_viable_of_missing (hused : (State.start [] .zero).feed limits used = .ok s)
    (hmissing : s.awaiting.missing? = some e) :
    ¬ Viable (used.map Token.kind ++ [.finish]) := by
  rw [viable_concat_iff hused, Awaiting.next?_finish hmissing]
  exact Bool.false_ne_true

/-- A token that raises a fault of another kind fits. -/
theorem viable_of_failed (hfinish : t.kind ≠ .finish)
    (hused : (State.start [] .zero).feed limits used = .ok s)
    (hstep : s.step limits t = .error (.failed d s')) :
    Viable ((used ++ [t]).map Token.kind) := by
  rw [List.map_append, List.map_singleton, viable_concat_iff hused]
  by_contra hnone
  have hrefused : s.step limits t = .error (.refused s.awaiting.expected) :=
    (State.step_eq_refused_iff hfinish).mpr ⟨Option.not_isSome_iff_eq_none.mp hnone, rfl⟩
  rw [hstep] at hrefused
  exact nomatch hrefused

/-! ## The trace of a text -/

/-- What was used up of a text, and what a reading of it tells of that: the trace, and whether the grammar
had room for more. -/
structure Reading.Traces (x : Reading) (tokens : Tokens) (used rest : List Token) : Prop where
  list : tokens.list = used ++ rest
  trace : x.log.filter (·.level = .trace) = used.map .consumed
  viable : Viable (used.map Token.kind)
  /-- Where the text is read nothing is left. -/
  all : ∀ document, x.result = .ok document → rest = []
  /-- Where the grammar is what the text fails by, the offending token is the next one. -/
  offending : ∀ expected t, x.result = .error (.unexpected expected t) →
    (rest ++ [Token.finish tokens.finish]).head? = some t ∧ ¬ Viable (used.map Token.kind ++ [t.kind])

/-- What a reading has used up of a text. -/
theorem exists_traces (settings : Settings) (source : String) :
    ∃ used rest, (readSource settings source).Traces (Tokens.ofText source) used rest := by
  have hproper : ∀ t ∈ (Tokens.ofText source).list, t.kind ≠ .finish := fun t ht => kind_ne_finish ht
  unfold readSource
  cases (Reader.ofText source settings.toLimits).ending with
  | @whole s hfeed hawait hread =>
    rw [hread]
    exact ⟨_, [], (List.append_nil _).symm, trace_of_feed hfeed, viable_of_feed hfeed, fun _ _ => rfl,
      fun _ _ h => nomatch h⟩
  | @unfinished s e hfeed hmissing hread =>
    rw [hread]
    refine ⟨_, [], (List.append_nil _).symm, trace_of_feed hfeed, viable_of_feed hfeed, fun _ _ => rfl, ?_⟩
    intro expected t h
    obtain ⟨rfl, rfl⟩ := Diagnostic.unexpected_inj (Except.error.inj h)
    exact ⟨rfl, not_viable_of_missing hfeed hmissing⟩
  | @refused used rest t s e hlist hused hstep hread =>
    have hkind : t.kind ≠ .finish := hproper t (hlist ▸ List.mem_append_right _ List.mem_cons_self)
    rw [hread]
    refine ⟨used, t :: rest, hlist, trace_of_feed hused, viable_of_feed hused, ?_, ?_⟩
    · exact fun _ h => nomatch h
    · intro expected t' h
      obtain ⟨rfl, rfl⟩ := Diagnostic.unexpected_inj (Except.error.inj h)
      exact ⟨rfl, not_viable_of_refused hkind hused hstep⟩
  | @failed used rest t s s' d hlist hused hstep hread =>
    have hkind : t.kind ≠ .finish := hproper t (hlist ▸ List.mem_append_right _ List.mem_cons_self)
    rw [hread]
    refine ⟨used ++ [t], rest, hlist.trans (List.append_cons _ _ _), trace_of_fault hused hstep,
      viable_of_failed hkind hused hstep, ?_, ?_⟩
    · exact fun _ h => nomatch h
    · intro expected t' h
      exact absurd ⟨expected, t', Except.error.inj h⟩ (not_isSyntax_of_failure (State.failure_of_step hstep))

/-- The trace of a text, cut token by token: what so many calls give. One more gives the mark of the end where
the text is read, and the offending token where the grammar is what it fails by. -/
theorem exists_pulled (settings : Settings) (source : String) :
    ∃ n, (readSource settings source).log.filter (·.level = .trace) =
          ((Cursor.ofText source).pulls n).1.map .consumed ∧
        (∀ document, compile settings source = .ok document →
          ((Cursor.ofText source).pulls n).2.next.1 = Token.finish (Tokens.ofText source).finish) ∧
        ∀ expected t, compile settings source = .error (.unexpected expected t) →
          ((Cursor.ofText source).pulls n).2.next.1 = t := by
  obtain ⟨used, rest, htraces⟩ := exists_traces settings source
  obtain ⟨hgiven, hnext⟩ := (Cursor.ofText source).pulls_of_append htraces.list
  refine ⟨used.length, ?_, ?_, ?_⟩
  · rw [hgiven]
    exact htraces.trace
  · intro document h
    rw [htraces.all document h] at hnext
    exact (Option.some.inj hnext).symm
  · intro expected t h
    exact Option.some.inj (hnext.symm.trans (htraces.offending expected t h).1)

/-- The trace of a text: its first `m` tokens, which begin a text of the language. Where the text is read,
`m` counts all tokens but the mark of the end; where the grammar is what it fails by, `m` is the place of
the offending token, the first that leaves nothing to put behind it. -/
theorem exists_traced (settings : Settings) (source : String) :
    ∃ m ≤ (Tokens.ofText source).list.length,
      (readSource settings source).log.filter (·.level = .trace) =
          ((Tokens.ofText source).toList.take m).map .consumed ∧
        Viable ((Tokens.ofText source).kinds.take m) ∧
        (∀ document, compile settings source = .ok document →
          m = (Tokens.ofText source).list.length) ∧
        ∀ expected t, compile settings source = .error (.unexpected expected t) →
          (Tokens.ofText source).toList[m]? = some t ∧
            ¬ Viable ((Tokens.ofText source).kinds.take (m + 1)) := by
  obtain ⟨used, rest, htraces⟩ := exists_traces settings source
  have htokens : (Tokens.ofText source).toList =
      used ++ (rest ++ [Token.finish (Tokens.ofText source).finish]) := by
    rw [Tokens.toList, htraces.list, List.append_assoc]
  have htake : (Tokens.ofText source).toList.take used.length = used := by
    rw [htokens, List.take_left]
  refine ⟨used.length, ?_, ?_, ?_, ?_, ?_⟩
  · rw [htraces.list, List.length_append]
    exact Nat.le_add_right _ _
  · rw [htake]
    exact htraces.trace
  · rw [Tokens.kinds, ← List.map_take, htake]
    exact htraces.viable
  · intro document h
    rw [htraces.list, htraces.all document h, List.append_nil]
  · intro expected t h
    obtain ⟨hhead, hviable⟩ := htraces.offending expected t h
    have hget : (Tokens.ofText source).toList[used.length]? = some t := by
      rw [htokens, List.getElem?_append_right (Nat.le_refl _), Nat.sub_self, ← List.head?_eq_getElem?, hhead]
    refine ⟨hget, ?_⟩
    rw [(Tokens.take_kinds hget).2, htraces.list, List.take_left]
    exact hviable

/-- An instance: a text that is read, and one with a bracket where its object needs a name. -/
theorem exists_traced_bracket :
    ((readSource .standard "a = 0x1").log.filter (·.level = .trace) =
      [.consumed ⟨.identifier, "a", ⟨1, 1⟩⟩, .consumed ⟨.equals, "=", ⟨1, 3⟩⟩,
        .consumed ⟨.number, "1", ⟨1, 5⟩⟩]) ∧
    ∃ m, (readSource .standard "a = \x7b ]").log.filter (·.level = .trace) =
        ((Tokens.ofText "a = \x7b ]").toList.take m).map .consumed ∧
      (Tokens.ofText "a = \x7b ]").toList[m]? = some ⟨.rightBracket, "]", ⟨1, 7⟩⟩ := by
  obtain ⟨m, -, htrace, -, hall, -⟩ := exists_traced .standard "a = 0x1"
  obtain ⟨m', -, htrace', -, -, hoffending⟩ := exists_traced .standard "a = \x7b ]"
  have hread : compile .standard "a = 0x1" = .ok (Document.empty.insert "a" (.number 1)) := by decide +kernel
  have hrefused : compile .standard "a = \x7b ]" =
      .error (.unexpected (.kind .identifier) ⟨.rightBracket, "]", ⟨1, 7⟩⟩) := by decide +kernel
  refine ⟨?_, m', htrace', (hoffending _ _ hrefused).1⟩
  rw [htrace, hall _ hread]
  decide +kernel

end HexConfig
