import HexConfig.Proofs.Reader.Ending
import HexConfig.Proofs.Reader.Trees

/-!
# What a reading publishes

The tokens that a reading takes are those of whole declarations and those of one more that is only begun
(`exists_parts_of_feed`); where it is stopped in there, that one is never finished, since the next reading
starts at the top level. The constants change where a declaration is finished and nowhere else. So behind a
reading, however it ends, the table is the one before with the constants written over it that were declared
as a whole, in the order of the text (`read_publishes`).

The value of such a constant is that of what is written, with each reference standing for what the table
had at that place (`Term.valueIn?`). Its measures are those that the tally showed, and where an earlier
reading was stopped inside a container, that container is counted with.
-/

namespace HexConfig

/-! ## Values in a table -/

namespace Term

mutual

/-- The value of a term where references stand for the constants of a table. -/
def valueIn? (constants : Constants) : Term → Option Value
  | .number digits => (numberOf? digits).map .number
  | .string s => some (.ofString s)
  | .array items => (itemsIn? constants items).map .sequence
  | .object entries => (entriesIn? constants [] entries).map .mapping
  | .reference name => (constants.find? name).map Constant.value
termination_by structural t => t

/-- The values of an array's items. -/
def itemsIn? (constants : Constants) : List Term → Option (List Value)
  | [] => some []
  | t :: ts => do return (← valueIn? constants t) :: (← itemsIn? constants ts)
termination_by structural ts => ts

/-- The values of an object's entries, written one after the other over those before. -/
def entriesIn? (constants : Constants) (before : Entries Value) :
    List (String × Term) → Option (Entries Value)
  | [] => some before
  | (k, t) :: es => do entriesIn? constants (before.write k (← valueIn? constants t)) es
termination_by structural es => es

end

variable {limits : Limits} {constants : Constants}

mutual

/-- What a term is read to be is its value in the table. -/
theorem Reads.valueIn?_eq_some : ∀ (x : Term) {v : Value} {t t' : Tally},
    x.Reads limits constants t v t' → x.valueIn? constants = some v
  | .number digits, _, _, _, h => by
    cases h with
    | number hn => rw [valueIn?, hn, Option.map_some]
  | .string s, _, _, _, h => by
    cases h
    rfl
  | .array items, _, _, _, h => by
    cases h with
    | array _ _ h => rw [valueIn?, ReadsItems.itemsIn?_eq_some items h, Option.map_some]
  | .object entries, _, _, _, h => by
    cases h with
    | object _ _ h => rw [valueIn?, ReadsEntries.entriesIn?_eq_some entries h, Option.map_some]
  | .reference name, _, _, _, h => by
    cases h with
    | reference hc => rw [valueIn?, hc, Option.map_some]

theorem ReadsItems.itemsIn?_eq_some : ∀ (xs : List Term) {vs : List Value} {t t' : Tally},
    ReadsItems limits constants xs t vs t' → itemsIn? constants xs = some vs
  | [], _, _, _, h => by
    cases h
    rfl
  | x :: xs, _, _, _, h => by
    cases h with
    | cons h h' =>
      rw [itemsIn?, Reads.valueIn?_eq_some x h, ReadsItems.itemsIn?_eq_some xs h']
      rfl

theorem ReadsEntries.entriesIn?_eq_some : ∀ (xs : List (String × Term)) {before es : Entries Value}
    {t t' : Tally}, ReadsEntries limits constants xs before t es t' →
      entriesIn? constants before xs = some es
  | [], _, _, _, _, h => by
    cases h
    rfl
  | (k, x) :: xs, _, _, _, _, h => by
    cases h with
    | cons h h' =>
      rw [entriesIn?, Reads.valueIn?_eq_some x h]
      exact ReadsEntries.entriesIn?_eq_some xs h'

end

variable {known : Entries Term}

mutual

/-- In a table that agrees with what is known, a term has the value that it has written out. -/
theorem valueIn?_of_expand? (hagree : Reader.Agree known constants) : ∀ (x : Term) {u : Term},
    x.expand? known = some u → x.valueIn? constants = u.value?
  | .number digits, _, h => by
    cases h
    rfl
  | .string s, _, h => by
    cases h
    rfl
  | .reference name, _, h => by
    obtain ⟨c, hc, hvalue⟩ := hagree.exists_right h
    rw [valueIn?, hc, hvalue, Option.map_some]
  | .array items, _, h => by
    obtain ⟨us, hus, rfl⟩ := expand?_array_eq_some.mp h
    rw [valueIn?, value?, itemsIn?_of_expandItems? hagree items hus]
  | .object entries, _, h => by
    obtain ⟨us, hus, rfl⟩ := expand?_object_eq_some.mp h
    rw [valueIn?, value?, entriesIn?_of_expandEntries? hagree entries hus]

theorem itemsIn?_of_expandItems? (hagree : Reader.Agree known constants) : ∀ (xs : List Term)
    {us : List Term}, expandItems? known xs = some us → itemsIn? constants xs = itemsOf? us
  | [], _, h => by
    cases h
    rfl
  | x :: xs, _, h => by
    obtain ⟨u, us, hu, hus, rfl⟩ := expandItems?_cons_eq_some.mp h
    rw [itemsIn?, itemsOf?, valueIn?_of_expand? hagree x hu, itemsIn?_of_expandItems? hagree xs hus]

theorem entriesIn?_of_expandEntries? (hagree : Reader.Agree known constants) :
    ∀ (xs : List (String × Term)) {us : List (String × Term)} {before : Entries Value},
      expandEntries? known xs = some us → entriesIn? constants before xs = entriesOf? before us
  | [], _, _, h => by
    cases h
    rfl
  | (k, x) :: xs, _, _, h => by
    obtain ⟨u, us, hu, hus, rfl⟩ := expandEntries?_cons_eq_some.mp h
    simp only [entriesIn?, entriesOf?, valueIn?_of_expand? hagree x hu,
      entriesIn?_of_expandEntries? hagree xs hus]

end

end Term

/-! ## Constants that programs declare -/

/-- Pairs written one after the other over what is there. -/
def Entries.writeAll {α : Type} (es : Entries α) (pairs : List (String × α)) : Entries α :=
  pairs.foldl (fun es p => es.write p.1 p.2) es

/-- A name that is not written keeps what it stood for. -/
theorem Entries.find?_writeAll_of_not_mem {α : Type} {es : Entries α} {pairs : List (String × α)}
    {name : String} (h : name ∉ pairs.map Prod.fst) : (es.writeAll pairs).find? name = es.find? name := by
  induction pairs generalizing es with
  | nil => rfl
  | cons p pairs ih =>
    rw [List.map_cons, List.mem_cons, not_or] at h
    obtain ⟨hne, hnot⟩ := h
    rw [writeAll, List.foldl_cons, ← writeAll, ih hnot, find?_write, if_neg (Ne.symm hne)]

namespace Program

/-- The constants that declarations publish, in order, under these limits and with the tally and the table
that they start with. -/
inductive Publishes (limits : Limits) :
    Program → Constants → Tally → List (String × Constant) → Tally → Prop
  | nil {constants : Constants} {t : Tally} : Publishes limits [] constants t [] t
  | global {name : String} {x : Term} {p : Program} {constants : Constants} {t t' t'' : Tally} {v : Value}
      {published : List (String × Constant)} :
      x.Reads limits constants t.beginConstant v t' →
      Publishes limits p (constants.write name ⟨v, t'.peak, t'.nodes - t.nodes⟩)
        (t'.endConstant t.nodes) published t'' →
      Publishes limits (.global name x :: p) constants t
        ((name, ⟨v, t'.peak, t'.nodes - t.nodes⟩) :: published) t''
  | entry {key : String} {x : Term} {p : Program} {constants : Constants} {t t' t'' : Tally} {v : Value}
      {published : List (String × Constant)} :
      x.Reads limits constants t v t' → Publishes limits p constants t' published t'' →
      Publishes limits (.entry key x :: p) constants t published t''
  | block {es : List (String × Term)} {p : Program} {constants : Constants} {t t' t'' : Tally} {v : Value}
      {published : List (String × Constant)} :
      (Term.object es).Reads limits constants t v t' → Publishes limits p constants t' published t'' →
      Publishes limits (.block es :: p) constants t published t''

/-- The constants are those of the declarations `global N = v`, in order, each with the value that is
written in the table of its place. -/
def Declares : Program → Constants → List (String × Constant) → Prop
  | [], _, published => published = []
  | .global name x :: p, constants, published => ∃ c rest, published = (name, c) :: rest ∧
      x.valueIn? constants = some c.value ∧ Declares p (constants.write name c) rest
  | .entry _ _ :: p, constants, published => Declares p constants published
  | .block _ :: p, constants, published => Declares p constants published

variable {limits : Limits} {p : Program} {constants : Constants} {t t' : Tally}
  {published : List (String × Constant)}

theorem Publishes.declares (h : p.Publishes limits constants t published t') :
    p.Declares constants published := by
  induction h with
  | nil => rfl
  | global hreads _ ih => exact ⟨_, _, rfl, Term.Reads.valueIn?_eq_some _ hreads, ih⟩
  | entry _ _ ih => exact ih
  | block _ _ ih => exact ih

end Program

namespace Reader

namespace State

variable {limits : Limits} {s s' : State} {t : Token} {ts : List Token}

/-- The tokens of a program are taken by publishing what it declares. -/
theorem publishes_of_feed (p : Program) (hts : ts.map Token.word = p.words)
    (hawait : s.awaiting = .declaration) (hfeed : s.feed limits ts = .ok s') :
    ∃ published, p.Publishes limits s.constants s.tally published s'.tally ∧
      s'.constants = s.constants.writeAll published := by
  induction p generalizing s ts with
  | nil =>
    obtain rfl := List.map_eq_nil_iff.mp hts
    cases hfeed
    exact ⟨[], .nil, rfl⟩
  | cons d p ih =>
    rw [Program.words_cons] at hts
    obtain ⟨ts₁, ts₂, rfl, hts₁, hts₂⟩ := List.map_eq_append_iff.mp hts
    obtain ⟨s₁, hfeed₁, hfeed₂⟩ := feed_append_eq_ok_iff.mp hfeed
    obtain ⟨v, tally, hreads, rfl⟩ := (feed_declaration_iff d hts₁ hawait).mp hfeed₁
    cases d with
    | global name x =>
      obtain ⟨published, hp, htable⟩ := ih hts₂ rfl hfeed₂
      exact ⟨_, .global hreads hp, htable⟩
    | entry key x =>
      obtain ⟨published, hp, htable⟩ := ih hts₂ rfl hfeed₂
      exact ⟨_, .entry hreads hp, htable⟩
    | block es =>
      obtain ⟨published, hp, htable⟩ := ih hts₂ rfl hfeed₂
      exact ⟨_, .block hreads hp, htable⟩

/-! ## Declarations that are only begun -/

/-- A value that is delivered finishes a declaration or publishes nothing. -/
theorem deliver_settles (s : State) (v : Value) (ctx : Context) :
    (s.deliver v ctx).awaiting = .declaration ∨ (s.deliver v ctx).constants = s.constants := by
  obtain ⟨destination, frames⟩ := ctx
  cases frames with
  | nil => cases destination <;> exact .inl rfl
  | cons f frames => cases f <;> exact .inr rfl

/-- So does a token that is taken. -/
theorem constants_of_step (h : s.step limits t = .ok s') :
    s'.awaiting = .declaration ∨ s'.constants = s.constants := by
  cases advance_of_step h with
  | number | text | arrayEnd | objectEnd | referenceEnd => exact deliver_settles _ _ _
  | _ => exact .inr rfl

/-- Tokens taken from one place for a declaration to another are those of whole declarations. -/
theorem exists_program_of_feed (hproper : ∀ t ∈ ts, Word.Proper t.word)
    (hawait : s.awaiting = .declaration) (hfeed : s.feed limits ts = .ok s')
    (hawait' : s'.awaiting = .declaration) : ∃ p : Program, ts.map Token.word = p.words := by
  have hfollow : Grammar.follow [.programRest] (ts.map Token.kind) = some [.programRest] := by
    have hfollow := follow_of_feed hfeed
    rw [hawait, hawait'] at hfollow
    exact hfollow
  have hwhole : Grammar.Derives .program (ts.map Token.kind ++ [.finish]) := by
    rw [Grammar.derives_program_iff, Grammar.follow_append, hfollow]
    rfl
  generalize hks : ts.map Token.kind ++ [.finish] = ks at hwhole
  cases hwhole with
  | whole hdeclarations =>
    refine hdeclarations.reads ?_ ?_
    · intro w hw
      obtain ⟨t, ht, rfl⟩ := List.mem_map.mp hw
      exact hproper t ht
    · rw [← List.append_cancel_right hks, Grammar.kindsOf, List.map_map]
      rfl

end State

/-- The words do not begin with those of a whole declaration. -/
def OnlyBegun (ws : List Word) : Prop := ∀ d : Declaration, ¬ d.words <+: ws

namespace State

variable {limits : Limits} {s s' : State} {t : Token} {ts : List Token}

/-- Between two places for a declaration, with none in between. -/
def Amid (limits : Limits) (s : State) (ts : List Token) : Prop :=
  ∀ us vs s', ts = us ++ vs → us ≠ [] → s.feed limits us = .ok s' → s'.awaiting ≠ .declaration

theorem amid_nil : Amid limits s [] := by
  intro us vs s' h hne
  exact absurd (List.append_eq_nil_iff.mp h.symm).1 hne

theorem Amid.concat (h : Amid limits s ts) (hfeed : s.feed limits (ts ++ [t]) = .ok s')
    (hawait : s'.awaiting ≠ .declaration) : Amid limits s (ts ++ [t]) := by
  intro us vs s₁ heq hne hus
  rcases List.eq_nil_or_concat vs with rfl | ⟨vs, u, rfl⟩
  · rw [List.append_nil] at heq
    rw [heq, hus] at hfeed
    cases hfeed
    exact hawait
  · rw [List.concat_eq_append, ← List.append_assoc] at heq
    exact h us vs s₁ (List.append_inj' heq rfl).1 hne hus

/-- Tokens that no place for a declaration is among begin with no whole declaration. -/
theorem Amid.onlyBegun (h : Amid limits s ts) (hawait : s.awaiting = .declaration)
    (hfeed : s.feed limits ts = .ok s') : OnlyBegun (ts.map Token.word) := by
  rintro d ⟨ws, hws⟩
  obtain ⟨us, vs, rfl, hus, -⟩ := List.map_eq_append_iff.mp hws.symm
  obtain ⟨s₁, hfeed₁, -⟩ := feed_append_eq_ok_iff.mp hfeed
  have hne : us ≠ [] := by
    rintro rfl
    exact d.words_ne_nil hus.symm
  obtain ⟨v, tally, -, rfl⟩ := (feed_declaration_iff d hus hawait).mp hfeed₁
  refine h us vs _ rfl hne hfeed₁ ?_
  cases d <;> rfl

/-- What was taken from a place for a declaration on splits at the last such place. Behind that one nothing
is published. -/
theorem exists_last_place_of_feed (hawait : s.awaiting = .declaration) (hfeed : s.feed limits ts = .ok s') :
    ∃ (us vs : List Token) (s₁ : State), ts = us ++ vs ∧ s.feed limits us = .ok s₁ ∧
      s₁.awaiting = .declaration ∧ s₁.feed limits vs = .ok s' ∧ Amid limits s₁ vs ∧
      s'.constants = s₁.constants ∧ (s'.awaiting = .declaration → vs = []) := by
  -- from the end: the last token finishes a declaration, or it goes on with the one begun
  induction ts using List.reverseRecOn generalizing s' with
  | nil =>
    cases hfeed
    exact ⟨[], [], s, rfl, rfl, hawait, rfl, amid_nil, rfl, fun _ => rfl⟩
  | append_singleton ts t ih =>
    obtain ⟨s₂, hfeed₂, hstep⟩ := feed_append_eq_ok_iff.mp hfeed
    rw [feed_singleton_eq_ok_iff] at hstep
    by_cases hs' : s'.awaiting = .declaration
    · exact ⟨ts ++ [t], [], s', (List.append_nil _).symm, hfeed, hs', rfl, amid_nil, rfl, fun _ => rfl⟩
    · obtain ⟨us, vs, s₁, rfl, hus, hs₁, hvs, hamid, hconstants, -⟩ := ih hfeed₂
      have hvs' : s₁.feed limits (vs ++ [t]) = .ok s' :=
        feed_append_eq_ok_iff.mpr ⟨s₂, hvs, feed_singleton_eq_ok_iff.mpr hstep⟩
      have hconstants' : s'.constants = s₂.constants := (constants_of_step hstep).resolve_left hs'
      exact ⟨us, vs ++ [t], s₁, List.append_assoc _ _ _, hus, hs₁, hvs', hamid.concat hvs' hs',
        hconstants'.trans hconstants, fun h => absurd h hs'⟩

/-- What was taken from a place for a declaration on: whole declarations, and behind them at most the
beginning of one more, which publishes nothing. -/
theorem exists_parts_of_feed (hproper : ∀ t ∈ ts, Word.Proper t.word)
    (hawait : s.awaiting = .declaration) (hfeed : s.feed limits ts = .ok s') :
    ∃ (p : Program) (us vs : List Token) (s₁ : State), ts = us ++ vs ∧ us.map Token.word = p.words ∧
      s.feed limits us = .ok s₁ ∧ OnlyBegun (vs.map Token.word) ∧ s'.constants = s₁.constants ∧
      (s'.awaiting = .declaration → vs = []) := by
  obtain ⟨us, vs, s₁, rfl, hus, hs₁, hvs, hamid, hconstants, hwhole⟩ :=
    exists_last_place_of_feed hawait hfeed
  have hproper' : ∀ t ∈ us, Word.Proper t.word := fun t ht => hproper t (List.mem_append_left _ ht)
  obtain ⟨p, hp⟩ := exists_program_of_feed hproper' hawait hus hs₁
  exact ⟨p, us, vs, s₁, rfl, hp, hus, hamid.onlyBegun hs₁ hvs, hconstants, hwhole⟩

end State

/-! ## Readings -/

variable {r : Reader}

/-- Behind tokens that were taken, what is published is what their whole declarations declare. -/
theorem exists_published_of_feed (hr : r.Written) {used rest : List Token} {s : State}
    (hlist : r.tokens.list = used ++ rest)
    (hfeed : (State.start r.constants r.tally).feed r.limits used = .ok s) :
    ∃ (p : Program) (ws : List Word) (published : List (String × Constant)) (tally : Tally),
      used.map Token.word = p.words ++ ws ∧ OnlyBegun ws ∧ (s.awaiting = .declaration → ws = []) ∧
      p.Publishes r.limits r.constants r.tally published tally ∧
      s.constants = r.constants.writeAll published := by
  have hproper : ∀ t ∈ used, Word.Proper t.word := by
    intro t ht
    exact hr.tokens t (hlist ▸ List.mem_append_left _ ht)
  obtain ⟨p, us, vs, s₁, rfl, hus, hfeed₁, hbegun, hconstants, hwhole⟩ :=
    State.exists_parts_of_feed hproper rfl hfeed
  obtain ⟨published, hpublishes, htable⟩ := State.publishes_of_feed p hus rfl hfeed₁
  refine ⟨p, vs.map Token.word, published, _, ?_, hbegun, ?_, hpublishes, hconstants.trans htable⟩
  · rw [List.map_append, hus]
  · intro hawait
    rw [hwhole hawait]
    rfl

/-- In each ending the table left behind is that of the state behind the tokens taken. Where a token that
fits raised a fault, it is used up besides. -/
theorem exists_taken_of_read (r : Reader) :
    ∃ (taken rest : List Token) (s : State), r.tokens.list = taken ++ rest ∧
      (State.start r.constants r.tally).feed r.limits taken = .ok s ∧
      r.read.2.constants = s.constants ∧
      (∀ doc, r.read.1.result = .ok doc → s.awaiting = .declaration ∧ r.read.2.tokens.list = []) ∧
      (r.read.1.consumed = taken ∧ (∀ d, r.read.1.result = .error d → d.IsSyntax) ∨
        ∃ t d, r.read.1.consumed = taken ++ [t] ∧ r.read.1.result = .error d ∧ ¬ d.IsSyntax) := by
  cases r.ending with
  | @whole s hfeed hawait hread =>
    have hconsumed : s.consumed = r.tokens.list := State.consumed_of_feed hfeed
    rw [hread]
    exact ⟨_, [], s, (List.append_nil _).symm, hfeed, rfl, fun _ _ => ⟨hawait, rfl⟩,
      .inl ⟨hconsumed, fun _ h => nomatch h⟩⟩
  | @unfinished s e hfeed hmissing hread =>
    have hconsumed : s.consumed = r.tokens.list := State.consumed_of_feed hfeed
    rw [hread]
    refine ⟨_, [], s, (List.append_nil _).symm, hfeed, rfl, nofun, .inl ⟨hconsumed, ?_⟩⟩
    intro d hd
    exact ⟨e, _, (Except.error.inj hd).symm⟩
  | @refused used rest t s e hlist hfeed hstep hread =>
    have hconsumed : s.consumed = used := State.consumed_of_feed hfeed
    rw [hread]
    refine ⟨used, t :: rest, s, hlist, hfeed, rfl, nofun, .inl ⟨hconsumed, ?_⟩⟩
    intro d hd
    exact ⟨e, t, (Except.error.inj hd).symm⟩
  | @failed used rest t s s' d hlist hfeed hstep hread =>
    have hconsumed : s'.consumed = used ++ [t] := State.consumed_of_fault hfeed hstep
    rw [hread]
    exact ⟨used, t :: rest, s, hlist, hfeed, State.constants_of_failed hstep, nofun,
      .inr ⟨t, d, hconsumed, rfl, not_isSyntax_of_failure (State.failure_of_step hstep)⟩⟩

/-- How a reading publishes, however it ends and whatever the reader went through before. The tokens used
up are those taken and, where a token that fits raised a fault, that token; the tokens taken are those of
whole declarations and of at most the beginning of one more. The table is then the one before with the
constants written over it, in order, that the whole declarations declare. A name that none of them declares
stands for what it did, and so does the name of a constant that is only begun. -/
theorem read_publishes (source : String) (limits : Limits) (moves : List Move) :
    let r := (ofText source limits).run moves
    r.tokens.list = r.read.1.consumed ++ r.read.2.tokens.list ∧
    ∃ (taken : List Token) (p : Program) (ws : List Word) (published : List (String × Constant))
        (tally : Tally),
      (r.read.1.consumed = taken ∧ (∀ d, r.read.1.result = .error d → d.IsSyntax) ∨
        ∃ t d, r.read.1.consumed = taken ++ [t] ∧ r.read.1.result = .error d ∧ ¬ d.IsSyntax) ∧
      taken.map Token.word = p.words ++ ws ∧ OnlyBegun ws ∧
      (∀ doc, r.read.1.result = .ok doc → ws = [] ∧ r.read.2.tokens.list = []) ∧
      p.Publishes r.limits r.constants r.tally published tally ∧
      p.Declares r.constants published ∧
      r.read.2.constants = r.constants.writeAll published ∧
      ∀ name, name ∉ published.map Prod.fst →
        r.read.2.constants.find? name = r.constants.find? name := by
  intro r
  have hr : r.Written := (written_ofText source limits).run moves
  obtain ⟨taken, rest, s, hlist, hfeed, hconstants, hwhole, hconsumed⟩ := r.exists_taken_of_read
  obtain ⟨p, ws, published, tally, hwords, hbegun, hnil, hpublishes, htable⟩ :=
    exists_published_of_feed hr hlist hfeed
  refine ⟨(tokens_of_read r).1, taken, p, ws, published, tally, hconsumed, hwords, hbegun, ?_,
    hpublishes, hpublishes.declares, hconstants.trans htable, ?_⟩
  · intro doc hdoc
    obtain ⟨hawait, hleft⟩ := hwhole doc hdoc
    exact ⟨hnil hawait, hleft⟩
  · intro name hname
    rw [hconstants, htable, Entries.find?_writeAll_of_not_mem hname]

/-- An instance: the first reading is stopped inside an array. The second publishes `A` once more and is
stopped inside a constant of that name, which so stands for what the second declared as a whole. -/
theorem read_publishes_redeclared :
    ((ofText "global A = 0x1 x = #(?[B] global A = 0x2 global A = #(?[A] ?[C])" .standard).run
        [.read]).read.1.result = .error ⟨.unknownConstant "C", ⟨1, 62⟩⟩ ∧
    ((ofText "global A = 0x1 x = #(?[B] global A = 0x2 global A = #(?[A] ?[C])" .standard).run
        [.read]).constants.find? "A" = some ⟨.number 1, 0, 1⟩ ∧
    ((ofText "global A = 0x1 x = #(?[B] global A = 0x2 global A = #(?[A] ?[C])" .standard).run
        [.read]).read.2.constants.find? "A" = some ⟨.number 2, 0, 1⟩ ∧
    ∃ (p : Program) (ws : List Word) (published : List (String × Constant)), OnlyBegun ws ∧
      p.Declares ((ofText "global A = 0x1 x = #(?[B] global A = 0x2 global A = #(?[A] ?[C])"
        .standard).run [.read]).constants published ∧ "A" ∈ published.map Prod.fst := by
  have hbefore : ((ofText "global A = 0x1 x = #(?[B] global A = 0x2 global A = #(?[A] ?[C])"
      .standard).run [.read]).constants.find? "A" = some ⟨.number 1, 0, 1⟩ := by decide +kernel
  have hbehind : ((ofText "global A = 0x1 x = #(?[B] global A = 0x2 global A = #(?[A] ?[C])"
      .standard).run [.read]).read.2.constants.find? "A" = some ⟨.number 2, 0, 1⟩ := by decide +kernel
  refine ⟨by decide +kernel, hbefore, hbehind, ?_⟩
  obtain ⟨-, -, p, ws, published, -, -, -, hbegun, -, -, hdeclares, -, hothers⟩ := read_publishes
    "global A = 0x1 x = #(?[B] global A = 0x2 global A = #(?[A] ?[C])" .standard [.read]
  refine ⟨p, ws, published, hbegun, hdeclares, ?_⟩
  by_contra hnot
  have hsame := hothers "A" hnot
  rw [hbefore, hbehind] at hsame
  exact absurd hsame (by decide)

end Reader

end HexConfig
