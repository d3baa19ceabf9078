import HexConfig.Proofs.Reader.Advance
import HexConfig.Proofs.Source.Expansion
import HexConfig.Proofs.Source.Unambiguous
import HexConfig.Proofs.Token.Proper

/-!
# What a reader has read

At every point of a reading the words used up so far are those of a program and of the beginning of
one more declaration, and the state of the reader says what they mean: its document is the document of
the program, its constants are the values of the constants declared in it, and each open container
holds the values of the items or entries written in it. `State.Read` is that invariant; every token
that is taken keeps it (`read_of_step`), so it holds of whatever the machine has come to
(`read_of_feed`). Where a declaration may start, nothing is left over, and what was read is a program
with its meaning (`meaning?_of_read`).

The beginning of a declaration is described from the outside in: `Context.Wraps` says which words
open the containers around a value.
-/

namespace HexConfig.Reader

/-- The constants published are the values of the constants declared. -/
def Agree (known : Entries Term) (constants : Constants) : Prop :=
  known.Related (fun u c => u.value? = some c.value) constants

/-- Any value may stand at the place. Only a block that stands by itself is already known to be an
object. -/
def Context.TakesAny (ctx : Context) : Prop := ctx ≠ ⟨.block, []⟩

theorem Context.takesAny_within (ctx : Context) (f : Frame) : (ctx.within f).TakesAny :=
  fun h => List.cons_ne_nil f ctx.frames (congrArg frames h)

/-- The words `ws` begin a declaration and stop at a place for a value, and `ctx` is what is around
that place. -/
inductive Context.Wraps (known : Entries Term) : Context → List Word → Prop
  | global (name : String) (before : Nat) :
      Wraps known ⟨.global name before, []⟩
        [(.global, "global"), (.identifier, name), (.equals, "=")]
  | entry (key : String) : Wraps known ⟨.entry key, []⟩ [(.identifier, key), (.equals, "=")]
  | block : Wraps known ⟨.block, []⟩ []
  | sequence {d : Destination} {fs : List Frame} {ws : List Word} {ts us : List Term}
      {vs : List Value} : Context.TakesAny ⟨d, fs⟩ → Wraps known ⟨d, fs⟩ ws →
      Term.expandItems? known ts = some us → Term.itemsOf? us = some vs.reverse →
      Wraps known ⟨d, .sequence vs :: fs⟩
        (ws ++ (.hash, "#") :: (.leftParen, "(") :: Term.wordsOfItems ts)
  | mapping {d : Destination} {fs : List Frame} {ws : List Word} {es us : List (String × Term)}
      {vs : Entries Value} (key : String) : Wraps known ⟨d, fs⟩ ws →
      Term.expandEntries? known es = some us → Term.entriesOf? [] us = some vs →
      Wraps known ⟨d, .mapping vs key :: fs⟩
        (ws ++ (.leftBrace, "\x7b") :: (Term.wordsOfEntries es
          ++ [(.identifier, key), (.equals, "=")]))

/-- The words `ws` begin a declaration, and after them the machine awaits what it does. -/
def Awaiting.Follows (known : Entries Term) : Awaiting → List Word → Prop
  | .declaration, ws => ws = []
  | .globalName, ws => ws = [(.global, "global")]
  | .globalEquals name, ws => ws = [(.global, "global"), (.identifier, name)]
  | .entryEquals k, ws => ws = [(.identifier, k)]
  | .value ctx, ws => ctx.TakesAny ∧ ctx.Wraps known ws
  | .arrayParen _ ctx, ws =>
    ctx.TakesAny ∧ ∃ ws', ctx.Wraps known ws' ∧ ws = ws' ++ [(.hash, "#")]
  | .item vs ctx, ws =>
    ctx.TakesAny ∧ ∃ ws' ts us, ctx.Wraps known ws' ∧ Term.expandItems? known ts = some us ∧
      Term.itemsOf? us = some vs.reverse ∧
      ws = ws' ++ (.hash, "#") :: (.leftParen, "(") :: Term.wordsOfItems ts
  | .key vs ctx, ws =>
    ∃ ws' es us, ctx.Wraps known ws' ∧ Term.expandEntries? known es = some us ∧
      Term.entriesOf? [] us = some vs ∧
      ws = ws' ++ (.leftBrace, "\x7b") :: Term.wordsOfEntries es
  | .equals vs k ctx, ws =>
    ∃ ws' es us, ctx.Wraps known ws' ∧ Term.expandEntries? known es = some us ∧
      Term.entriesOf? [] us = some vs ∧
      ws = ws' ++ (.leftBrace, "\x7b") :: (Term.wordsOfEntries es ++ [(.identifier, k)])
  | .referenceBracket _ ctx, ws =>
    ctx.TakesAny ∧ ∃ ws', ctx.Wraps known ws' ∧ ws = ws' ++ [(.question, "?")]
  | .referenceName _ ctx, ws =>
    ctx.TakesAny ∧ ∃ ws', ctx.Wraps known ws' ∧
      ws = ws' ++ [(.question, "?"), (.leftBracket, "[")]
  | .referenceEnd _ name ctx, ws =>
    ctx.TakesAny ∧ ∃ ws', ctx.Wraps known ws' ∧
      ws = ws' ++ [(.question, "?"), (.leftBracket, "["), (.identifier, name.text)]

/-- The program read so far, whose references written out are `q`, and what the state says of it. -/
structure State.Means (s : State) (p q : Program) : Prop where
  expand : p.expand? = some q
  document : q.document? = some s.document
  constants : Agree (q.declared []) s.constants

/-- The words read so far: those of a program, and of the beginning of one more declaration. -/
def State.Read (s : State) (ws : List Word) : Prop :=
  ∃ p q ws', s.Means p q ∧ s.awaiting.Follows (q.declared []) ws' ∧ ws = p.words ++ ws'

namespace State

variable {limits : Limits} {s s' : State} {t : Token} {ctx : Context} {p q : Program}

/-- A state that differs in what it awaits, what it counted and what it tells of means the same. -/
theorem Means.congr (h : s.Means p q) (hd : s'.document = s.document)
    (hc : s'.constants = s.constants) : s'.Means p q :=
  ⟨h.expand, hd ▸ h.document, hc ▸ h.constants⟩

/-- One more declaration is read. -/
theorem Means.concat (h : s.Means p q) {d e : Declaration} (he : d.expand? (q.declared []) = some e)
    {v : Value} (hv : e.term.value? = some v) (hd : s'.document = e.put s.document v)
    (hc : Agree (e.declared (q.declared [])) s'.constants) : s'.Means (p ++ [d]) (q ++ [e]) where
  expand := Program.expandFrom?_concat h.expand he
  document := hd ▸ Program.document?_concat h.document hv
  constants := by rwa [Program.declared_concat]

/-- Behind a whole declaration. -/
theorem read_concat (h : s.Means (p ++ [d]) (q ++ [e])) (hawait : s.awaiting = .declaration) :
    s.Read (p.words ++ d.words) :=
  ⟨p ++ [d], q ++ [e], [], h, by rw [hawait]; rfl, by
    simp [Program.words_append, Program.words_cons]⟩

/-- A finished value is delivered: what has been read goes on by its words. -/
theorem read_deliver (h : s.Means p q) {ws : List Word} (hctx : ctx.Wraps (q.declared []) ws)
    {x u : Term} (hx : x.expand? (q.declared []) = some u) {v : Value} (hv : u.value? = some v)
    (htakes : ctx.TakesAny ∨ ∃ es, x = .object es) :
    (s.deliver v ctx).Read (p.words ++ (ws ++ x.words)) := by
  cases hctx with
  | global name before =>
    have he : (Declaration.global name x).expand? (q.declared []) = some (.global name u) := by
      rw [Declaration.expand?, hx, Option.map_some]
    have hmeans : (s.publish name before v).Means (p ++ [.global name x]) (q ++ [.global name u]) :=
      h.concat he hv rfl (Entries.Related.write h.constants hv name)
    exact read_concat hmeans rfl
  | entry key =>
    have he : (Declaration.entry key x).expand? (q.declared []) = some (.entry key u) := by
      rw [Declaration.expand?, hx, Option.map_some]
    have hmeans : (s.assign key v (.overwritten key)).Means (p ++ [.entry key x])
        (q ++ [.entry key u]) := h.concat he hv rfl h.constants
    exact read_concat hmeans rfl
  | block =>
    obtain ⟨es, rfl⟩ := htakes.resolve_left fun hany => hany rfl
    obtain ⟨us, hus, rfl⟩ := Term.expand?_object_eq_some.mp hx
    have he : (Declaration.block es).expand? (q.declared []) = some (.block us) := by
      rw [Declaration.expand?, hus, Option.map_some]
    have hmeans : (s.assign Document.unnamedKey v (.blockReplaced Document.unnamedKey)).Means
        (p ++ [.block es]) (q ++ [.block us]) := h.concat he hv rfl h.constants
    exact read_concat hmeans rfl
  | sequence hany hctx hts hvs =>
    refine ⟨p, q, _, h.congr rfl rfl,
      ⟨hany, _, _, _, hctx, Term.expandItems?_concat hts hx, ?_, rfl⟩, ?_⟩
    · rw [List.reverse_cons]
      exact Term.itemsOf?_concat hvs hv
    · simp [Term.wordsOfItems_append, Term.wordsOfItems]
  | mapping key hctx hes hvs =>
    refine ⟨p, q, _, h.congr rfl rfl,
      ⟨_, _, _, hctx, Term.expandEntries?_concat hes hx, Term.entriesOf?_concat hvs hv, rfl⟩, ?_⟩
    simp [Term.wordsOfEntries_append, Term.wordsOfEntries]

/-- What has been read up to the place of a value is what is around the value. -/
theorem ForValue.wraps {known : Entries Term} {ws : List Word} (h : s.ForValue ctx)
    (hws : s.awaiting.Follows known ws) : ctx.TakesAny ∧ ctx.Wraps known ws := by
  rcases h with hawait | ⟨items, outer, hawait, rfl⟩
  · rwa [hawait] at hws
  · rw [hawait] at hws
    obtain ⟨hany, ws', ts, us, hctx, hts, hvs, rfl⟩ := hws
    exact ⟨Context.takesAny_within _ _, .sequence hany hctx hts hvs⟩

/-- The word of a token that is a sign. -/
theorem word_of_sign {k : Token.Kind} {sign : String} (hproper : Word.Proper t.word)
    (hkind : t.kind = k) (hk : k.sign? = some sign) : t.word = (k, sign) := by
  subst hkind
  exact hproper.eq_sign hk

theorem read_of_advance (h : Advance limits s t s') (hproper : Word.Proper t.word) {ws : List Word}
    (hread : s.Read ws) : s'.Read (ws ++ [t.word]) := by
  obtain ⟨p, q, ws, hmeans, hws, rfl⟩ := hread
  rw [List.append_assoc]
  cases h with
  | global hawait hkind =>
    rw [hawait] at hws
    rw [word_of_sign hproper hkind rfl, show ws = [] from hws]
    exact ⟨p, q, _, hmeans.congr rfl rfl, rfl, rfl⟩
  | entryKey hawait hkind =>
    rw [hawait] at hws
    rw [Token.word, hkind, show ws = [] from hws]
    exact ⟨p, q, _, hmeans.congr rfl rfl, rfl, rfl⟩
  | block hawait hkind =>
    rw [hawait] at hws
    rw [word_of_sign hproper hkind rfl, show ws = [] from hws]
    exact ⟨p, q, _, hmeans.congr rfl rfl, ⟨[], [], [], .block, rfl, rfl, rfl⟩, rfl⟩
  | globalName hawait hkind =>
    rw [hawait] at hws
    rw [Token.word, hkind, show ws = _ from hws]
    exact ⟨p, q, _, hmeans.congr rfl rfl, rfl, rfl⟩
  | globalEquals hawait hkind =>
    rw [hawait] at hws
    rw [word_of_sign hproper hkind rfl, show ws = _ from hws]
    exact ⟨p, q, _, hmeans.congr rfl rfl, ⟨nofun, .global _ _⟩, rfl⟩
  | entryEquals hawait hkind =>
    rw [hawait] at hws
    rw [word_of_sign hproper hkind rfl, show ws = _ from hws]
    exact ⟨p, q, _, hmeans.congr rfl rfl, ⟨nofun, .entry _⟩, rfl⟩
  | number hctx hkind _ hdecode =>
    obtain ⟨hany, hwraps⟩ := hctx.wraps hws
    rw [Token.word, hkind]
    exact read_deliver (s := s.charged 1) (x := .number t.text) (hmeans.congr rfl rfl) hwraps rfl
      (by rw [Term.value?, decode_eq_ok_iff.mp hdecode]; rfl) (.inl hany)
  | text hctx hkind _ =>
    obtain ⟨hany, hwraps⟩ := hctx.wraps hws
    rw [Token.word, hkind]
    exact read_deliver (s := s.charged 1) (x := .string t.text) (hmeans.congr rfl rfl) hwraps rfl rfl
      (.inl hany)
  | hash hctx hkind =>
    obtain ⟨hany, hwraps⟩ := hctx.wraps hws
    rw [word_of_sign hproper hkind rfl]
    exact ⟨p, q, _, hmeans.congr rfl rfl, ⟨hany, ws, hwraps, rfl⟩, rfl⟩
  | question hctx hkind =>
    obtain ⟨hany, hwraps⟩ := hctx.wraps hws
    rw [word_of_sign hproper hkind rfl]
    exact ⟨p, q, _, hmeans.congr rfl rfl, ⟨hany, ws, hwraps, rfl⟩, rfl⟩
  | object hctx hkind =>
    obtain ⟨-, hwraps⟩ := hctx.wraps hws
    rw [word_of_sign hproper hkind rfl]
    exact ⟨p, q, _, hmeans.congr rfl rfl, ⟨ws, [], [], hwraps, rfl, rfl, rfl⟩, rfl⟩
  | arrayParen hawait hkind =>
    rw [hawait] at hws
    obtain ⟨hany, ws, hwraps, rfl⟩ := hws
    rw [word_of_sign hproper hkind rfl]
    exact ⟨p, q, _, hmeans.congr rfl rfl, ⟨hany, ws, [], [], hwraps, rfl, rfl, rfl⟩,
      by simp [Term.wordsOfItems]⟩
  | arrayEnd hawait hkind =>
    rw [hawait] at hws
    obtain ⟨hany, ws, ts, us, hwraps, hts, hvs, rfl⟩ := hws
    rw [word_of_sign hproper hkind rfl]
    have hread := read_deliver (s := s.leave) (x := .array ts) (hmeans.congr rfl rfl) hwraps
      (Term.expand?_array_eq_some.mpr ⟨us, hts, rfl⟩)
      (Term.value?_array_eq_some.mpr ⟨_, hvs, rfl⟩) (.inl hany)
    simpa [Term.words] using hread
  | key hawait hkind =>
    rw [hawait] at hws
    obtain ⟨ws, es, us, hwraps, hes, hvs, rfl⟩ := hws
    rw [Token.word, hkind]
    exact ⟨p, q, _, hmeans.congr rfl rfl, ⟨ws, es, us, hwraps, hes, hvs, rfl⟩, by simp⟩
  | objectEnd hawait hkind =>
    rw [hawait] at hws
    obtain ⟨ws, es, us, hwraps, hes, hvs, rfl⟩ := hws
    rw [word_of_sign hproper hkind rfl]
    have hread := read_deliver (s := s.leave) (x := .object es) (hmeans.congr rfl rfl) hwraps
      (Term.expand?_object_eq_some.mpr ⟨us, hes, rfl⟩)
      (Term.value?_object_eq_some.mpr ⟨_, hvs, rfl⟩) (.inr ⟨es, rfl⟩)
    simpa [Term.words] using hread
  | equals hawait hkind =>
    rw [hawait] at hws
    obtain ⟨ws, es, us, hwraps, hes, hvs, rfl⟩ := hws
    rw [word_of_sign hproper hkind rfl]
    exact ⟨p, q, _, hmeans.congr rfl rfl, ⟨Context.takesAny_within _ _, .mapping _ hwraps hes hvs⟩,
      by simp⟩
  | referenceBracket hawait hkind =>
    rw [hawait] at hws
    obtain ⟨hany, ws, hwraps, rfl⟩ := hws
    rw [word_of_sign hproper hkind rfl]
    exact ⟨p, q, _, hmeans.congr rfl rfl, ⟨hany, ws, hwraps, rfl⟩, by simp⟩
  | referenceName hawait hkind =>
    rw [hawait] at hws
    obtain ⟨hany, ws, hwraps, rfl⟩ := hws
    rw [Token.word, hkind]
    exact ⟨p, q, _, hmeans.congr rfl rfl, ⟨hany, ws, hwraps, rfl⟩, by simp⟩
  | @referenceEnd question name ctx c hawait hkind hc =>
    rw [hawait] at hws
    obtain ⟨hany, ws, hwraps, rfl⟩ := hws
    rw [word_of_sign hproper hkind rfl]
    obtain ⟨u, hu, hv⟩ := hmeans.constants.exists_left hc
    have hread := read_deliver (s := s.spliced c) (x := .reference name.text)
      (hmeans.congr rfl rfl) hwraps hu hv (.inl hany)
    simpa [Term.words] using hread

/-- A token that is taken adds its word to what has been read. -/
theorem read_of_step (h : s.step limits t = .ok s') (hproper : Word.Proper t.word)
    {ws : List Word} (hread : s.Read ws) : s'.Read (ws ++ [t.word]) := by
  obtain ⟨p, q, ws', hmeans, hws, rfl⟩ := hread
  exact read_of_advance (advance_of_step h) hproper
    ⟨p, q, ws', hmeans.congr rfl rfl, hws, rfl⟩

/-- Tokens that are taken add their words to what has been read. -/
theorem read_of_feed {ts : List Token} (h : s.feed limits ts = .ok s')
    (hproper : ∀ t ∈ ts, Word.Proper t.word) {ws : List Word} (hread : s.Read ws) :
    s'.Read (ws ++ ts.map Token.word) := by
  induction ts generalizing s ws with
  | nil =>
    cases h
    simpa using hread
  | cons t ts ih =>
    unfold feed at h
    split at h
    · next s₁ hstep =>
      have h₁ := read_of_step hstep (hproper t List.mem_cons_self) hread
      have h₂ := ih h (fun t' ht' => hproper t' (List.mem_cons_of_mem _ ht')) h₁
      simpa using h₂
    · exact nomatch h
    · exact nomatch h

/-- Nothing has been read at the start of a reading in which nothing is known yet. -/
theorem read_start (tally : Tally) : (start [] tally).Read [] :=
  ⟨[], [], [], ⟨rfl, rfl, Entries.related_nil⟩, rfl, rfl⟩

/-- Input may end only where a declaration may start. -/
theorem finish?_eq_none_iff {position : Position} :
    s.finish? position = none ↔ s.awaiting = .declaration := by
  unfold finish?
  cases s.awaiting <;> simp [Awaiting.missing?]

/-- What has been read where a declaration may start is a program, and the document is what it
means. -/
theorem meaning?_of_read {ws : List Word} (hread : s.Read ws) (hawait : s.awaiting = .declaration) :
    ∃ p : Program, ws = p.words ∧ p.meaning? = some s.document := by
  obtain ⟨p, q, ws', hmeans, hws, rfl⟩ := hread
  rw [hawait] at hws
  rw [show ws' = [] from hws, List.append_nil]
  exact ⟨p, rfl, Option.bind_eq_some_iff.mpr ⟨q, hmeans.expand, hmeans.document⟩⟩

end State

end HexConfig.Reader
