import HexConfig.Conversion
import HexConfig.Proofs.Reader.Prefix
import HexConfig.Proofs.Reader.Programs
import HexConfig.Proofs.Source.Grammar
import HexConfig.Proofs.Source.Resolution

/-!
# What converting a text comes to

A text is read to a document only if its tokens are the words of a program, and the document is what
the program means (`meaning?_of_compile`). The other way round, a text whose tokens are the words of a
program with a meaning is read to that document if the limits have room for the program with its
references written out, and is stopped by a limit otherwise (`compile_of_expand?`). Where the limits
are the greatest there are, nothing is stopped by them, and the grammar, the numbers and the
references decide alone (`compile_unlimited_eq_ok_iff`).
-/

namespace HexConfig

open Reader

variable {settings : Settings} {source : String} {doc : Document}

/-- The greatest limits there are. -/
def Limits.unlimited : Limits := ⟨greatest, greatest⟩

/-- The greatest limits have room for everything. -/
theorem Limits.allow_unlimited (t : Tally) (nest cost : Nat) : unlimited.Allow t nest cost :=
  ⟨sumUpTo_le_greatest _ _, sumUpTo_le_greatest _ _⟩

/-- What a conversion gives, by what the machine comes to on the tokens of the text. -/
theorem compile_eq (settings : Settings) (source : String) :
    compile settings source =
      match (State.start [] .zero).feed settings.toLimits (Tokens.ofText source).list with
      | .error stop => .error stop.diagnostic
      | .ok s =>
        match s.finish? (Tokens.ofText source).finish with
        | some diagnostic => .error diagnostic
        | none => .ok s.document := by
  simp only [compile, readSource, Reader.read, Reader.ofText]
  cases (State.start [] .zero).feed settings.toLimits (Tokens.ofText source).list with
  | error stop => rfl
  | ok s => cases hfinish : s.finish? (Tokens.ofText source).finish <;> simp only [hfinish]

theorem compile_of_feed_error {stop : Stop}
    (h : (State.start [] .zero).feed settings.toLimits (Tokens.ofText source).list = .error stop) :
    compile settings source = .error stop.diagnostic := by
  rw [compile_eq, h]

theorem compile_of_feed_ok {s : State}
    (h : (State.start [] .zero).feed settings.toLimits (Tokens.ofText source).list = .ok s)
    (hawait : s.awaiting = .declaration) : compile settings source = .ok s.document := by
  rw [compile_eq, h]
  simp only [State.finish?_eq_none_iff.mpr hawait]

/-- A text is read to a document only if the machine comes to its end where a declaration may
start. -/
theorem feed_of_compile_ok (h : compile settings source = .ok doc) :
    ∃ s, (State.start [] .zero).feed settings.toLimits (Tokens.ofText source).list = .ok s ∧
      s.awaiting = .declaration ∧ s.document = doc := by
  rw [compile_eq] at h
  split at h
  · exact nomatch h
  · next s hfeed =>
    split at h
    · exact nomatch h
    · next hfinish =>
      cases h
      exact ⟨s, hfeed, State.finish?_eq_none_iff.mp hfinish, rfl⟩

/-- A text is converted to what its document is printed to. -/
theorem convert_eq_ok_iff {text : String} :
    convert settings source = .ok text ↔
      ∃ doc, compile settings source = .ok doc ∧ doc.print settings.quoting = text := by
  show (compile settings source).map _ = .ok text ↔ _
  cases compile settings source with
  | ok doc => simp [Except.map]
  | error d => simp [Except.map]

theorem convert_of_compile (h : compile settings source = .ok doc) :
    convert settings source = .ok (doc.print settings.quoting) :=
  convert_eq_ok_iff.mpr ⟨doc, h, rfl⟩

/-- A text is converted wherever it is read. -/
theorem convert_eq_error_iff {d : Diagnostic} :
    convert settings source = .error d ↔ compile settings source = .error d := by
  show (compile settings source).map _ = .error d ↔ _
  cases compile settings source with
  | ok doc => simp [Except.map]
  | error d' => simp [Except.map]

/-- A document that a text is read to is what the program means that the text spells. -/
theorem meaning?_of_compile (h : compile settings source = .ok doc) :
    ∃ p : Program, (Tokens.ofText source).words = p.words ∧ p.meaning? = some doc := by
  obtain ⟨s, hfeed, hawait, rfl⟩ := feed_of_compile_ok h
  have hread := State.read_of_feed hfeed (fun _ => Tokens.proper_of_mem) (State.read_start .zero)
  exact State.meaning?_of_read hread hawait

/-- A reader is ready at the start of a text, with room for all of it. -/
theorem ready_start (limits : Limits) (hsize : source.utf8ByteSize < Integer.signedBound) :
    (State.start [] .zero).Ready limits [] (Tokens.ofText source).words.length where
  steady := ⟨Nat.le_refl 0, Nat.zero_le _, Nat.zero_le _, Nat.zero_le _⟩
  recorded := Entries.related_nil
  room := by
    have hlength := Tokens.length_ofText_le source
    have hbound : Integer.signedBound ≤ Limits.greatest := by decide
    rw [Tokens.words, List.length_map]
    show 0 + (Tokens.ofText source).list.length ≤ Limits.greatest
    omega
  awaiting := rfl
  depth := rfl

/-- A text that spells a program with a meaning is read to it, if the limits have room for what the
program needs with its references written out, and is stopped by a limit otherwise. -/
theorem compile_of_expand? (settings : Settings) {p q : Program}
    (hsize : source.utf8ByteSize < Integer.signedBound) (hwords : (Tokens.ofText source).words = p.words)
    (hexpand : p.expand? = some q) (hdoc : q.document? = some doc) :
    settings.toLimits.Allow .zero q.depthNeeded q.nodesNeeded ∧ compile settings source = .ok doc ∨
      ∃ diagnostic, compile settings source = .error diagnostic ∧
        settings.toLimits.Exceeded .zero q.depthNeeded q.nodesNeeded diagnostic.fault := by
  obtain ⟨s, hout, rfl, hawait⟩ := State.outcome_program (s := .start [] .zero) hexpand hdoc hwords
    (ready_start settings.toLimits hsize) (Nat.le_of_eq (congrArg List.length hwords.symm))
  rcases hout with ⟨hallow, hfeed⟩ | ⟨stop, hfeed, hexceeded⟩
  · exact .inl ⟨hallow, compile_of_feed_ok hfeed hawait⟩
  · exact .inr ⟨_, compile_of_feed_error hfeed, hexceeded⟩

/-- A text that spells a program is read to just what the program means, if the limits have room for it. -/
theorem compile_eq_ok_iff_allow (settings : Settings) {p : Program}
    (hsize : source.utf8ByteSize < Integer.signedBound) (hwords : (Tokens.ofText source).words = p.words) :
    compile settings source = .ok doc ↔ ∃ q, p.expand? = some q ∧ q.document? = some doc ∧
      settings.toLimits.Allow .zero q.depthNeeded q.nodesNeeded := by
  constructor
  · intro h
    obtain ⟨p', hwords', hmeaning⟩ := meaning?_of_compile h
    obtain rfl := Program.words_injective (hwords.symm.trans hwords')
    obtain ⟨q, hexpand, hdoc⟩ := Option.bind_eq_some_iff.mp hmeaning
    refine ⟨q, hexpand, hdoc, ?_⟩
    rcases compile_of_expand? settings hsize hwords hexpand hdoc with ⟨hallow, -⟩ | ⟨_, herror, -⟩
    · exact hallow
    · rw [h] at herror
      exact nomatch herror
  · rintro ⟨q, hexpand, hdoc, hallow⟩
    rcases compile_of_expand? settings hsize hwords hexpand hdoc with ⟨-, hok⟩ | ⟨_, -, hexceeded⟩
    · exact hok
    · exact absurd hallow hexceeded.not_allow

/-- Under the greatest limits, a text that spells a program is read to just what the program means. -/
theorem compile_unlimited_of_words {p : Program} {escape : Bool}
    (hsize : source.utf8ByteSize < Integer.signedBound) (hwords : (Tokens.ofText source).words = p.words) :
    compile ⟨.unlimited, escape⟩ source = .ok doc ↔ p.meaning? = some doc := by
  rw [compile_eq_ok_iff_allow ⟨.unlimited, escape⟩ hsize hwords, Program.meaning?, Option.bind_eq_some_iff]
  refine exists_congr fun q => and_congr_right fun _ => ?_
  exact and_iff_left (Limits.allow_unlimited .zero q.depthNeeded q.nodesNeeded)

/-- Under the greatest limits a text is read to a document exactly if the grammar derives the kinds of
its tokens, each of its numbers has digits and fits in a signed 64-bit integer, and whatever it
refers to was declared a constant before; and the document is then what the text means. -/
theorem compile_unlimited_eq_ok_iff (source : String) (escape : Bool)
    (hsize : source.utf8ByteSize < Integer.signedBound) :
    ((∃ doc, compile ⟨.unlimited, escape⟩ source = .ok doc) ↔
      Grammar.Derives .program (Tokens.ofText source).kinds ∧
        (∀ t ∈ (Tokens.ofText source).list, t.kind = .number →
          t.text ≠ "" ∧ Hex.value t.text.toList < Integer.signedBound) ∧
        ∀ p : Program, (Tokens.ofText source).words = p.words → p.Resolved) ∧
    ∀ (p : Program) (doc : Document), (Tokens.ofText source).words = p.words →
      (compile ⟨.unlimited, escape⟩ source = .ok doc ↔ p.meaning? = some doc) := by
  have hfits (p : Program) (hwords : (Tokens.ofText source).words = p.words) :
      (∀ w ∈ p.words, Word.Fits w) ↔ ∀ t ∈ (Tokens.ofText source).list, t.kind = .number →
        t.text ≠ "" ∧ Hex.value t.text.toList < Integer.signedBound := by
    rw [← hwords, Tokens.words, List.forall_mem_map]
    rfl
  refine ⟨⟨?_, ?_⟩, fun p doc hwords => compile_unlimited_of_words hsize hwords⟩
  · rintro ⟨doc, h⟩
    obtain ⟨p, hwords, hmeaning⟩ := meaning?_of_compile h
    obtain ⟨hresolved, hfit⟩ := (Program.exists_meaning?_iff p).mp ⟨doc, hmeaning⟩
    refine ⟨(Grammar.derives_kinds_iff source).mpr ⟨p, hwords⟩, (hfits p hwords).mp hfit, ?_⟩
    intro p' hwords'
    rwa [← Program.words_injective (hwords.symm.trans hwords')]
  · rintro ⟨hderives, hnumbers, hresolved⟩
    obtain ⟨p, hwords⟩ := (Grammar.derives_kinds_iff source).mp hderives
    obtain ⟨doc, hmeaning⟩ := (Program.exists_meaning?_iff p).mpr
      ⟨hresolved p hwords, (hfits p hwords).mpr hnumbers⟩
    exact ⟨doc, (compile_unlimited_of_words hsize hwords).mpr hmeaning⟩

/-- An instance: the second constant is written with the first of its name, and the entry that is
written last stands. -/
theorem compile_unlimited_redeclared :
    "global A = 0x1 global A = #(?[A]) k = true k = ?[A]".utf8ByteSize < Integer.signedBound ∧
      compile ⟨.unlimited, false⟩ "global A = 0x1 global A = #(?[A]) k = true k = ?[A]" =
        .ok (Document.empty.insert "k" (.sequence [.number 1])) := by
  have hsize : "global A = 0x1 global A = #(?[A]) k = true k = ?[A]".utf8ByteSize <
      Integer.signedBound := by decide
  have hwords : (Tokens.ofText "global A = 0x1 global A = #(?[A]) k = true k = ?[A]").words =
      Program.words [.global "A" (.number "1"), .global "A" (.array [.reference "A"]),
        .entry "k" (.string "true"), .entry "k" (.reference "A")] := by decide +kernel
  obtain ⟨-, hmeaning⟩ := compile_unlimited_eq_ok_iff _ false hsize
  exact ⟨hsize, (hmeaning _ _ hwords).mpr (by decide +kernel)⟩

end HexConfig
