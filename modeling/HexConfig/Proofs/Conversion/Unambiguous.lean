import HexConfig.Proofs.Conversion
import HexConfig.Proofs.Json.Printed
import HexConfig.Proofs.Reader.Image

/-!
# What is printed says what was read

Strings are copied into JSON text as they are unless they are to be encoded, and such a text need not be
JSON: a string may hold line feeds, braces, commas and backslashes. It can be read all the same. A quote
is the one character that no string of a source text holds, so every string ends at the first quote behind
its own, and what stands between is taken as it is. So a document that a source text means is told by what is
printed of it, whichever way it is printed (`convert_inj`).
-/

namespace HexConfig

open Reader

variable {settings : Settings} {source : String} {doc : Document} {q : Quoting}

namespace Value

theorem mem_stringsOfItems {s : String} {vs : List Value} :
    s ∈ stringsOfItems vs ↔ ∃ v ∈ vs, s ∈ v.strings := by
  induction vs with
  | nil => simp [stringsOfItems]
  | cons v vs ih => simp [stringsOfItems, ih]

theorem mem_stringsOfEntries {s : String} {es : List (String × Value)} :
    s ∈ stringsOfEntries es ↔ ∃ e ∈ es, s = e.1 ∨ s ∈ e.2.strings := by
  induction es with
  | nil => simp [stringsOfEntries]
  | cons e es ih =>
    obtain ⟨k, v⟩ := e
    simp [stringsOfEntries, ih, or_assoc]

end Value

/-- No name holds a quote. -/
theorem IsName.not_mem_quote {k : String} (h : IsName k) : '"' ∉ k.toList := by
  obtain ⟨c, cs, hk, hc, hcs, -⟩ := h
  rw [show k.toList = c :: cs from hk]
  intro hquote
  rcases List.mem_cons.mp hquote with rfl | hquote
  · exact absurd hc (by decide)
  · exact absurd (hcs _ hquote) (by decide)

/-- No string in a value that can be written holds a quote. -/
theorem Value.Writable.not_mem_quote {v : Value} (h : v.Writable) :
    ∀ s ∈ v.strings, '"' ∉ s.toList := by
  induction h with
  | number => exact fun _ hs => absurd hs List.not_mem_nil
  | boolean => exact fun _ hs => absurd hs List.not_mem_nil
  | text hquote =>
    intro s hs
    obtain rfl := List.mem_singleton.mp hs
    exact hquote
  | sequence _ ih =>
    intro s hs
    obtain ⟨v, hv, hs⟩ := mem_stringsOfItems.mp hs
    exact ih v hv s hs
  | mapping _ hnames _ ih =>
    intro s hs
    obtain ⟨e, he, rfl | hs⟩ := mem_stringsOfEntries.mp hs
    · exact (hnames e he).not_mem_quote
    · exact ih e he s hs

/-- A document that a text is read to can be written. -/
theorem writable_of_compile (h : compile settings source = .ok doc) : doc.entries.Writable := by
  obtain ⟨s, hfeed, -, rfl⟩ := feed_of_compile_ok h
  have hstart := State.writable_start Entries.all_nil .zero
  exact (State.writable_of_feed hfeed (fun _ => Tokens.proper_of_mem) hstart).document

theorem not_mem_quote_of_compile (h : compile settings source = .ok doc) :
    ∀ s ∈ doc.strings, '"' ∉ s.toList :=
  (writable_of_compile h).mapping.not_mem_quote

/-- Either way of printing carries the strings of a document that a text is read to. -/
theorem carries_of_compile (h : compile settings source = .ok doc) (q : Quoting) :
    ∀ s ∈ doc.strings, q.Carries s := by
  cases q with
  | encoded => exact doc.toValue.carries_encoded
  | verbatim => exact not_mem_quote_of_compile h

theorem Document.toValue_inj {d e : Document} (h : d.toValue = e.toValue) : d = e := by
  obtain ⟨entries, hsorted⟩ := d
  obtain ⟨entries', hsorted'⟩ := e
  obtain rfl : entries = entries' := Value.mapping.inj h
  rfl

/-- Texts that are converted alike, with strings printed one way, mean the same document. -/
theorem convert_inj {settings' : Settings} {source' : String} {doc' : Document}
    (hquoting : settings.quoting = settings'.quoting)
    (h : compile settings source = .ok doc) (h' : compile settings' source' = .ok doc')
    (hconvert : convert settings source = convert settings' source') : doc = doc' := by
  rw [convert_of_compile h, convert_of_compile h', ← hquoting] at hconvert
  have hprint : doc.print settings.quoting = doc'.print settings.quoting := Except.ok.inj hconvert
  exact Document.toValue_inj (Value.print_inj (carries_of_compile h _) (carries_of_compile h' _) hprint)

/-- With strings copied as they are, what is printed of a document without a quote in its strings is read
as its structured view, all of it, and as nothing else. No document that a source text is read to has a
quote in its strings, so texts that are converted alike mean the same document. -/
theorem print_verbatim_unambiguous :
    (∀ doc : Document, (∀ s ∈ doc.strings, '"' ∉ s.toList) →
      Json.parse? .verbatim (doc.print .verbatim) = some doc.toJson ∧
        ∀ j : Json, Json.IsText .verbatim (doc.print .verbatim) j ↔ j = doc.toJson) ∧
    (∀ (settings : Settings) (source : String) (doc : Document),
      compile settings source = .ok doc → ∀ s ∈ doc.strings, '"' ∉ s.toList) ∧
    ∀ (settings settings' : Settings) (source source' : String) (doc doc' : Document),
      settings.escapeStrings = false → settings'.escapeStrings = false →
      compile settings source = .ok doc → compile settings' source' = .ok doc' →
      convert settings source = convert settings' source' → doc = doc' := by
  refine ⟨?_, ?_, ?_⟩
  · intro doc hstrings
    have hcarries : ∀ s ∈ doc.toValue.strings, Quoting.verbatim.Carries s := hstrings
    exact ⟨Value.parse?_print hcarries, fun j => Value.isText_print_iff hcarries⟩
  · intro settings source doc h
    exact not_mem_quote_of_compile h
  · intro settings settings' source source' doc doc' hverbatim hverbatim' h h' hconvert
    refine convert_inj ?_ h h' hconvert
    rw [Settings.quoting, Settings.quoting, hverbatim, hverbatim']

/-- An instance: a string that looks like the layout around it, written by name and written in place. -/
theorem print_verbatim_unambiguous_layout :
    Json.parse? .verbatim ((Document.empty.insert "a" (.text "1,\n  b: \x7d")).print .verbatim) =
        some (.object [("a", .string "1,\n  b: \x7d")]) ∧
      ∃ doc doc' : Document,
        compile ⟨.standard, false⟩ "global N = \"1,\n  b: \x7d\" a = ?[N]" = .ok doc ∧
        compile ⟨.standard, false⟩ "a = \"1,\n  b: \x7d\"" = .ok doc' ∧
        (∀ s ∈ doc.strings, '"' ∉ s.toList) ∧ doc = doc' := by
  obtain ⟨hread, hquote, hinj⟩ := print_verbatim_unambiguous
  have hnamed : compile ⟨.standard, false⟩ "global N = \"1,\n  b: \x7d\" a = ?[N]" =
      .ok (Document.empty.insert "a" (.text "1,\n  b: \x7d")) := by decide +kernel
  have hplaced : compile ⟨.standard, false⟩ "a = \"1,\n  b: \x7d\"" =
      .ok (Document.empty.insert "a" (.text "1,\n  b: \x7d")) := by decide +kernel
  have hconvert : convert ⟨.standard, false⟩ "global N = \"1,\n  b: \x7d\" a = ?[N]" =
      convert ⟨.standard, false⟩ "a = \"1,\n  b: \x7d\"" := by decide +kernel
  have hstrings := hquote _ _ _ hnamed
  exact ⟨(hread _ hstrings).1, _, _, hnamed, hplaced, hstrings,
    hinj _ _ _ _ _ _ rfl rfl hnamed hplaced hconvert⟩

end HexConfig
