import HexConfig.Proofs.Conversion.Unambiguous
import HexConfig.Proofs.Json.Escaping

/-!
# Where strings copied as they are make strict JSON

A document that a source text means holds no quote, and its names are made of letters, digits and underscores.
So all that could come between the two ways of printing it is a backslash or a control character in one of its
texts, and where there is none the default way of printing gives JSON as everybody reads it.
-/

namespace HexConfig

/-! ## Texts and names -/

namespace Value

mutual

/-- The texts in a value, without the names in its mappings. -/
def texts : Value → List String
  | .number _ => []
  | .text s => [s]
  | .boolean _ => []
  | .sequence items => textsOfItems items
  | .mapping entries => textsOfEntries entries
termination_by structural v => v

def textsOfItems : List Value → List String
  | [] => []
  | v :: vs => texts v ++ textsOfItems vs
termination_by structural vs => vs

def textsOfEntries : List (String × Value) → List String
  | [] => []
  | (_, v) :: es => texts v ++ textsOfEntries es
termination_by structural es => es

end

theorem mem_textsOfItems {s : String} {vs : List Value} :
    s ∈ textsOfItems vs ↔ ∃ v ∈ vs, s ∈ v.texts := by
  induction vs with
  | nil => simp [textsOfItems]
  | cons v vs ih => simp [textsOfItems, ih]

theorem mem_textsOfEntries {s : String} {es : List (String × Value)} :
    s ∈ textsOfEntries es ↔ ∃ e ∈ es, s ∈ e.2.texts := by
  induction es with
  | nil => simp [textsOfEntries]
  | cons e es ih => simp [textsOfEntries, ih]

/-- A string in a value that can be written is one of its texts, or it is a name. -/
theorem Writable.mem_texts_or_isName {v : Value} (h : v.Writable) :
    ∀ s ∈ v.strings, s ∈ v.texts ∨ IsName s := by
  induction h with
  | number => exact fun _ hs => absurd hs List.not_mem_nil
  | boolean => exact fun _ hs => absurd hs List.not_mem_nil
  | text => exact fun _ hs => .inl hs
  | sequence _ ih =>
    intro s hs
    obtain ⟨v, hv, hs⟩ := mem_stringsOfItems.mp hs
    exact (ih v hv s hs).imp_left fun htext => mem_textsOfItems.mpr ⟨v, hv, htext⟩
  | mapping _ hnames _ ih =>
    intro s hs
    obtain ⟨e, he, rfl | hs⟩ := mem_stringsOfEntries.mp hs
    · exact .inr (hnames e he)
    · exact (ih e he s hs).imp_left fun htext => mem_textsOfEntries.mpr ⟨e, he, htext⟩

end Value

/-- The texts in a document, without its names. -/
def Document.texts (d : Document) : List String := d.toValue.texts

/-- A character that is found inside words stands for itself. -/
theorem Quoting.bare_of_isWordChar {c : Char} (h : isWordChar c = true) : Bare c := by
  refine ⟨?_, ?_, ?_⟩
  · rintro rfl
    exact absurd h (by decide)
  · rintro rfl
    exact absurd h (by decide)
  · by_contra hcontrol
    have hall : ∀ n < 0x20, isWordChar (Char.ofNat n) = false := by decide
    have hnot := hall c.toNat (Nat.lt_of_not_le hcontrol)
    rw [Char.ofNat_toNat, h] at hnot
    exact nomatch hnot

/-- Every character of a name stands for itself. -/
theorem IsName.bare {k : String} (h : IsName k) : ∀ c ∈ k.toList, Quoting.Bare c := by
  obtain ⟨c, cs, hk, hc, hcs, -⟩ := h
  rw [show k.toList = c :: cs from hk]
  have hc : isWordChar c = true := by simp [isWordChar, Char.isAlphanum, hc]
  exact List.forall_mem_cons.mpr
    ⟨Quoting.bare_of_isWordChar hc, fun d hd => Quoting.bare_of_isWordChar (hcs d hd)⟩

/-! ## Documents that texts mean -/

/-- A value and a document are printed the same with strings encoded and with strings copied exactly if no text
and no name in them has a quote, a backslash or a control character. So the text that a source is converted to
with strings copied is strict JSON, and stands for the structured view of the document alone, as soon as the texts
in the document have no backslash and no control character. -/
theorem convert_strict :
    (∀ v : Value, v.print .encoded = v.print .verbatim ↔
      ∀ s ∈ v.strings, ∀ c ∈ s.toList, c ≠ '"' ∧ c ≠ '\\' ∧ 0x20 ≤ c.toNat) ∧
    (∀ d : Document, d.print .encoded = d.print .verbatim ↔
      ∀ s ∈ d.strings, ∀ c ∈ s.toList, c ≠ '"' ∧ c ≠ '\\' ∧ 0x20 ≤ c.toNat) ∧
    ∀ (settings : Settings) (source : String) (doc : Document), settings.escapeStrings = false →
      compile settings source = .ok doc →
      (∀ s ∈ doc.texts, ∀ c ∈ s.toList, c ≠ '\\' ∧ 0x20 ≤ c.toNat) →
      ∃ text, convert settings source = .ok text ∧ (∀ j, Json.IsText .encoded text j ↔ j = doc.toJson) ∧
        Json.parse? .encoded text = some doc.toJson := by
  refine ⟨Value.print_encoded_eq_iff, fun d => d.toValue.print_encoded_eq_iff, ?_⟩
  intro settings source doc hverbatim h htexts
  have hbare : ∀ s ∈ doc.strings, ∀ c ∈ s.toList, Quoting.Bare c := by
    intro s hs c hc
    rcases (writable_of_compile h).mapping.mem_texts_or_isName s hs with htext | hname
    · refine ⟨?_, htexts s htext c hc⟩
      rintro rfl
      exact not_mem_quote_of_compile h s hs hc
    · exact hname.bare c hc
  have hprint : doc.print .encoded = doc.print .verbatim := doc.toValue.print_encoded_eq_iff.mpr hbare
  have hquoting : settings.quoting = .verbatim := by rw [Settings.quoting, hverbatim]; rfl
  refine ⟨doc.print .encoded, ?_, fun j => ?_, ?_⟩
  · rw [convert_of_compile h, hquoting, hprint]
  · exact Value.isText_print_iff doc.toValue.carries_encoded
  · exact Value.parse?_print doc.toValue.carries_encoded

/-- An instance: a text with braces, a slash, a character above `0x7f` and the one just above the controls. -/
theorem convert_strict_braces :
    ∃ doc : Document, compile ⟨.standard, false⟩ "k = #(\"\x7b/é \x7d\" 0x1f)" = .ok doc ∧
      (∀ s ∈ doc.texts, ∀ c ∈ s.toList, c ≠ '\\' ∧ 0x20 ≤ c.toNat) ∧
      ∃ text, convert ⟨.standard, false⟩ "k = #(\"\x7b/é \x7d\" 0x1f)" = .ok text ∧
        Json.parse? .encoded text = some (.object [("k", .array [.string "\x7b/é \x7d", .number 31 0])]) := by
  obtain ⟨-, -, hstrict⟩ := convert_strict
  have hdoc : compile ⟨.standard, false⟩ "k = #(\"\x7b/é \x7d\" 0x1f)" =
      .ok (Document.empty.insert "k" (.sequence [.text "\x7b/é \x7d", .number 31])) := by decide +kernel
  have htexts : ∀ s ∈ ["\x7b/é \x7d"], ∀ c ∈ s.toList, c ≠ '\\' ∧ 0x20 ≤ c.toNat := by simp
  obtain ⟨text, htext, -, hparse⟩ := hstrict _ _ _ rfl hdoc htexts
  exact ⟨_, hdoc, htexts, text, htext, hparse⟩

end HexConfig
