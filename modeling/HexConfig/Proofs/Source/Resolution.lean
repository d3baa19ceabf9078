import HexConfig.Proofs.Source.Expansion
import HexConfig.Proofs.Source.Unambiguous

/-!
# Which programs mean something

A program has a meaning exactly if two things hold of it, and neither mentions the other.

* It is *resolved*: each name that a declaration refers to has been declared a constant by a
  declaration that stands before. A declaration does not count for itself, so the first constant of a
  name cannot refer to its own name, and a later one refers to the one before.
* Its numbers *fit*: each has digits, and is small enough for a signed 64-bit integer, wherever it is
  written, in a constant that nothing refers to as well.

The first is when references can be written out (`Program.exists_expand?_iff`), the second is when
what is written out has a value; together they are `Program.exists_meaning?_iff`.
-/

namespace HexConfig

/-- A word that is a number has digits, and they make a signed 64-bit integer. -/
def Word.Fits (w : Word) : Prop :=
  w.1 = .number → w.2 ≠ "" ∧ Hex.value w.2.toList < Integer.signedBound

/-- The words that are no numbers fit. -/
theorem Word.fits_of_ne {k : Token.Kind} (hk : k ≠ .number) (text : String) :
    Word.Fits (k, text) :=
  fun h => absurd h hk

namespace Term

theorem exists_map_eq_some {α β : Type} {f : α → β} {o : Option α} :
    (∃ b, o.map f = some b) ↔ ∃ a, o = some a := by
  cases o <;> simp

/-! ## References -/

mutual

/-- References can be written out exactly if there is a constant for each. -/
theorem exists_expand?_iff (known : Entries Term) : ∀ t : Term,
    (∃ u, t.expand? known = some u) ↔ ∀ name ∈ t.references, ∃ u, known.find? name = some u
  | .number digits => by simp [expand?, references]
  | .string s => by simp [expand?, references]
  | .reference name => by simp [expand?, references]
  | .array items => by
    rw [references, ← exists_expandItems?_iff known items, expand?, exists_map_eq_some]
  | .object entries => by
    rw [references, ← exists_expandEntries?_iff known entries, expand?, exists_map_eq_some]

theorem exists_expandItems?_iff (known : Entries Term) : ∀ ts : List Term,
    (∃ us, expandItems? known ts = some us) ↔
      ∀ name ∈ referencesOfItems ts, ∃ u, known.find? name = some u
  | [] => by simp [expandItems?, referencesOfItems]
  | t :: ts => by
    rw [referencesOfItems, List.forall_mem_append, ← exists_expand?_iff known t,
      ← exists_expandItems?_iff known ts]
    simp only [expandItems?_cons_eq_some]
    constructor
    · rintro ⟨_, u, us, hu, hus, rfl⟩
      exact ⟨⟨u, hu⟩, us, hus⟩
    · rintro ⟨⟨u, hu⟩, us, hus⟩
      exact ⟨_, u, us, hu, hus, rfl⟩

theorem exists_expandEntries?_iff (known : Entries Term) : ∀ es : List (String × Term),
    (∃ fs, expandEntries? known es = some fs) ↔
      ∀ name ∈ referencesOfEntries es, ∃ u, known.find? name = some u
  | [] => by simp [expandEntries?, referencesOfEntries]
  | (k, t) :: es => by
    rw [referencesOfEntries, List.forall_mem_append, ← exists_expand?_iff known t,
      ← exists_expandEntries?_iff known es]
    simp only [expandEntries?_cons_eq_some]
    constructor
    · rintro ⟨_, u, fs, hu, hfs, rfl⟩
      exact ⟨⟨u, hu⟩, fs, hfs⟩
    · rintro ⟨⟨u, hu⟩, fs, hfs⟩
      exact ⟨_, u, fs, hu, hfs, rfl⟩

end

/-! ## Numbers -/

/-- Digits mean a number exactly if they fit. -/
theorem exists_numberOf?_iff (digits : String) :
    (∃ n, numberOf? digits = some n) ↔ Word.Fits (.number, digits) := by
  unfold numberOf? Word.Fits
  split
  · next h => simp [h]
  · next h => split <;> simp_all

/-- The term has a value. -/
def Valued (t : Term) : Prop := ∃ v, t.value? = some v

mutual

/-- With its references written out, a value is one exactly if its own numbers fit: those of the
constants do. -/
theorem exists_value?_iff {known : Entries Term} (hknown : known.All Valued) : ∀ {t u : Term},
    t.expand? known = some u → ((∃ v, u.value? = some v) ↔ ∀ w ∈ t.words, Word.Fits w)
  | .number digits, _, h => by
    cases h
    rw [words, List.forall_mem_singleton, ← exists_numberOf?_iff, value?, exists_map_eq_some]
  | .string s, _, h => by
    cases h
    simp [words, value?, Word.fits_of_ne]
  | .reference name, u, h => by
    have hvalue : ∃ v, u.value? = some v := hknown name u h
    simp [words, Word.fits_of_ne, hvalue]
  | .array items, _, h => by
    obtain ⟨us, hus, rfl⟩ := expand?_array_eq_some.mp h
    rw [value?, exists_map_eq_some, exists_itemsOf?_iff hknown hus]
    simp [words, or_imp, forall_and, Word.fits_of_ne, -Prod.forall]
  | .object entries, _, h => by
    obtain ⟨fs, hfs, rfl⟩ := expand?_object_eq_some.mp h
    rw [value?, exists_map_eq_some, exists_entriesOf?_iff hknown hfs]
    simp [words, or_imp, forall_and, Word.fits_of_ne, -Prod.forall]

theorem exists_itemsOf?_iff {known : Entries Term} (hknown : known.All Valued) :
    ∀ {ts us : List Term}, expandItems? known ts = some us →
      ((∃ vs, itemsOf? us = some vs) ↔ ∀ w ∈ wordsOfItems ts, Word.Fits w)
  | [], _, h => by
    cases h
    simp [itemsOf?, wordsOfItems]
  | t :: ts, _, h => by
    obtain ⟨u, us, hu, hus, rfl⟩ := expandItems?_cons_eq_some.mp h
    rw [wordsOfItems, List.forall_mem_append, ← exists_value?_iff hknown hu,
      ← exists_itemsOf?_iff hknown hus]
    simp only [itemsOf?_cons_eq_some]
    constructor
    · rintro ⟨_, v, vs, hv, hvs, rfl⟩
      exact ⟨⟨v, hv⟩, vs, hvs⟩
    · rintro ⟨⟨v, hv⟩, vs, hvs⟩
      exact ⟨_, v, vs, hv, hvs, rfl⟩

theorem exists_entriesOf?_iff {known : Entries Term} (hknown : known.All Valued) :
    ∀ {es fs : List (String × Term)}, expandEntries? known es = some fs →
      ∀ before : Entries Value,
        (∃ vs, entriesOf? before fs = some vs) ↔ ∀ w ∈ wordsOfEntries es, Word.Fits w
  | [], _, h, before => by
    cases h
    simp [entriesOf?, wordsOfEntries]
  | (k, t) :: es, _, h, before => by
    obtain ⟨u, fs, hu, hfs, rfl⟩ := expandEntries?_cons_eq_some.mp h
    have hrest := exists_entriesOf?_iff hknown hfs
    simp only [wordsOfEntries, List.forall_mem_cons, List.forall_mem_append,
      ← exists_value?_iff hknown hu, entriesOf?_cons_eq_some]
    constructor
    · rintro ⟨vs, v, hv, hvs⟩
      exact ⟨nofun, nofun, ⟨v, hv⟩, (hrest _).mp ⟨vs, hvs⟩⟩
    · rintro ⟨-, -, ⟨v, hv⟩, hfits⟩
      obtain ⟨vs, hvs⟩ := (hrest (before.write k v)).mpr hfits
      exact ⟨vs, v, hv, hvs⟩

end

end Term

/-! ## Declarations -/

namespace Declaration

/-- The constants known behind a declaration are those known before it and the one it declares. -/
theorem exists_find?_declared_iff {known : Entries Term} {d e : Declaration}
    (h : d.expand? known = some e) (name : String) :
    (∃ u, (e.declared known).find? name = some u) ↔
      (∃ u, known.find? name = some u) ∨ ∃ t, global name t = d := by
  cases d with
  | global name' t =>
    obtain ⟨u, -, rfl⟩ := Option.map_eq_some_iff.mp h
    rw [declared, Entries.find?_write]
    by_cases hname : name' = name
    · simp [hname]
    · simp [hname, Ne.symm hname]
  | entry key t =>
    obtain ⟨u, -, rfl⟩ := Option.map_eq_some_iff.mp h
    simp [declared]
  | block es =>
    obtain ⟨fs, -, rfl⟩ := Option.map_eq_some_iff.mp h
    simp [declared]

end Declaration

/-- The words of a declaration that are numbers are those of its value. -/
theorem Declaration.fits_words_iff (d : Declaration) :
    (∀ w ∈ d.words, Word.Fits w) ↔ ∀ w ∈ d.term.words, Word.Fits w := by
  cases d <;> simp [words, term, Word.fits_of_ne, -Prod.forall]

/-! ## Programs -/

namespace Program

/-- Whatever a declaration refers to has been declared a constant before it. -/
def Resolved (p : Program) : Prop :=
  ∀ before d after, p = before ++ d :: after →
    ∀ name ∈ d.term.references, ∃ t, Declaration.global name t ∈ before

/-- References can be written out exactly if each is to a constant known or to one declared before. -/
theorem exists_expandFrom?_iff (known : Entries Term) (p : Program) :
    (∃ q, expandFrom? known p = some q) ↔
      ∀ before d after, p = before ++ d :: after → ∀ name ∈ d.term.references,
        (∃ u, known.find? name = some u) ∨ ∃ t, Declaration.global name t ∈ before := by
  induction p generalizing known with
  | nil => simp [expandFrom?]
  | cons d p ih =>
    simp only [expandFrom?_cons_eq_some]
    constructor
    · rintro ⟨_, e, q', he, hq', rfl⟩ before d' after hsplit name hname
      cases before with
      | nil =>
        obtain ⟨rfl, -⟩ := List.cons.inj hsplit
        exact .inl ((Term.exists_expand?_iff known d.term).mp
          ⟨_, Declaration.term_of_expand? he⟩ name hname)
      | cons d₀ before =>
        obtain ⟨rfl, rfl⟩ := List.cons.inj hsplit
        rcases (ih _).mp ⟨q', hq'⟩ before d' after rfl name hname with hu | ⟨t, ht⟩
        · rcases (Declaration.exists_find?_declared_iff he name).mp hu with hu | ⟨t, ht⟩
          · exact .inl hu
          · exact .inr ⟨t, ht ▸ List.mem_cons_self⟩
        · exact .inr ⟨t, List.mem_cons_of_mem _ ht⟩
    · intro h
      have hfound : ∀ name ∈ d.term.references, ∃ u, known.find? name = some u := by
        intro name hname
        rcases h [] d p rfl name hname with hu | ⟨_, ht⟩
        · exact hu
        · exact absurd ht List.not_mem_nil
      obtain ⟨u, hu⟩ := (Term.exists_expand?_iff known d.term).mpr hfound
      obtain ⟨e, he⟩ : ∃ e, d.expand? known = some e := by
        rw [← Option.isSome_iff_exists, Declaration.isSome_expand?, hu]
        rfl
      obtain ⟨q', hq'⟩ : ∃ q', expandFrom? (e.declared known) p = some q' := by
        apply (ih (e.declared known)).mpr
        intro before d' after hsplit name hname
        rw [Declaration.exists_find?_declared_iff he]
        rcases h (d :: before) d' after (congrArg (d :: ·) hsplit) name hname with hu | ⟨t, ht⟩
        · exact .inl (.inl hu)
        · rcases List.mem_cons.mp ht with ht | ht
          · exact .inl (.inr ⟨t, ht⟩)
          · exact .inr ⟨t, ht⟩
      exact ⟨_, e, q', he, hq', rfl⟩

/-- References can be written out exactly if the program is resolved. -/
theorem exists_expand?_iff (p : Program) : (∃ q, p.expand? = some q) ↔ p.Resolved := by
  rw [expand?, exists_expandFrom?_iff]
  simp [Resolved]

/-- With its references written out, a program makes a document exactly if its numbers fit. -/
theorem exists_foldlM_write?_iff {known : Entries Term} (hknown : known.All Term.Valued)
    {p q : Program} (h : expandFrom? known p = some q) (doc : Document) :
    (∃ doc', q.foldlM Declaration.write? doc = some doc') ↔ ∀ w ∈ p.words, Word.Fits w := by
  induction p generalizing known q doc with
  | nil =>
    cases h
    simp
  | cons d p ih =>
    obtain ⟨e, q', he, hq', rfl⟩ := expandFrom?_cons_eq_some.mp h
    rw [words_cons, List.forall_mem_append, Declaration.fits_words_iff,
      ← Term.exists_value?_iff hknown (Declaration.term_of_expand? he), List.foldlM_cons,
      Declaration.write?_eq]
    cases hv : e.term.value? with
    | none => simp
    | some v =>
      have hvalued : (e.declared known).All Term.Valued := Declaration.all_declared hknown ⟨v, hv⟩
      have hrest := ih hvalued hq' (e.put doc v)
      simp [hrest, -Prod.forall]

/-- A program means something exactly if it is resolved and its numbers fit. -/
theorem exists_meaning?_iff (p : Program) :
    (∃ doc, p.meaning? = some doc) ↔ p.Resolved ∧ ∀ w ∈ p.words, Word.Fits w := by
  rw [← exists_expand?_iff]
  constructor
  · rintro ⟨doc, h⟩
    obtain ⟨q, hq, hdoc⟩ := Option.bind_eq_some_iff.mp h
    exact ⟨⟨q, hq⟩, (exists_foldlM_write?_iff Entries.all_nil hq .empty).mp ⟨doc, hdoc⟩⟩
  · rintro ⟨⟨q, hq⟩, hfits⟩
    obtain ⟨doc, hdoc⟩ := (exists_foldlM_write?_iff Entries.all_nil hq .empty).mpr hfits
    exact ⟨doc, Option.bind_eq_some_iff.mpr ⟨q, hq, hdoc⟩⟩

end Program

end HexConfig
