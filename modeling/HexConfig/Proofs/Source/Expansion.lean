import HexConfig.Proofs.Entries
import HexConfig.Source.Measure

/-!
# Writing references out

What `Term.expand?` and `Term.value?` do to lists of items and of entries: element by element, and so
also to a list that one more element is put behind, which is how a reader meets them.

A term is *closed* if nothing in it refers to anything. What comes of writing references out is
closed, as long as the constants known are; and a closed term is left as it is, whatever is known.
-/

namespace HexConfig

namespace Term

/-! ## Lists of items and entries -/

section Lists

variable {known : Entries Term} {t u : Term} {ts us : List Term} {es fs : List (String × Term)}
  {k : String}

/-- An array is written out by its items. -/
theorem expand?_array_eq_some :
    (array ts).expand? known = some u ↔ ∃ us, expandItems? known ts = some us ∧ array us = u := by
  rw [expand?, Option.map_eq_some_iff]

/-- An object is written out by its entries. -/
theorem expand?_object_eq_some :
    (object es).expand? known = some u ↔
      ∃ fs, expandEntries? known es = some fs ∧ object fs = u := by
  rw [expand?, Option.map_eq_some_iff]

/-- Items are written out one by one. -/
theorem expandItems?_cons_eq_some :
    expandItems? known (t :: ts) = some us ↔
      ∃ u us', t.expand? known = some u ∧ expandItems? known ts = some us' ∧ us = u :: us' := by
  simp only [expandItems?, Option.bind_eq_bind, Option.bind_eq_some_iff, Option.pure_def,
    Option.some.injEq]
  constructor
  · rintro ⟨u, hu, us', hus, rfl⟩
    exact ⟨u, us', hu, hus, rfl⟩
  · rintro ⟨u, us', hu, hus, rfl⟩
    exact ⟨u, hu, us', hus, rfl⟩

/-- Entries are written out one by one, and keep their names. -/
theorem expandEntries?_cons_eq_some :
    expandEntries? known ((k, t) :: es) = some fs ↔
      ∃ u fs', t.expand? known = some u ∧ expandEntries? known es = some fs' ∧
        fs = (k, u) :: fs' := by
  simp only [expandEntries?, Option.bind_eq_bind, Option.bind_eq_some_iff, Option.pure_def,
    Option.some.injEq]
  constructor
  · rintro ⟨u, hu, fs', hfs, rfl⟩
    exact ⟨u, fs', hu, hfs, rfl⟩
  · rintro ⟨u, fs', hu, hfs, rfl⟩
    exact ⟨u, hu, fs', hfs, rfl⟩

/-- One more item behind the others. -/
theorem expandItems?_concat (hts : expandItems? known ts = some us) (ht : t.expand? known = some u) :
    expandItems? known (ts ++ [t]) = some (us ++ [u]) := by
  induction ts generalizing us with
  | nil =>
    cases hts
    exact expandItems?_cons_eq_some.mpr ⟨u, [], ht, rfl, rfl⟩
  | cons t' ts ih =>
    obtain ⟨u', us', hu', hus', rfl⟩ := expandItems?_cons_eq_some.mp hts
    exact expandItems?_cons_eq_some.mpr ⟨u', us' ++ [u], hu', ih hus', rfl⟩

/-- One more entry behind the others. -/
theorem expandEntries?_concat (hes : expandEntries? known es = some fs)
    (ht : t.expand? known = some u) :
    expandEntries? known (es ++ [(k, t)]) = some (fs ++ [(k, u)]) := by
  induction es generalizing fs with
  | nil =>
    cases hes
    exact expandEntries?_cons_eq_some.mpr ⟨u, [], ht, rfl, rfl⟩
  | cons e es ih =>
    obtain ⟨k', t'⟩ := e
    obtain ⟨u', fs', hu', hfs', rfl⟩ := expandEntries?_cons_eq_some.mp hes
    exact expandEntries?_cons_eq_some.mpr ⟨u', fs' ++ [(k, u)], hu', ih hfs', rfl⟩

variable {v : Value} {vs : List Value} {before after : Entries Value}

theorem value?_array_eq_some :
    (array ts).value? = some v ↔ ∃ vs, itemsOf? ts = some vs ∧ .sequence vs = v := by
  rw [value?, Option.map_eq_some_iff]

theorem value?_object_eq_some :
    (object es).value? = some v ↔ ∃ vs, entriesOf? [] es = some vs ∧ .mapping vs = v := by
  rw [value?, Option.map_eq_some_iff]

/-- Items mean something exactly if each of them does. -/
theorem itemsOf?_cons_eq_some :
    itemsOf? (t :: ts) = some vs ↔
      ∃ v vs', t.value? = some v ∧ itemsOf? ts = some vs' ∧ vs = v :: vs' := by
  simp only [itemsOf?, Option.bind_eq_bind, Option.bind_eq_some_iff, Option.pure_def,
    Option.some.injEq]
  constructor
  · rintro ⟨v, hv, vs', hvs, rfl⟩
    exact ⟨v, vs', hv, hvs, rfl⟩
  · rintro ⟨v, vs', hv, hvs, rfl⟩
    exact ⟨v, hv, vs', hvs, rfl⟩

/-- Entries are written one after another into what is there. -/
theorem entriesOf?_cons_eq_some :
    entriesOf? before ((k, t) :: es) = some after ↔
      ∃ v, t.value? = some v ∧ entriesOf? (before.write k v) es = some after := by
  simp only [entriesOf?, Option.bind_eq_bind, Option.bind_eq_some_iff]

/-- One more item behind the others means one more value. -/
theorem itemsOf?_concat (hts : itemsOf? ts = some vs) (ht : t.value? = some v) :
    itemsOf? (ts ++ [t]) = some (vs ++ [v]) := by
  induction ts generalizing vs with
  | nil =>
    cases hts
    exact itemsOf?_cons_eq_some.mpr ⟨v, [], ht, rfl, rfl⟩
  | cons t' ts ih =>
    obtain ⟨v', vs', hv', hvs', rfl⟩ := itemsOf?_cons_eq_some.mp hts
    exact itemsOf?_cons_eq_some.mpr ⟨v', vs' ++ [v], hv', ih hvs', rfl⟩

/-- One more entry behind the others is written over what they make. -/
theorem entriesOf?_concat (hes : entriesOf? before es = some after) (ht : t.value? = some v) :
    entriesOf? before (es ++ [(k, t)]) = some (after.write k v) := by
  induction es generalizing before with
  | nil =>
    cases hes
    exact entriesOf?_cons_eq_some.mpr ⟨v, ht, rfl⟩
  | cons e es ih =>
    obtain ⟨k', t'⟩ := e
    obtain ⟨v', hv', hes⟩ := entriesOf?_cons_eq_some.mp hes
    exact entriesOf?_cons_eq_some.mpr ⟨v', hv', ih hes⟩

end Lists

/-! ## Closed terms -/

mutual

/-- The names a value refers to, in the order they are written. -/
def references : Term → List String
  | .number _ => []
  | .string _ => []
  | .array items => referencesOfItems items
  | .object entries => referencesOfEntries entries
  | .reference name => [name]
termination_by structural t => t

def referencesOfItems : List Term → List String
  | [] => []
  | t :: ts => references t ++ referencesOfItems ts
termination_by structural ts => ts

def referencesOfEntries : List (String × Term) → List String
  | [] => []
  | (_, t) :: es => references t ++ referencesOfEntries es
termination_by structural es => es

end

/-- Nothing in a closed value refers to anything. -/
def Closed (t : Term) : Prop := t.references = []

mutual

/-- A closed value is left as it is, whatever is known. -/
theorem expand?_of_closed (known : Entries Term) : ∀ t : Term, t.Closed → t.expand? known = some t
  | .number _, _ => rfl
  | .string _, _ => rfl
  | .reference _, h => nomatch h
  | .array items, h => by
    rw [expand?, expandItems?_of_closed known items h]
    rfl
  | .object entries, h => by
    rw [expand?, expandEntries?_of_closed known entries h]
    rfl

theorem expandItems?_of_closed (known : Entries Term) :
    ∀ ts : List Term, referencesOfItems ts = [] → expandItems? known ts = some ts
  | [], _ => rfl
  | t :: ts, h => by
    obtain ⟨ht, hts⟩ := List.append_eq_nil_iff.mp h
    exact expandItems?_cons_eq_some.mpr
      ⟨t, ts, expand?_of_closed known t ht, expandItems?_of_closed known ts hts, rfl⟩

theorem expandEntries?_of_closed (known : Entries Term) :
    ∀ es : List (String × Term), referencesOfEntries es = [] → expandEntries? known es = some es
  | [], _ => rfl
  | (k, t) :: es, h => by
    obtain ⟨ht, hes⟩ := List.append_eq_nil_iff.mp h
    exact expandEntries?_cons_eq_some.mpr
      ⟨t, es, expand?_of_closed known t ht, expandEntries?_of_closed known es hes, rfl⟩

end

mutual

/-- Writing references out leaves none, if the constants known have none. -/
theorem closed_of_expand? {known : Entries Term} (hknown : known.All Closed) :
    ∀ {t u : Term}, t.expand? known = some u → u.Closed
  | .number _, _, h => by cases h; rfl
  | .string _, _, h => by cases h; rfl
  | .reference name, u, h => hknown name u h
  | .array items, _, h => by
    obtain ⟨us, hus, rfl⟩ := expand?_array_eq_some.mp h
    exact closed_of_expandItems? hknown hus
  | .object entries, _, h => by
    obtain ⟨fs, hfs, rfl⟩ := expand?_object_eq_some.mp h
    exact closed_of_expandEntries? hknown hfs

theorem closed_of_expandItems? {known : Entries Term} (hknown : known.All Closed) :
    ∀ {ts us : List Term}, expandItems? known ts = some us → referencesOfItems us = []
  | [], _, h => by cases h; rfl
  | t :: ts, _, h => by
    obtain ⟨u, us, hu, hus, rfl⟩ := expandItems?_cons_eq_some.mp h
    exact List.append_eq_nil_iff.mpr
      ⟨closed_of_expand? hknown hu, closed_of_expandItems? hknown hus⟩

theorem closed_of_expandEntries? {known : Entries Term} (hknown : known.All Closed) :
    ∀ {es fs : List (String × Term)},
      expandEntries? known es = some fs → referencesOfEntries fs = []
  | [], _, h => by cases h; rfl
  | (k, t) :: es, _, h => by
    obtain ⟨u, fs, hu, hfs, rfl⟩ := expandEntries?_cons_eq_some.mp h
    exact List.append_eq_nil_iff.mpr
      ⟨closed_of_expand? hknown hu, closed_of_expandEntries? hknown hfs⟩

end

end Term

/-! ## Declarations -/

namespace Declaration

/-- A declaration with its references written out. -/
def expand? (known : Entries Term) : Declaration → Option Declaration
  | global name t => (t.expand? known).map (global name)
  | entry key t => (t.expand? known).map (entry key)
  | block entries => (Term.expandEntries? known entries).map block

/-- The constants known behind a declaration that has no references. -/
def declared (known : Entries Term) : Declaration → Entries Term
  | global name u => known.write name u
  | entry _ _ => known
  | block _ => known

/-- The document behind a declaration of this value. -/
def put (d : Document) (v : Value) : Declaration → Document
  | global _ _ => d
  | entry key _ => d.insert key v
  | block _ => d.insert Document.unnamedKey v

/-- A declaration is written out by its value. -/
theorem term_of_expand? {known : Entries Term} {d e : Declaration} (h : d.expand? known = some e) :
    d.term.expand? known = some e.term := by
  cases d with
  | global name t =>
    obtain ⟨u, hu, rfl⟩ := Option.map_eq_some_iff.mp h
    exact hu
  | entry key t =>
    obtain ⟨u, hu, rfl⟩ := Option.map_eq_some_iff.mp h
    exact hu
  | block es =>
    obtain ⟨fs, hfs, rfl⟩ := Option.map_eq_some_iff.mp h
    exact Term.expand?_object_eq_some.mpr ⟨fs, hfs, rfl⟩

/-- A declaration can be written out exactly if its value can. -/
theorem isSome_expand? (known : Entries Term) (d : Declaration) :
    (d.expand? known).isSome = (d.term.expand? known).isSome := by
  cases d <;> simp [expand?, term, Term.expand?]

/-- A declaration is written into the document exactly if its value means something. -/
theorem write?_eq (d : Declaration) (doc : Document) :
    d.write? doc = d.term.value?.map (put doc · d) := by
  cases d <;> rfl

/-- A declaration with nothing to write out is left as it is. -/
theorem expand?_of_closed (known : Entries Term) {d : Declaration} (h : d.term.Closed) :
    d.expand? known = some d := by
  cases d with
  | global name t => rw [expand?, t.expand?_of_closed known h, Option.map_some]
  | entry key t => rw [expand?, t.expand?_of_closed known h, Option.map_some]
  | block es => rw [expand?, Term.expandEntries?_of_closed known es h, Option.map_some]

/-- What all the constants known have in common they have behind a declaration too, if its value has
it. -/
theorem all_declared {P : Term → Prop} {known : Entries Term} (hknown : known.All P)
    {d : Declaration} (h : P d.term) : (declared known d).All P := by
  cases d with
  | global name u => exact hknown.write h name
  | entry key u => exact hknown
  | block es => exact hknown

end Declaration

/-! ## Programs -/

namespace Program

/-- The constants known behind declarations that have no references. -/
def declared (known : Entries Term) (q : Program) : Entries Term :=
  q.foldl Declaration.declared known

variable {known : Entries Term} {d e : Declaration} {p p₁ p₂ q : Program}

/-- A program is written out declaration by declaration, by the constants that each makes known for the rest. -/
theorem expandFrom?_cons (d : Declaration) (p : Program) :
    expandFrom? known (d :: p) =
      (d.expand? known).bind fun e => (expandFrom? (e.declared known) p).map (e :: ·) := by
  simp only [Option.map_eq_bind]
  cases d with
  | global name t =>
    rw [expandFrom?, Declaration.expand?]
    cases t.expand? known <;> rfl
  | entry key t =>
    rw [expandFrom?, Declaration.expand?]
    cases t.expand? known <;> rfl
  | block es =>
    rw [expandFrom?, Declaration.expand?]
    cases Term.expandEntries? known es <;> rfl

theorem expandFrom?_cons_eq_some :
    expandFrom? known (d :: p) = some q ↔
      ∃ e q', d.expand? known = some e ∧ expandFrom? (e.declared known) p = some q' ∧
        q = e :: q' := by
  rw [expandFrom?_cons]
  simp only [Option.bind_eq_some_iff, Option.map_eq_some_iff]
  constructor
  · rintro ⟨e, he, q', hq', rfl⟩
    exact ⟨e, q', he, hq', rfl⟩
  · rintro ⟨e, q', he, hq', rfl⟩
    exact ⟨e, he, q', hq', rfl⟩

/-- Declarations behind others are written out by the constants that those declare. -/
theorem expandFrom?_append_eq_some :
    expandFrom? known (p₁ ++ p₂) = some q ↔
      ∃ q₁ q₂, expandFrom? known p₁ = some q₁ ∧ expandFrom? (declared known q₁) p₂ = some q₂ ∧
        q = q₁ ++ q₂ := by
  induction p₁ generalizing known q with
  | nil => simp [expandFrom?, declared]
  | cons d p₁ ih =>
    rw [List.cons_append, expandFrom?_cons_eq_some]
    simp only [ih, expandFrom?_cons_eq_some]
    constructor
    · rintro ⟨e, _, he, ⟨q₁, q₂, hq₁, hq₂, rfl⟩, rfl⟩
      exact ⟨e :: q₁, q₂, ⟨e, q₁, he, hq₁, rfl⟩, hq₂, rfl⟩
    · rintro ⟨_, q₂, ⟨e, q₁, he, hq₁, rfl⟩, hq₂, rfl⟩
      exact ⟨e, q₁ ++ q₂, he, ⟨q₁, q₂, hq₁, hq₂, rfl⟩, rfl⟩

/-- One more declaration behind the others. -/
theorem expandFrom?_concat (hp : expandFrom? known p = some q)
    (hd : d.expand? (declared known q) = some e) :
    expandFrom? known (p ++ [d]) = some (q ++ [e]) :=
  expandFrom?_append_eq_some.mpr
    ⟨q, [e], hp, expandFrom?_cons_eq_some.mpr ⟨e, [], hd, rfl, rfl⟩, rfl⟩

theorem declared_concat (known : Entries Term) (q : Program) (e : Declaration) :
    declared known (q ++ [e]) = e.declared (declared known q) := by
  rw [declared, List.foldl_append]
  rfl

/-- One more declaration behind the others, in the document. -/
theorem document?_concat {doc : Document} {v : Value} (hq : document? q = some doc)
    (he : e.term.value? = some v) : document? (q ++ [e]) = some (e.put doc v) := by
  have hq : q.foldlM Declaration.write? Document.empty = some doc := hq
  rw [document?, List.foldlM_append, hq]
  simp [Declaration.write?_eq, he]

/-- A program without references is left as it is. -/
theorem expandFrom?_of_expandFrom? (hknown : known.All Term.Closed)
    (h : expandFrom? known p = some q) (known' : Entries Term) :
    expandFrom? known' q = some q := by
  induction p generalizing known known' q with
  | nil =>
    cases h
    rfl
  | cons d p ih =>
    obtain ⟨e, q', he, hq', rfl⟩ := expandFrom?_cons_eq_some.mp h
    have hclosed : e.term.Closed :=
      Term.closed_of_expand? hknown (Declaration.term_of_expand? he)
    exact expandFrom?_cons_eq_some.mpr ⟨e, q', Declaration.expand?_of_closed known' hclosed,
      ih (Declaration.all_declared hknown hclosed) hq' _, rfl⟩

/-- Writing references out a second time changes nothing. -/
theorem expand?_of_expand? (h : expand? p = some q) : expand? q = some q :=
  expandFrom?_of_expandFrom? Entries.all_nil h []

end Program

end HexConfig
