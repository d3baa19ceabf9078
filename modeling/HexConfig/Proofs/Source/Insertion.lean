import HexConfig.Proofs.Source.Expansion

/-!
# A constant that nothing refers to

What is known of a name makes no difference to a value that does not refer to it (`Term.expand?_congr`),
nor to declarations none of which does (`Program.expandFrom?_congr`). So a constant can be put between two
declarations of a program, and if nothing behind it refers to its name, the rest is written out as before
(`Program.expand?_insert`) and makes the same document (`Program.document?_insert`).
-/

namespace HexConfig

variable {known known' : Entries Term} {name : String}

namespace Term

mutual

/-- A value is written out by what is known of the names it refers to. -/
theorem expand?_congr : ∀ {t : Term},
    (∀ name ∈ t.references, known.find? name = known'.find? name) →
      t.expand? known = t.expand? known'
  | .number _, _ => rfl
  | .string _, _ => rfl
  | .reference name, h => h name List.mem_cons_self
  | .array items, h => by rw [expand?, expand?, expandItems?_congr h]
  | .object entries, h => by rw [expand?, expand?, expandEntries?_congr h]

theorem expandItems?_congr : ∀ {ts : List Term},
    (∀ name ∈ referencesOfItems ts, known.find? name = known'.find? name) →
      expandItems? known ts = expandItems? known' ts
  | [], _ => rfl
  | t :: ts, h => by
    obtain ⟨ht, hts⟩ := List.forall_mem_append.mp h
    rw [expandItems?, expandItems?, expand?_congr ht, expandItems?_congr hts]

theorem expandEntries?_congr : ∀ {es : List (String × Term)},
    (∀ name ∈ referencesOfEntries es, known.find? name = known'.find? name) →
      expandEntries? known es = expandEntries? known' es
  | [], _ => rfl
  | (k, t) :: es, h => by
    obtain ⟨ht, hes⟩ := List.forall_mem_append.mp h
    rw [expandEntries?, expandEntries?, expand?_congr ht, expandEntries?_congr hes]

end

end Term

namespace Declaration

theorem expand?_congr {d : Declaration}
    (h : ∀ name ∈ d.term.references, known.find? name = known'.find? name) :
    d.expand? known = d.expand? known' := by
  cases d with
  | global name t =>
    have ht : t.expand? known = t.expand? known' := Term.expand?_congr h
    rw [expand?, expand?, ht]
  | entry key t =>
    have ht : t.expand? known = t.expand? known' := Term.expand?_congr h
    rw [expand?, expand?, ht]
  | block es => rw [expand?, expand?, Term.expandEntries?_congr h]

/-- Where as much is known of a name, as much is known of it behind a declaration. -/
theorem find?_declared_congr (e : Declaration) (h : known.find? name = known'.find? name) :
    (e.declared known).find? name = (e.declared known').find? name := by
  cases e with
  | global name' u => rw [declared, declared, Entries.find?_write, Entries.find?_write, h]
  | entry key u => exact h
  | block es => exact h

end Declaration

namespace Program

variable {p p₁ p₂ q q₁ q₂ : Program} {t u : Term}

/-- What is known of a name makes no difference to declarations that do not refer to it. -/
theorem expandFrom?_congr (h : ∀ name', name' ≠ name → known.find? name' = known'.find? name')
    (hp : ∀ d ∈ p, name ∉ d.term.references) : expandFrom? known p = expandFrom? known' p := by
  induction p generalizing known known' with
  | nil => rfl
  | cons d p ih =>
    obtain ⟨hd, hp⟩ := List.forall_mem_cons.mp hp
    have hexpand : d.expand? known = d.expand? known' := Declaration.expand?_congr fun name' hname =>
      h name' fun heq => hd (heq ▸ hname)
    rw [expandFrom?_cons, expandFrom?_cons, hexpand]
    congr 1
    funext e
    rw [ih (fun name' hne => e.find?_declared_congr (h name' hne)) hp]

/-- A constant that nothing behind refers to leaves everything else as it is written out. -/
theorem expand?_insert (hp₁ : p₁.expand? = some q₁)
    (hp₂ : expandFrom? (q₁.declared []) p₂ = some q₂) (ht : t.expand? (q₁.declared []) = some u)
    (hname : ∀ d ∈ p₂, name ∉ d.term.references) :
    expand? (p₁ ++ .global name t :: p₂) = some (q₁ ++ .global name u :: q₂) := by
  have hrest : expandFrom? ((q₁.declared []).write name u) p₂ = some q₂ := by
    rw [← hp₂]
    refine expandFrom?_congr (fun name' hne => ?_) hname
    rw [Entries.find?_write, if_neg (Ne.symm hne)]
  have hd : (Declaration.global name t).expand? (q₁.declared []) = some (.global name u) := by
    rw [Declaration.expand?, ht, Option.map_some]
  exact expandFrom?_append_eq_some.mpr
    ⟨q₁, _, hp₁, expandFrom?_cons_eq_some.mpr ⟨_, q₂, hd, hrest, rfl⟩, rfl⟩

/-- A constant that has a value writes nothing. -/
theorem document?_insert {v : Value} (hv : u.value? = some v) (name : String) (q₁ q₂ : Program) :
    document? (q₁ ++ .global name u :: q₂) = document? (q₁ ++ q₂) := by
  unfold document?
  rw [List.foldlM_append, List.foldlM_append]
  congr 1
  funext doc
  simp [Declaration.write?, hv]

end Program

end HexConfig
