import HexConfig.Proofs.Document
import HexConfig.Proofs.Source.Expansion

/-!
# Sources that come to the same at no greater need

One value written out *refines* another if it stands for whatever the other stands for, writes no more values
and nests no deeper (`Term.Refines`). A value as it is written *follows* another if it is written out wherever
the other is, and to something that refines it, even where each constant known has been replaced by one that
refines it (`Term.Follows`).

Whatever is built of parts follows what is built of the parts that those follow: an array, an object, a
declaration, a program. A constant that is refined passes this on to every place that refers to it, so of a
change to a source it is enough to look at the place where it is made.
-/

namespace HexConfig

namespace Term

/-! ## Values written out -/

/-- A value written out stands for whatever another stands for, and is no larger. -/
structure Refines (u u' : Term) : Prop where
  value : ∀ v, u.value? = some v → u'.value? = some v
  cost : u'.cost ≤ u.cost
  nest : u'.nest ≤ u.nest

/-- The same of the items of an array. -/
structure RefinesItems (us us' : List Term) : Prop where
  values : ∀ vs, itemsOf? us = some vs → itemsOf? us' = some vs
  cost : costOfItems us' ≤ costOfItems us
  nest : nestOfItems us' ≤ nestOfItems us

/-- The same of the entries of an object, wherever they are written. -/
structure RefinesEntries (us us' : List (String × Term)) : Prop where
  values : ∀ before after, before.Sorted → entriesOf? before us = some after →
    entriesOf? before us' = some after
  cost : costOfEntries us' ≤ costOfEntries us
  nest : nestOfEntries us' ≤ nestOfEntries us

variable {u u' : Term} {us us' : List Term} {fs fs' fs'' : List (String × Term)}

theorem Refines.refl (u : Term) : u.Refines u := ⟨fun _ h => h, Nat.le_refl _, Nat.le_refl _⟩

theorem RefinesItems.refl (us : List Term) : RefinesItems us us := ⟨fun _ h => h, Nat.le_refl _, Nat.le_refl _⟩

theorem RefinesEntries.refl (fs : List (String × Term)) : RefinesEntries fs fs :=
  ⟨fun _ _ _ h => h, Nat.le_refl _, Nat.le_refl _⟩

/-- Refinement of entries composes. -/
theorem RefinesEntries.trans (h : RefinesEntries fs fs') (h' : RefinesEntries fs' fs'') :
    RefinesEntries fs fs'' where
  values before after hsorted hes := h'.values before after hsorted (h.values before after hsorted hes)
  cost := Nat.le_trans h'.cost h.cost
  nest := Nat.le_trans h'.nest h.nest

/-- Items refine items one by one. -/
theorem RefinesItems.cons (hu : u.Refines u') (hus : RefinesItems us us') :
    RefinesItems (u :: us) (u' :: us') where
  values vs hvs := by
    obtain ⟨v, vs, hv, hrest, rfl⟩ := itemsOf?_cons_eq_some.mp hvs
    exact itemsOf?_cons_eq_some.mpr ⟨v, vs, hu.value v hv, hus.values vs hrest, rfl⟩
  cost := Nat.add_le_add hu.cost hus.cost
  nest := by
    have hnest := hu.nest
    have hnests := hus.nest
    simp only [nestOfItems]
    omega

/-- Entries refine entries one by one, under the same keys. -/
theorem RefinesEntries.cons (key : String) (hu : u.Refines u') (hfs : RefinesEntries fs fs') :
    RefinesEntries ((key, u) :: fs) ((key, u') :: fs') where
  values before after hsorted hes := by
    obtain ⟨v, hv, hes⟩ := entriesOf?_cons_eq_some.mp hes
    exact entriesOf?_cons_eq_some.mpr ⟨v, hu.value v hv, hfs.values _ after hsorted.write hes⟩
  cost := Nat.add_le_add hu.cost hfs.cost
  nest := by
    have hnest := hu.nest
    have hnests := hfs.nest
    simp only [nestOfEntries]
    omega

/-- An array of items that refine others refines the array of the others. -/
theorem RefinesItems.array (h : RefinesItems us us') : (array us).Refines (array us') where
  value v hv := by
    obtain ⟨vs, hvs, rfl⟩ := value?_array_eq_some.mp hv
    exact value?_array_eq_some.mpr ⟨vs, h.values vs hvs, rfl⟩
  cost := Nat.add_le_add_right h.cost 1
  nest := Nat.add_le_add_right h.nest 1

/-- An object of entries that refine others refines the object of the others. -/
theorem RefinesEntries.object (h : RefinesEntries fs fs') : (object fs).Refines (object fs') where
  value v hv := by
    obtain ⟨es, hes, rfl⟩ := value?_object_eq_some.mp hv
    exact value?_object_eq_some.mpr ⟨es, h.values [] es Entries.sorted_nil hes, rfl⟩
  cost := Nat.add_le_add_right h.cost 1
  nest := Nat.add_le_add_right h.nest 1

/-! ## Values as they are written -/

/-- The constants known have been replaced by some that refine them. -/
abbrev Refined (known known' : Entries Term) : Prop := Entries.Related Refines known known'

/-- Wherever a value is written out, the other one is, and to something that refines it. -/
structure Follows (t t' : Term) : Prop where
  expands : ∀ {known known' : Entries Term} {u : Term}, Refined known known' → t.expand? known = some u →
    ∃ u', t'.expand? known' = some u' ∧ u.Refines u'

/-- The same of the items of an array. -/
structure FollowsItems (ts ts' : List Term) : Prop where
  expands : ∀ {known known' : Entries Term} {us : List Term}, Refined known known' →
    expandItems? known ts = some us → ∃ us', expandItems? known' ts' = some us' ∧ RefinesItems us us'

/-- The same of the entries of an object. -/
structure FollowsEntries (es es' : List (String × Term)) : Prop where
  expands : ∀ {known known' : Entries Term} {fs : List (String × Term)}, Refined known known' →
    expandEntries? known es = some fs → ∃ fs', expandEntries? known' es' = some fs' ∧ RefinesEntries fs fs'

variable {t t' : Term} {ts ts' : List Term} {es es' : List (String × Term)}

theorem FollowsItems.nil : FollowsItems [] [] where
  expands _ hus := ⟨_, hus, .refl _⟩

/-- Items follow items one by one. -/
theorem FollowsItems.cons (ht : t.Follows t') (hts : FollowsItems ts ts') :
    FollowsItems (t :: ts) (t' :: ts') where
  expands hknown hexpand := by
    obtain ⟨u, us, hu, hus, rfl⟩ := expandItems?_cons_eq_some.mp hexpand
    obtain ⟨u', hu', hrefines⟩ := ht.expands hknown hu
    obtain ⟨us', hus', hrefines'⟩ := hts.expands hknown hus
    exact ⟨u' :: us', expandItems?_cons_eq_some.mpr ⟨u', us', hu', hus', rfl⟩, .cons hrefines hrefines'⟩

/-- An array follows an array whose items its own follow. -/
theorem FollowsItems.array (h : FollowsItems ts ts') : (array ts).Follows (array ts') where
  expands hknown hexpand := by
    obtain ⟨us, hus, rfl⟩ := expand?_array_eq_some.mp hexpand
    obtain ⟨us', hus', hrefines⟩ := h.expands hknown hus
    exact ⟨.array us', expand?_array_eq_some.mpr ⟨us', hus', rfl⟩, hrefines.array⟩

theorem FollowsEntries.nil : FollowsEntries [] [] where
  expands _ hfs := ⟨_, hfs, .refl _⟩

/-- Entries follow entries one by one, under the same keys. -/
theorem FollowsEntries.cons (key : String) (ht : t.Follows t') (hes : FollowsEntries es es') :
    FollowsEntries ((key, t) :: es) ((key, t') :: es') where
  expands hknown hexpand := by
    obtain ⟨u, fs, hu, hfs, rfl⟩ := expandEntries?_cons_eq_some.mp hexpand
    obtain ⟨u', hu', hrefines⟩ := ht.expands hknown hu
    obtain ⟨fs', hfs', hrefines'⟩ := hes.expands hknown hfs
    exact ⟨(key, u') :: fs', expandEntries?_cons_eq_some.mpr ⟨u', fs', hu', hfs', rfl⟩,
      .cons key hrefines hrefines'⟩

/-- An object follows an object whose entries its own follow. -/
theorem FollowsEntries.object (h : FollowsEntries es es') : (object es).Follows (object es') where
  expands hknown hexpand := by
    obtain ⟨fs, hfs, rfl⟩ := expand?_object_eq_some.mp hexpand
    obtain ⟨fs', hfs', hrefines⟩ := h.expands hknown hfs
    exact ⟨.object fs', expand?_object_eq_some.mpr ⟨fs', hfs', rfl⟩, hrefines.object⟩

mutual

/-- Everything follows itself: what is refined in it are the constants it refers to. -/
theorem Follows.refl : ∀ t : Term, t.Follows t
  | .number _ => ⟨fun _ hu => ⟨_, hu, .refl _⟩⟩
  | .string _ => ⟨fun _ hu => ⟨_, hu, .refl _⟩⟩
  | .reference _ => ⟨fun hknown hu => hknown.exists_right hu⟩
  | .array items => (FollowsItems.refl items).array
  | .object entries => (FollowsEntries.refl entries).object

theorem FollowsItems.refl : ∀ ts : List Term, FollowsItems ts ts
  | [] => .nil
  | t :: ts => .cons (Follows.refl t) (FollowsItems.refl ts)

theorem FollowsEntries.refl : ∀ es : List (String × Term), FollowsEntries es es
  | [] => .nil
  | (key, t) :: es => .cons key (Follows.refl t) (FollowsEntries.refl es)

end

/-- What stands before them makes no difference to items that follow others. -/
theorem FollowsItems.append_left (before : List Term) (h : FollowsItems ts ts') :
    FollowsItems (before ++ ts) (before ++ ts') := by
  induction before with
  | nil => exact h
  | cons t before ih => exact .cons (.refl t) ih

/-- What stands before them makes no difference to entries that follow others. -/
theorem FollowsEntries.append_left (before : List (String × Term)) (h : FollowsEntries es es') :
    FollowsEntries (before ++ es) (before ++ es') := by
  induction before with
  | nil => exact h
  | cons e before ih => exact .cons e.1 (.refl e.2) ih

/-- Of a change to entries it is enough to look at the same constants before and after. -/
theorem FollowsEntries.of_same (h : ∀ {known fs}, expandEntries? known es = some fs →
    ∃ fs', expandEntries? known es' = some fs' ∧ RefinesEntries fs fs') : FollowsEntries es es' where
  expands hknown hfs := by
    obtain ⟨fs', hfs', hrefines⟩ := (FollowsEntries.refl es).expands hknown hfs
    obtain ⟨fs'', hfs'', hrefines'⟩ := h hfs'
    exact ⟨fs'', hfs'', hrefines.trans hrefines'⟩

end Term

/-! ## Declarations -/

namespace Declaration

/-- A declaration written out is the other with a value that refines its own. -/
inductive Refines : Declaration → Declaration → Prop
  | global (name : String) {u u' : Term} : u.Refines u' → Refines (.global name u) (.global name u')
  | entry (key : String) {u u' : Term} : u.Refines u' → Refines (.entry key u) (.entry key u')
  | block {fs fs' : List (String × Term)} : Term.RefinesEntries fs fs' → Refines (.block fs) (.block fs')

variable {d d' e e' : Declaration} {known known' : Entries Term}

/-- The value of a declaration that refines another refines the other's value. -/
theorem Refines.term (h : e.Refines e') : e.term.Refines e'.term := by
  cases h with
  | global name h => exact h
  | entry key h => exact h
  | block h => exact h.object

/-- A declaration that refines another leaves no more nodes counted. -/
theorem Refines.lasting (h : e.Refines e') : e'.lasting ≤ e.lasting := by
  cases h with
  | global name h => exact Nat.le_refl 0
  | entry key h => exact h.cost
  | block h => exact h.object.cost

/-- A declaration that refines another writes the same entries into a document. -/
theorem Refines.write? (h : e.Refines e') {doc doc' : Document} (hwrite : e.write? doc = some doc') :
    e'.write? doc = some doc' := by
  rw [write?_eq] at hwrite ⊢
  obtain ⟨v, hv, hput⟩ := Option.map_eq_some_iff.mp hwrite
  refine Option.map_eq_some_iff.mpr ⟨v, h.term.value v hv, ?_⟩
  cases h <;> exact hput

/-- Constants that refine the known ones still do with one more declaration behind them. -/
theorem Refines.declared (h : e.Refines e') (hknown : Term.Refined known known') :
    Term.Refined (e.declared known) (e'.declared known') := by
  cases h with
  | global name h => exact hknown.write h name
  | entry key h => exact hknown
  | block h => exact hknown

/-- Wherever a declaration is written out, the other one is, and to something that refines it. -/
structure Follows (d d' : Declaration) : Prop where
  expands : ∀ {known known' : Entries Term} {e : Declaration}, Term.Refined known known' →
    d.expand? known = some e → ∃ e', d'.expand? known' = some e' ∧ e.Refines e'

variable {t t' : Term} {es es' : List (String × Term)}

/-- A constant follows a constant of the same name whose value its own follows. -/
theorem Follows.global (name : String) (h : t.Follows t') :
    (Declaration.global name t).Follows (.global name t') where
  expands hknown he := by
    obtain ⟨u, hu, rfl⟩ := Option.map_eq_some_iff.mp he
    obtain ⟨u', hu', hrefines⟩ := h.expands hknown hu
    exact ⟨.global name u', Option.map_eq_some_iff.mpr ⟨u', hu', rfl⟩, .global name hrefines⟩

/-- An entry follows an entry of the same key whose value its own follows. -/
theorem Follows.entry (key : String) (h : t.Follows t') :
    (Declaration.entry key t).Follows (.entry key t') where
  expands hknown he := by
    obtain ⟨u, hu, rfl⟩ := Option.map_eq_some_iff.mp he
    obtain ⟨u', hu', hrefines⟩ := h.expands hknown hu
    exact ⟨.entry key u', Option.map_eq_some_iff.mpr ⟨u', hu', rfl⟩, .entry key hrefines⟩

/-- A block follows a block whose entries its own follow. -/
theorem Follows.block (h : Term.FollowsEntries es es') :
    (Declaration.block es).Follows (.block es') where
  expands hknown he := by
    obtain ⟨fs, hfs, rfl⟩ := Option.map_eq_some_iff.mp he
    obtain ⟨fs', hfs', hrefines⟩ := h.expands hknown hfs
    exact ⟨.block fs', Option.map_eq_some_iff.mpr ⟨fs', hfs', rfl⟩, .block hrefines⟩

/-- Every declaration follows itself. -/
theorem Follows.refl : ∀ d : Declaration, d.Follows d
  | .global name t => .global name (.refl t)
  | .entry key t => .entry key (.refl t)
  | .block es => .block (.refl es)

end Declaration

/-! ## Programs -/

namespace Program

/-- A program written out makes whatever document another makes, of whatever was there, and needs no more. -/
structure Refines (q q' : Program) : Prop where
  document : ∀ doc doc', q.foldlM Declaration.write? doc = some doc' →
    q'.foldlM Declaration.write? doc = some doc'
  depth : q'.depthNeeded ≤ q.depthNeeded
  nodes : q'.nodesNeeded ≤ q.nodesNeeded

variable {d d' e e' : Declaration} {p p' q q' q'' : Program}

/-- A program makes a document exactly if its first declaration makes one and the rest goes on to it from there.
-/
theorem foldlM_write?_cons_eq_some {doc doc' : Document} :
    (e :: q).foldlM Declaration.write? doc = some doc' ↔
      ∃ doc₁, e.write? doc = some doc₁ ∧ q.foldlM Declaration.write? doc₁ = some doc' := by
  rw [List.foldlM_cons, Option.bind_eq_bind, Option.bind_eq_some_iff]

theorem Refines.refl (q : Program) : q.Refines q :=
  ⟨fun _ _ h => h, Nat.le_refl _, Nat.le_refl _⟩

theorem Refines.trans (h : q.Refines q') (h' : q'.Refines q'') : q.Refines q'' where
  document doc doc' hdoc := h'.document doc doc' (h.document doc doc' hdoc)
  depth := Nat.le_trans h'.depth h.depth
  nodes := Nat.le_trans h'.nodes h.nodes

/-- Programs refine programs declaration by declaration. -/
theorem Refines.cons (he : e.Refines e') (hq : q.Refines q') : Program.Refines (e :: q) (e' :: q') where
  document doc doc' hdoc := by
    obtain ⟨doc₁, hwrite, hdoc⟩ := foldlM_write?_cons_eq_some.mp hdoc
    exact foldlM_write?_cons_eq_some.mpr ⟨doc₁, he.write? hwrite, hq.document doc₁ doc' hdoc⟩
  depth := by
    have hnest := he.term.nest
    have hdepth := hq.depth
    simp only [depthNeeded]
    omega
  nodes := by
    have hcost := he.term.cost
    have hlasting := he.lasting
    have hnodes := hq.nodes
    simp only [nodesNeeded]
    omega

/-- Wherever a program is written out, the other one is, and to something that refines it. -/
structure Follows (p p' : Program) : Prop where
  expands : ∀ {known known' : Entries Term} {q : Program}, Term.Refined known known' →
    expandFrom? known p = some q → ∃ q', expandFrom? known' p' = some q' ∧ q.Refines q'

theorem Follows.nil : Program.Follows [] [] where
  expands _ hq := ⟨_, hq, .refl _⟩

/-- Programs follow programs declaration by declaration: what the first makes known is refined for the rest. -/
theorem Follows.cons (hd : d.Follows d') (hp : p.Follows p') : Program.Follows (d :: p) (d' :: p') where
  expands hknown hexpand := by
    obtain ⟨e, q, he, hq, rfl⟩ := expandFrom?_cons_eq_some.mp hexpand
    obtain ⟨e', he', hrefines⟩ := hd.expands hknown he
    obtain ⟨q', hq', hrefines'⟩ := hp.expands (hrefines.declared hknown) hq
    exact ⟨e' :: q', expandFrom?_cons_eq_some.mpr ⟨e', q', he', hq', rfl⟩, .cons hrefines hrefines'⟩

theorem Follows.refl (p : Program) : p.Follows p := by
  induction p with
  | nil => exact .nil
  | cons d p ih => exact .cons (.refl d) ih

/-- What stands before them makes no difference to declarations that follow others. -/
theorem Follows.append_left (before : Program) (h : p.Follows p') :
    Program.Follows (before ++ p) (before ++ p') := by
  induction before with
  | nil => exact h
  | cons d before ih => exact .cons (.refl d) ih

/-- Of a change to declarations it is enough to look at the same constants before and after. -/
theorem Follows.of_same (h : ∀ {known q}, expandFrom? known p = some q →
    ∃ q', expandFrom? known p' = some q' ∧ q.Refines q') : p.Follows p' where
  expands hknown hq := by
    obtain ⟨q', hq', hrefines⟩ := (Follows.refl p).expands hknown hq
    obtain ⟨q'', hq'', hrefines'⟩ := h hq'
    exact ⟨q'', hq'', hrefines.trans hrefines'⟩

/-- What a program means a program that follows it means, and needs no more for it. -/
theorem Follows.exists_expand? (h : p.Follows p') {doc : Document} (hexpand : p.expand? = some q)
    (hdoc : q.document? = some doc) :
    ∃ q', p'.expand? = some q' ∧ q'.document? = some doc ∧ q'.depthNeeded ≤ q.depthNeeded ∧
      q'.nodesNeeded ≤ q.nodesNeeded := by
  obtain ⟨q', hexpand', hrefines⟩ := h.expands Entries.related_nil hexpand
  exact ⟨q', hexpand', hrefines.document .empty doc hdoc, hrefines.depth, hrefines.nodes⟩

end Program

end HexConfig
