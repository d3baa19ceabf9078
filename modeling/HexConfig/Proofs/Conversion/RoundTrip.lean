import HexConfig.Proofs.Conversion.Unambiguous
import HexConfig.Proofs.Reader.Trees
import HexConfig.Proofs.Source.Rendering

/-!
# Documents written out are read back

A document that a source text can write is read back from every text that writes it, in whatever order and
layout, as soon as the limits have room for the document itself: for the nesting of its values, and for
the number of values in it (`compile_of_rendered`). Without constants nothing is counted but what the
document holds in the end, so no limit needs to be higher than that.
-/

namespace HexConfig

open Reader

variable {limits : Limits} {constants : Constants}

/-! ## Room for a value -/

mutual

/-- A term without references is read where the limits have room for it. -/
theorem Term.exists_reads : ∀ {x : Term} {v : Value}, x.value? = some v → ∀ {t : Tally},
    t.depth + x.nest ≤ limits.maxDepth → t.nodes + x.cost ≤ limits.maxNodes →
      ∃ t', x.Reads limits constants t v t' ∧ t'.depth = t.depth ∧ t'.nodes ≤ t.nodes + x.cost
  | .number digits, _, hv, t, _, hnodes => by
    obtain ⟨n, hn, rfl⟩ := Option.map_eq_some_iff.mp hv
    have hle := sumUpTo_le t.nodes 1
    exact ⟨_, .number hn (Nat.le_trans hle hnodes), rfl, hle⟩
  | .string s, _, hv, t, _, hnodes => by
    cases hv
    have hle := sumUpTo_le t.nodes 1
    exact ⟨_, .string s (Nat.le_trans hle hnodes), rfl, hle⟩
  | .array items, _, hv, t, hdepth, hnodes => by
    obtain ⟨vs, hvs, rfl⟩ := Term.value?_array_eq_some.mp hv
    rw [Term.nest] at hdepth
    rw [Term.cost] at hnodes ⊢
    have hle := sumUpTo_le t.nodes 1
    have hdepth' : t.depth + 1 + Term.nestOfItems items ≤ limits.maxDepth := by omega
    have hnodes' : sumUpTo t.nodes 1 + Term.costOfItems items ≤ limits.maxNodes := by omega
    obtain ⟨t', hreads, hd, hn⟩ := Term.exists_readsItems hvs (t := t.enter.charge 1) hdepth' hnodes'
    have hd : t'.depth = t.depth + 1 := hd
    have hn : t'.nodes ≤ sumUpTo t.nodes 1 + Term.costOfItems items := hn
    exact ⟨t'.leave, .array (by omega) (by omega) hreads, Nat.sub_eq_of_eq_add hd,
      show t'.nodes ≤ _ by omega⟩
  | .object entries, _, hv, t, hdepth, hnodes => by
    obtain ⟨es, hes, rfl⟩ := Term.value?_object_eq_some.mp hv
    rw [Term.nest] at hdepth
    rw [Term.cost] at hnodes ⊢
    have hle := sumUpTo_le t.nodes 1
    have hdepth' : t.depth + 1 + Term.nestOfEntries entries ≤ limits.maxDepth := by omega
    have hnodes' : sumUpTo t.nodes 1 + Term.costOfEntries entries ≤ limits.maxNodes := by omega
    obtain ⟨t', hreads, hd, hn⟩ :=
      Term.exists_readsEntries hes (t := t.enter.charge 1) hdepth' hnodes'
    have hd : t'.depth = t.depth + 1 := hd
    have hn : t'.nodes ≤ sumUpTo t.nodes 1 + Term.costOfEntries entries := hn
    exact ⟨t'.leave, .object (by omega) (by omega) hreads, Nat.sub_eq_of_eq_add hd,
      show t'.nodes ≤ _ by omega⟩

theorem Term.exists_readsItems : ∀ {xs : List Term} {vs : List Value}, Term.itemsOf? xs = some vs →
    ∀ {t : Tally}, t.depth + Term.nestOfItems xs ≤ limits.maxDepth →
      t.nodes + Term.costOfItems xs ≤ limits.maxNodes →
      ∃ t', Term.ReadsItems limits constants xs t vs t' ∧ t'.depth = t.depth ∧
        t'.nodes ≤ t.nodes + Term.costOfItems xs
  | [], _, hvs, t, _, _ => by
    cases hvs
    exact ⟨t, .nil, rfl, Nat.le_refl _⟩
  | x :: xs, _, hvs, t, hdepth, hnodes => by
    obtain ⟨v, vs, hv, hvs', rfl⟩ := Term.itemsOf?_cons_eq_some.mp hvs
    rw [Term.nestOfItems] at hdepth
    rw [Term.costOfItems] at hnodes ⊢
    obtain ⟨t₁, hreads, hd, hn⟩ := Term.exists_reads hv (t := t) (by omega) (by omega)
    obtain ⟨t₂, hreads', hd', hn'⟩ := Term.exists_readsItems hvs' (t := t₁) (by omega) (by omega)
    exact ⟨t₂, .cons hreads hreads', hd'.trans hd, by omega⟩

theorem Term.exists_readsEntries : ∀ {xs : List (String × Term)} {before es : Entries Value},
    Term.entriesOf? before xs = some es → ∀ {t : Tally},
      t.depth + Term.nestOfEntries xs ≤ limits.maxDepth →
      t.nodes + Term.costOfEntries xs ≤ limits.maxNodes →
      ∃ t', Term.ReadsEntries limits constants xs before t es t' ∧ t'.depth = t.depth ∧
        t'.nodes ≤ t.nodes + Term.costOfEntries xs
  | [], _, _, hes, t, _, _ => by
    cases hes
    exact ⟨t, .nil, rfl, Nat.le_refl _⟩
  | (k, x) :: xs, _, _, hes, t, hdepth, hnodes => by
    obtain ⟨v, hv, hes'⟩ := Term.entriesOf?_cons_eq_some.mp hes
    rw [Term.nestOfEntries] at hdepth
    rw [Term.costOfEntries] at hnodes ⊢
    obtain ⟨t₁, hreads, hd, hn⟩ := Term.exists_reads hv (t := t) (by omega) (by omega)
    obtain ⟨t₂, hreads', hd', hn'⟩ := Term.exists_readsEntries hes' (t := t₁) (by omega) (by omega)
    exact ⟨t₂, .cons hreads hreads', hd'.trans hd, by omega⟩

end

/-! ## Entries at the top level -/

/-- The words of entries at the top level are those of the entries of an object. -/
theorem Program.words_map_entry (fs : List (String × Term)) :
    Program.words (fs.map fun f => .entry f.1 f.2) = Term.wordsOfEntries fs := by
  induction fs with
  | nil => rfl
  | cons f fs ih =>
    rw [List.map_cons, Program.words_cons, ih]
    rfl

/-- Entries are taken where the limits have room for them all, and the document is theirs. -/
theorem Reader.State.exists_feed_entries {fs : List (String × Term)} {es : Entries Value} {s : State}
    {ts : List Token} (hes : Term.entriesOf? s.document.entries fs = some es)
    (hts : ts.map Token.word = Term.wordsOfEntries fs) (hawait : s.awaiting = .declaration)
    (hdepth : s.tally.depth + Term.nestOfEntries fs ≤ limits.maxDepth)
    (hnodes : s.tally.nodes + Term.costOfEntries fs ≤ limits.maxNodes) :
    ∃ s', s.feed limits ts = .ok s' ∧ s'.awaiting = .declaration ∧ s'.document.entries = es := by
  induction fs generalizing s ts with
  | nil =>
    cases hes
    obtain rfl := List.map_eq_nil_iff.mp hts
    exact ⟨s, rfl, hawait, rfl⟩
  | cons f fs ih =>
    obtain ⟨k, x⟩ := f
    obtain ⟨v, hv, hes⟩ := Term.entriesOf?_cons_eq_some.mp hes
    rw [Term.nestOfEntries] at hdepth
    rw [Term.costOfEntries] at hnodes
    have hsplit : ts.map Token.word =
        (Declaration.entry k x).words ++ Term.wordsOfEntries fs := by rw [hts]; rfl
    obtain ⟨ts₁, ts₂, rfl, hts₁, hts₂⟩ := List.map_eq_append_iff.mp hsplit
    obtain ⟨tally, hreads, hd, hn⟩ : ∃ tally, x.Reads limits s.constants s.tally v tally ∧
        tally.depth = s.tally.depth ∧ tally.nodes ≤ s.tally.nodes + x.cost :=
      Term.exists_reads hv (by omega) (by omega)
    have hfeed := (feed_declaration_iff (.entry k x) hts₁ hawait).mpr ⟨v, tally, hreads, rfl⟩
    obtain ⟨s', hfeed', hs'⟩ := ih (s := (s.after ts₁ tally).assign k v (.overwritten k)) hes hts₂ rfl
      (show tally.depth + _ ≤ _ by omega) (show tally.nodes + _ ≤ _ by omega)
    exact ⟨s', (feed_append_of_ok hfeed).trans hfeed', hs'⟩

/-! ## Documents -/

variable {settings : Settings} {source : String} {doc : Document} {p : Program}

/-- A document that can be written is what every text is read to that writes it: its entries and those of
its mappings in any order, its numbers in either letter case and with any zeros in front, its booleans
with quotes or without, and any blanks between the words. The limits need to have room for its values and
for no more. -/
theorem compile_of_rendered (hdoc : doc.toValue.Writable) (hp : doc.Rendered p)
    (hsource : LaidOut p.words source.toList) (hdepth : doc.nesting ≤ settings.maxDepth)
    (hnodes : doc.nodes ≤ settings.maxNodes) : compile settings source = .ok doc := by
  obtain ⟨order, fs, hperm, hfs, rfl⟩ := hp
  cases hdoc with
  | mapping hsorted hnames hvalues =>
    have hnames' := fun e he => hnames e (hperm.subset he)
    have hvalues' := fun e he => hvalues e (hperm.subset he)
    rw [Program.words_map_entry] at hsource
    have hwords := hsource.words_ofText (Term.occurs_of_renderEntries hfs hnames' hvalues')
    have hes := Term.entriesOf?_of_renders hfs hvalues' []
    rw [show order.foldl (fun es e => Entries.write e.1 e.2 es) [] = doc.entries from
      Entries.ofList_of_perm hsorted hperm] at hes
    obtain ⟨hnest, hcost⟩ := Term.measure_of_renderEntries hfs
    have hroom : 0 + Term.nestOfEntries fs ≤ settings.maxDepth := by
      rwa [Nat.zero_add, hnest, Value.nestingOfEntries_perm hperm]
    have hroom' : 0 + Term.costOfEntries fs ≤ settings.maxNodes := by
      rwa [Nat.zero_add, hcost, Value.nodesOfEntries_perm hperm]
    obtain ⟨s, hfeed, hawait, hentries⟩ :=
      State.exists_feed_entries (s := .start [] .zero) hes hwords rfl hroom hroom'
    rw [compile_of_feed_ok hfeed hawait, Document.toValue_inj (congrArg Value.mapping hentries)]

/-- An instance: names out of order, a zero in front of the digits, which are of either case, and a boolean
without quotes. -/
theorem compile_of_rendered_unordered :
    compile ⟨⟨1, 4⟩, false⟩ "k = # ( 0X0fF\ttrue )\na = \"\"" =
      .ok ((Document.empty.insert "a" (.text "")).insert "k" (.sequence [.number 255, .boolean true])) := by
  let fs : List (String × Term) := [("k", .array [.number "0fF", .string "true"]), ("a", .string "")]
  let tiles : List Tile :=
    [⟨[], ['k'], (.identifier, "k")⟩, ⟨[' '], ['='], (.equals, "=")⟩, ⟨[' '], ['#'], (.hash, "#")⟩,
      ⟨[' '], ['('], (.leftParen, "(")⟩, ⟨[' '], "0X0fF".toList, (.number, "0fF")⟩,
      ⟨['\t'], "true".toList, (.text, "true")⟩, ⟨[' '], [')'], (.rightParen, ")")⟩,
      ⟨['\n'], ['a'], (.identifier, "a")⟩, ⟨[' '], ['='], (.equals, "=")⟩,
      ⟨[' '], ['"', '"'], (.text, "")⟩]
  have hitems : ∀ v ∈ [Value.number 255, Value.boolean true], v.Writable :=
    List.forall_mem_cons.mpr ⟨.number (by decide : 255 < _),
      List.forall_mem_singleton.mpr (.boolean true)⟩
  have hka : IsName "a" := ⟨'a', [], rfl, rfl, nofun, by decide⟩
  have hkk : IsName "k" := ⟨'k', [], rfl, rfl, nofun, by decide⟩
  have hempty : (Value.text "").Writable := .text nofun (by decide) (by decide)
  have hentries := (Entries.writable_nil.write hka hempty).write hkk (.sequence hitems)
  have hrendered : Term.RenderEntries fs
      [("k", .sequence [.number 255, .boolean true]), ("a", .text "")] :=
    .cons (.array (.cons (.number ⟨1, by decide⟩) (.cons (.boolean true) .nil)))
      (.cons (.text "") .nil)
  have hwords : ∀ t ∈ tiles, t.word.Written t.covered := by
    simp only [tiles, List.forall_mem_cons]
    refine ⟨?_, ?_, ?_, ?_, .number (.inr rfl), .bare (.inl rfl), ?_, ?_, ?_, .quoted,
      List.forall_mem_nil _⟩
    all_goals exact .plain (by decide) (by decide)
  have hblanks : tiles.all (fun t => t.blanks.all isBlank) = true := rfl
  have hwritten : ∀ t ∈ tiles, t.word.Written t.covered ∧ ∀ b ∈ t.blanks, isBlank b = true := by
    intro t ht
    exact ⟨hwords t ht, List.all_eq_true.mp (List.all_eq_true.mp hblanks t ht)⟩
  exact compile_of_rendered hentries.mapping ⟨_, fs, .swap _ _ _, hrendered, rfl⟩
    ⟨tiles, [], by decide, rfl, hwritten, by decide, List.forall_mem_nil _⟩ (by decide) (by decide)

end HexConfig
