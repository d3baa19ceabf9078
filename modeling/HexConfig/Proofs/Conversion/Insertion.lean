import HexConfig.Proofs.Conversion.Thresholds
import HexConfig.Proofs.Source.Insertion
import HexConfig.Proofs.Source.Measure
import HexConfig.Proofs.Token.Terminated

/-!
# Putting a constant into a text

A constant is not printed, and nothing of it stays counted once it is read. While it is read it is counted
all the same, on top of what the entries and blocks before it left counted. So a constant that nothing
refers to can be put between two declarations of a text without any change to the document, provided that
the limit on values has room for it there (`compile_insert_global`). What is charged for it depends on the
place: the room that is left at the start of a text may be gone at its end
(`compile_insert_global_stopped`).
-/

namespace HexConfig

open Reader

/-- The place between two texts is a place between two declarations of the text that they make. -/
structure Seam (before after : String) (p₁ p₂ : Program) : Prop where
  words_before : (Tokens.ofText before).words = p₁.words
  words_after : (Tokens.ofText after).words = p₂.words
  words_whole : (Tokens.ofText (before ++ after)).words = Program.words (p₁ ++ p₂)
  /-- No string is open there. -/
  closed : Terminated before.toList

/-! ## Words -/

/-- The words of a text with a declaration put in. -/
theorem Seam.words_insert {before after w w' g : String} {p₁ p₂ : Program} {d : Declaration}
    (h : Seam before after p₁ p₂) (hw : Separates w.toList) (hw' : Separates w'.toList)
    (hg : (Tokens.ofText g).words = d.words) (hclosed : Terminated g.toList) :
    (Tokens.ofText (before ++ w ++ g ++ w' ++ after)).words = Program.words (p₁ ++ d :: p₂) := by
  rw [Program.words_append, Program.words_cons, ← h.words_before, ← h.words_after, ← hg]
  simp only [words_ofText, String.toList_append, List.append_assoc]
  rw [wordsAhead_append_separated h.closed hw, wordsAhead_append_separated hclosed hw']

/-! ## Needs -/

namespace Program

/-- A constant nests where it stands, and nowhere else. -/
theorem depthNeeded_insert (name : String) (u : Term) (q₁ q₂ : Program) :
    depthNeeded (q₁ ++ .global name u :: q₂) = max (depthNeeded (q₁ ++ q₂)) u.nest := by
  rw [depthNeeded_append, depthNeeded_append, depthNeeded]
  show max _ (max u.nest _) = _
  omega

/-- A constant is counted where it stands, and nowhere else. -/
theorem nodesNeeded_insert (name : String) (u : Term) (q₁ q₂ : Program) :
    nodesNeeded (q₁ ++ .global name u :: q₂) =
      max (nodesNeeded (q₁ ++ q₂)) (q₁.lasting + u.cost) := by
  rw [nodesNeeded_append, nodesNeeded_append, nodesNeeded]
  show max _ (_ + max u.cost (0 + _)) = _
  omega

end Program

/-! ## Limits -/

/-- Where there is room for one thing, and another nests no deeper than is allowed, whatever is exceeded by
both is the limit on values, and by the other. -/
theorem Limits.tooManyNodes_of_exceeded {limits : Limits} {nest nest' cost cost' : Nat} {fault : Fault}
    (hallow : limits.Allow .zero nest cost) (hnest : nest' ≤ limits.maxDepth)
    (h : limits.Exceeded .zero (max nest nest') (max cost cost') fault) :
    fault = .tooManyNodes limits.maxNodes ∧ limits.maxNodes < sumUpTo 0 cost' := by
  obtain ⟨hdepth, hnodes⟩ := hallow
  rcases h with ⟨-, hlt⟩ | ⟨hfault, hlt⟩
  · rw [Tally.reach, sumUpTo_max] at hlt
    have hle : sumUpTo 0 nest' ≤ nest' := by
      rw [sumUpTo, Nat.zero_add]
      exact Nat.min_le_left _ _
    exact absurd hlt (Nat.not_lt_of_le (Nat.max_le.mpr ⟨hdepth, Nat.le_trans hle hnest⟩))
  · rw [sumUpTo_max] at hlt
    refine ⟨hfault, ?_⟩
    by_contra hle
    exact absurd hlt (Nat.not_lt_of_le (Nat.max_le.mpr ⟨hnodes, Nat.le_of_not_lt hle⟩))

/-! ## Documents -/

/-- A constant that nothing behind it refers to, and that nests no deeper than is allowed, can be put
between two declarations: the text is still read, to the same document, if there is room for the
constant on top of what is counted where it stands, and otherwise it is stopped by the limit on
values. -/
theorem compile_insert_global (settings : Settings) {before after w w' g name : String}
    {p₁ p₂ q₁ : Program} {t u : Term} {v : Value} {doc : Document}
    (hseam : Seam before after p₁ p₂) (hw : Separates w.toList) (hw' : Separates w'.toList)
    (hg : (Tokens.ofText g).words = (Declaration.global name t).words)
    (hclosed : Terminated g.toList)
    (hsize : (before ++ w ++ g ++ w' ++ after).utf8ByteSize < Integer.signedBound)
    (hcompile : compile settings (before ++ after) = .ok doc)
    (hname : ∀ d ∈ p₂, name ∉ d.term.references) (hp₁ : p₁.expand? = some q₁)
    (ht : t.expand? (q₁.declared []) = some u) (hv : u.value? = some v)
    (hnest : u.nest ≤ settings.maxDepth) :
    (sumUpTo q₁.lasting u.cost ≤ settings.maxNodes →
      compile settings (before ++ w ++ g ++ w' ++ after) = .ok doc) ∧
    (settings.maxNodes < sumUpTo q₁.lasting u.cost →
      ∃ diagnostic, compile settings (before ++ w ++ g ++ w' ++ after) = .error diagnostic ∧
        diagnostic.fault = .tooManyNodes settings.maxNodes) := by
  obtain ⟨p, hp, hmeaning⟩ := meaning?_of_compile hcompile
  obtain rfl := Program.words_injective (hseam.words_whole.symm.trans hp)
  obtain ⟨q, hq, hdoc⟩ := Option.bind_eq_some_iff.mp hmeaning
  obtain ⟨q₁', q₂, hq₁, hq₂, rfl⟩ := Program.expandFrom?_append_eq_some.mp hq
  obtain rfl : q₁' = q₁ := Option.some.inj (hq₁.symm.trans hp₁)
  have hsize₀ : (before ++ after).utf8ByteSize < Integer.signedBound := by
    simp only [String.utf8ByteSize_append] at hsize ⊢
    omega
  have hallow : settings.toLimits.Allow .zero (Program.depthNeeded (q₁' ++ q₂))
      (Program.nodesNeeded (q₁' ++ q₂)) := by
    rcases compile_of_expand? settings hsize₀ hseam.words_whole hq hdoc with ⟨hallow, -⟩ | ⟨_, herror, -⟩
    · exact hallow
    · rw [hcompile] at herror
      exact nomatch herror
  have hwords := hseam.words_insert hw hw' hg hclosed
  have hexpand := Program.expand?_insert hq₁ hq₂ ht hname
  have hinserted := (Program.document?_insert hv name q₁' q₂).trans hdoc
  have hresult := compile_of_expand? settings hsize hwords hexpand hinserted
  rw [Program.depthNeeded_insert, Program.nodesNeeded_insert] at hresult
  rcases hresult with ⟨⟨-, hnodes⟩, hok⟩ | ⟨diagnostic, herror, hexceeded⟩
  · refine ⟨fun _ => hok, fun hlt => ?_⟩
    rw [sumUpTo_max] at hnodes
    have hroom := Nat.le_trans (Nat.le_max_right _ _) hnodes
    rw [Tally.zero, sumUpTo_zero_add] at hroom
    exact absurd hlt (Nat.not_lt_of_le hroom)
  · obtain ⟨hfault, hlt⟩ := Limits.tooManyNodes_of_exceeded hallow hnest hexceeded
    rw [sumUpTo_zero_add] at hlt
    exact ⟨fun hroom => absurd hlt (Nat.not_lt_of_le hroom), fun _ => ⟨diagnostic, herror, hfault⟩⟩

/-- An instance: an array of one number is put behind an entry. It needs two values more for as long as it
is read, and the text is stopped if there is room for one only. -/
theorem compile_insert_global_array :
    Seam "x = 0x1" "y = true" [.entry "x" (.number "1")] [.entry "y" (.string "true")] ∧
      compile ⟨⟨1, 3⟩, false⟩ ("x = 0x1" ++ " " ++ "global N = #(0x2)" ++ "\n" ++ "y = true") =
        .ok ((Document.empty.insert "x" (.number 1)).insert "y" (.boolean true)) ∧
      ∃ diagnostic, compile ⟨⟨1, 2⟩, false⟩
          ("x = 0x1" ++ " " ++ "global N = #(0x2)" ++ "\n" ++ "y = true") = .error diagnostic ∧
        diagnostic.fault = .tooManyNodes 2 := by
  have hseam : Seam "x = 0x1" "y = true" [.entry "x" (.number "1")] [.entry "y" (.string "true")] :=
    ⟨by decide +kernel, by decide +kernel, by decide +kernel, by decide⟩
  have hspace : Separates " ".toList := separates_singleton rfl
  have hline : Separates "\n".toList := separates_singleton rfl
  have hwords : (Tokens.ofText "global N = #(0x2)").words =
      (Declaration.global "N" (.array [.number "2"])).words := by decide +kernel
  have hinsert (maxNodes : Nat) (hcompile : compile ⟨⟨1, maxNodes⟩, false⟩ ("x = 0x1" ++ "y = true") =
      .ok ((Document.empty.insert "x" (.number 1)).insert "y" (.boolean true))) :=
    compile_insert_global ⟨⟨1, maxNodes⟩, false⟩ hseam hspace hline hwords (by decide) (by decide)
      hcompile (by decide) rfl rfl rfl (Nat.le_refl 1)
  exact ⟨hseam, (hinsert 3 (by decide +kernel)).1 (by decide),
    (hinsert 2 (by decide +kernel)).2 (by decide)⟩

/-- A limit on values that leaves no room for a constant stops a text that is read without it, although
nothing refers to the constant. -/
theorem compile_insert_global_stopped :
    ¬ ∀ (settings : Settings) (before after w w' g name : String) (p₁ p₂ q₁ : Program) (t u : Term)
      (v : Value) (doc : Document), Seam before after p₁ p₂ → Separates w.toList →
      Separates w'.toList → (Tokens.ofText g).words = (Declaration.global name t).words →
      Terminated g.toList → compile settings (before ++ after) = .ok doc →
      (∀ d ∈ p₁ ++ p₂, name ∉ d.term.references ∧ d ≠ .global name d.term) →
      p₁.expand? = some q₁ → t.expand? (q₁.declared []) = some u → u.value? = some v →
      u.nest ≤ settings.maxDepth →
      compile settings (before ++ w ++ g ++ w' ++ after) = .ok doc := by
  intro h
  have hseam : Seam "x = 0x1" "" [.entry "x" (.number "1")] [] :=
    ⟨by decide +kernel, by decide +kernel, by decide +kernel, by decide⟩
  have hline : Separates "\n".toList := separates_singleton rfl
  have hwords : (Tokens.ofText "global N = 0x2").words =
      (Declaration.global "N" (.number "2")).words := by decide +kernel
  have hcompile : compile ⟨⟨256, 1⟩, false⟩ ("x = 0x1" ++ "") =
      .ok (Document.empty.insert "x" (.number 1)) := by decide +kernel
  have hread := h ⟨⟨256, 1⟩, false⟩ _ _ _ _ _ "N" _ _ _ _ _ _ _ hseam hline hline hwords (by decide)
    hcompile (by simp [Declaration.term, Term.references]) rfl rfl rfl (by decide)
  have hstopped : compile ⟨⟨256, 1⟩, false⟩ ("x = 0x1" ++ "\n" ++ "global N = 0x2" ++ "\n" ++ "") =
      .error ⟨.tooManyNodes 1, ⟨2, 12⟩⟩ := by decide +kernel
  rw [hstopped] at hread
  cases hread

end HexConfig
