import HexConfig.FileTree
import Mathlib.Data.List.TakeWhile

/-!
# Paths and their components

Taking a path apart at its slashes and putting components together with slashes undo each other
(`Path.join_components`, `Path.components_join`), as long as no component has a slash in it, and none that
is taken off a path has one. So a path may be spoken of by its components.

A path that ends in a name is read off them: some components, the name, and empty ones behind it for the
slashes at the end. The path beside it has the same components up to the name, but for some at their end
that stand for where they are, and then the longer name (`Path.EndsIn.beside`).
-/

namespace HexConfig.Path

variable {path ending name c : String} {cs above behind : List String}

/-! ## Taking apart and putting together -/

theorem pieces_eq_splitOn (cs : List Char) : pieces cs = cs.splitOn '/' := by
  induction cs with
  | nil => rfl
  | cons c cs ih =>
    rw [List.splitOn_cons_eq_if_modifyHead, ← ih, pieces]
    cases hpieces : pieces cs with
    | nil =>
      rw [hpieces] at ih
      exact absurd ih.symm (List.splitOn_ne_nil _ _)
    | cons p ps => simp

theorem not_mem_of_mem_pieces {p cs : List Char} (h : p ∈ pieces cs) : '/' ∉ p := by
  induction cs generalizing p with
  | nil =>
    obtain rfl := List.mem_singleton.mp h
    exact List.not_mem_nil
  | cons c cs ih =>
    rw [pieces] at h
    cases hpieces : pieces cs with
    | nil =>
      rw [pieces_eq_splitOn] at hpieces
      exact absurd hpieces (List.splitOn_ne_nil _ _)
    | cons q qs =>
      rw [hpieces] at h ih
      by_cases hc : c = '/'
      · simp only [if_pos hc] at h
        rcases List.mem_cons.mp h with rfl | h
        · exact List.not_mem_nil
        · exact ih h
      · simp only [if_neg hc] at h
        rcases List.mem_cons.mp h with rfl | h
        · intro hslash
          rcases List.mem_cons.mp hslash with rfl | hslash
          · exact hc rfl
          · exact ih List.mem_cons_self hslash
        · exact ih (List.mem_cons_of_mem q h)

/-- No component of a path has a slash in it. -/
theorem not_mem_of_mem_components (path : String) (h : c ∈ components path) : '/' ∉ c.toList := by
  obtain ⟨p, hp, rfl⟩ := List.mem_map.mp h
  rw [String.toList_ofList]
  exact not_mem_of_mem_pieces hp

theorem map_toList_components (path : String) :
    (components path).map String.toList = path.toList.splitOn '/' := by
  have hid : String.toList ∘ String.ofList = id := by
    funext cs
    exact String.toList_ofList
  rw [components, List.map_map, hid, List.map_id, pieces_eq_splitOn]

/-- A path is its components with slashes between them. -/
theorem join_components (path : String) : join (components path) = path := by
  apply String.toList_injective
  rw [join, String.toList_intercalate, map_toList_components]
  exact List.intercalate_splitOn '/'

/-- Components without slashes are those of the path they make. -/
theorem components_join (h : ∀ c ∈ cs, '/' ∉ c.toList) (hne : cs ≠ []) : components (join cs) = cs := by
  have hsplit : (join cs).toList.splitOn '/' = cs.map String.toList := by
    rw [join, String.toList_intercalate]
    apply List.splitOn_intercalate '/'
    · intro l hl
      obtain ⟨c, hc, rfl⟩ := List.mem_map.mp hl
      exact h c hc
    · simpa using hne
  have hid : String.ofList ∘ String.toList = id := by
    funext c
    exact String.ofList_toList
  rw [components, pieces_eq_splitOn, hsplit, List.map_map, hid, List.map_id]

/-- What is put behind a path is put behind its last component. -/
theorem join_concat (cs : List String) (name ending : String) :
    join (cs ++ [name ++ ending]) = join (cs ++ [name]) ++ ending := by
  apply String.toList_injective
  rw [String.toList_append, join, join, String.toList_intercalate, String.toList_intercalate]
  induction cs with
  | nil => simp [List.intercalate]
  | cons c cs ih =>
    cases cs with
    | nil => simp
    | cons c' cs =>
      simp only [List.cons_append, List.map_cons, List.intercalate_cons_cons] at ih ⊢
      simp only [ih, List.append_assoc]

/-- A path is counted from the root if it has an empty component in front of others. -/
theorem isAbsolute_iff : isAbsolute path = true ↔ ∃ c cs, components path = "" :: c :: cs := by
  have habsolute : isAbsolute path = true ↔ path.toList.head? = some '/' := decide_eq_true_iff
  have hcomponents := map_toList_components path
  rw [habsolute]
  cases hpath : path.toList with
  | nil =>
    apply iff_of_false
    · exact nofun
    · rintro ⟨c, cs, h⟩
      rw [hpath, h] at hcomponents
      exact nomatch hcomponents
  | cons first rest =>
    rw [hpath, List.splitOn_cons_eq_if_modifyHead] at hcomponents
    by_cases hfirst : first = '/'
    · apply iff_of_true
      · rw [hfirst, List.head?_cons]
      · rw [if_pos (beq_iff_eq.mpr hfirst)] at hcomponents
        obtain ⟨e, cs, hcs, he, hrest⟩ := List.map_eq_cons_iff.mp hcomponents
        obtain ⟨c, cs', rfl⟩ := List.exists_cons_of_ne_nil fun h : cs = [] =>
          List.splitOn_ne_nil '/' rest (by rw [← hrest, h, List.map_nil])
        rw [String.toList_eq_nil_iff.mp he] at hcs
        exact ⟨c, cs', hcs⟩
    · apply iff_of_false
      · intro hhead
        exact hfirst (Option.some.inj hhead)
      · rintro ⟨c, cs, h⟩
        obtain ⟨p, ps, hsplit⟩ := List.exists_cons_of_ne_nil (List.splitOn_ne_nil '/' rest)
        rw [if_neg (mt beq_iff_eq.mp hfirst), h, hsplit] at hcomponents
        exact nomatch hcomponents

/-! ## Components that stand for where they are -/

/-- What is taken off at the end stands for where it is. -/
theorem exists_trimEnd_append (cs : List String) :
    ∃ hs, cs = trimEnd cs ++ hs ∧ ∀ h ∈ hs, isHere h = true := by
  cases cs with
  | nil => exact ⟨[], rfl, nofun⟩
  | cons first rest =>
    refine ⟨(rest.reverse.takeWhile isHere).reverse, ?_, ?_⟩
    · rw [trimEnd, List.cons_append, ← List.reverse_append, List.takeWhile_append_dropWhile,
        List.reverse_reverse]
    · intro h hmem
      exact List.mem_takeWhile_imp (List.mem_reverse.mp hmem)

/-- Taken off at the end is whatever has the property, up to the last component without it. -/
theorem dropWhile_reverse {p : String → Bool} (hname : p name = false) (hbehind : ∀ b ∈ behind, p b = true) :
    (above ++ name :: behind).reverse.dropWhile p = name :: above.reverse := by
  have hreverse : ∀ b ∈ behind.reverse, p b = true := fun b hb => hbehind b (List.mem_reverse.mp hb)
  rw [List.reverse_append, List.reverse_cons, List.append_assoc, List.singleton_append,
    List.dropWhile_append_of_pos hreverse, List.dropWhile_cons_of_neg]
  exact Bool.eq_false_iff.mp hname

theorem trimEnd_of_name (hname : isHere name = false) (hbehind : ∀ b ∈ behind, isHere b = true) :
    trimEnd (above ++ name :: behind) = above ++ [name] := by
  cases above with
  | nil =>
    have hnone : behind.reverse.dropWhile isHere = [] :=
      List.dropWhile_eq_nil_iff.mpr fun b hb => hbehind b (List.mem_reverse.mp hb)
    rw [List.nil_append, trimEnd, hnone]
    rfl
  | cons first above =>
    rw [List.cons_append, trimEnd, dropWhile_reverse hname hbehind, List.reverse_cons, List.reverse_reverse]
    rfl

/-! ## Paths that end in a name -/

/-- The path ends in a name, with some components above it, and with empty ones behind it if it ends in
slashes. -/
structure EndsIn (path : String) (above : List String) (name : String) (behind : List String) : Prop where
  components_eq : components path = above ++ name :: behind
  named : isHere name = false
  proper : name ≠ ".."
  blank : ∀ b ∈ behind, b = ""

theorem EndsIn.ne_empty (h : EndsIn path above name behind) : path ≠ "" := by
  rintro rfl
  have hcomponents : [""] = above ++ name :: behind := h.components_eq
  have hname : name ∈ [""] := hcomponents ▸ List.mem_append_right _ List.mem_cons_self
  obtain rfl := List.mem_singleton.mp hname
  exact absurd h.named (by decide)

theorem EndsIn.not_mem (h : EndsIn path above name behind) (hc : c ∈ above ++ [name]) :
    '/' ∉ c.toList := by
  apply not_mem_of_mem_components path
  rw [h.components_eq]
  rcases List.mem_append.mp hc with hc | hc
  · exact List.mem_append_left _ hc
  · exact List.mem_append_right _ (List.mem_singleton.mp hc ▸ List.mem_cons_self)

/-- A name with something behind it that is long enough is a name. -/
theorem named_append (name : String) :
    isHere (name ++ ".tmp") = false ∧ name ++ ".tmp" ≠ ".." := by
  have hlength : 4 ≤ (name ++ ".tmp").length := by
    rw [String.length_append]
    exact Nat.le_add_left 4 _
  constructor
  · apply Bool.eq_false_iff.mpr
    intro hhere
    rcases Bool.or_eq_true_iff.mp hhere with hempty | hdot
    · rw [of_decide_eq_true hempty] at hlength
      exact absurd hlength (by decide)
    · rw [of_decide_eq_true hdot] at hlength
      exact absurd hlength (by decide)
  · intro hup
    rw [hup] at hlength
    exact absurd hlength (by decide)

/-- The components of a path that is made of others and a name with something behind it. -/
theorem endsIn_join (habove : ∀ c ∈ above, '/' ∉ c.toList) (hname : '/' ∉ name.toList) :
    EndsIn (join (above ++ [name ++ ".tmp"])) above (name ++ ".tmp") [] where
  components_eq := by
    apply components_join
    · intro c hc
      rcases List.mem_append.mp hc with hc | hc
      · exact habove c hc
      · rw [List.mem_singleton.mp hc, String.toList_append]
        intro hslash
        rcases List.mem_append.mp hslash with hslash | hslash
        · exact hname hslash
        · exact absurd hslash (by decide)
    · exact List.append_ne_nil_of_right_ne_nil _ (List.cons_ne_nil _ _)
  named := (named_append name).1
  proper := (named_append name).2
  blank := nofun

/-- The path beside one that ends in a name is the one with the longer name, without what stands for where
it is in front of it. -/
theorem EndsIn.beside (h : EndsIn path above name behind) :
    EndsIn (beside path ".tmp") (trimEnd above) (name ++ ".tmp") [] := by
  have hspecial : ¬ (isHere name = true ∨ name = "..") := by simp [h.named, h.proper]
  have hbehind : ∀ b ∈ behind, isHere b = true := fun b hb => h.blank b hb ▸ rfl
  have hbeside : Path.beside path ".tmp" = join (trimEnd above ++ [name ++ ".tmp"]) := by
    simp only [Path.beside, h.components_eq, trimEnd_of_name h.named hbehind, List.getLastD_concat,
      List.dropLast_concat, if_neg hspecial]
  rw [hbeside]
  obtain ⟨hs, htrim, -⟩ := exists_trimEnd_append above
  apply endsIn_join
  · intro c hc
    exact h.not_mem (List.mem_append_left _ (htrim ▸ List.mem_append_left _ hc))
  · exact h.not_mem (List.mem_append_right _ List.mem_cons_self)

/-- So is the path with something written behind it, if it does not end in a slash. -/
theorem EndsIn.append (h : EndsIn path above name []) :
    EndsIn (path ++ ".tmp") above (name ++ ".tmp") [] := by
  rw [← join_components path, h.components_eq, ← join_concat]
  apply endsIn_join
  · intro c hc
    exact h.not_mem (List.mem_append_left _ hc)
  · exact h.not_mem (List.mem_append_right _ List.mem_cons_self)

/-- A path that ends in a name is counted from the root if the first component above the name is empty. -/
theorem EndsIn.isAbsolute_iff (h : EndsIn path above name behind) :
    isAbsolute path = true ↔ above.head? = some "" := by
  rw [Path.isAbsolute_iff, h.components_eq]
  cases above with
  | nil =>
    apply iff_of_false
    · rintro ⟨c, cs, heq⟩
      have hname : name = "" := List.head_eq_of_cons_eq heq
      exact absurd h.named (by rw [hname]; decide)
    · exact nofun
  | cons first above =>
    constructor
    · rintro ⟨c, cs, heq⟩
      exact congrArg some (List.head_eq_of_cons_eq heq)
    · intro hfirst
      obtain rfl : first = "" := Option.some.inj hfirst
      obtain ⟨c, cs, hcs⟩ := List.exists_cons_of_ne_nil
        (List.append_ne_nil_of_right_ne_nil above (List.cons_ne_nil name behind))
      exact ⟨c, cs, congrArg _ hcs⟩

theorem head?_trimEnd (cs : List String) : (trimEnd cs).head? = cs.head? := by
  cases cs with
  | nil => rfl
  | cons first rest => rfl

end HexConfig.Path
