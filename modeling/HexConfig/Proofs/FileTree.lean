import HexConfig.Proofs.FileTree.Path

/-!
# What a change to a tree changes

A file that is put somewhere or taken away changes what is at one location. It changes no directory, and a
path finds its way through directories only, so every path still comes down to the same place
(`SameDirectories.target`), and it names the same unless that place is the one that changed
(`SameDirectories.names`).

The name beside a name is in the same directory and is another name (`FileTree.target_beside`), so what
happens there does not change what the path names.
-/

namespace HexConfig.FileTree

variable {t t' : FileTree} {loc l parent : Location} {node : FileNode} {path name : String}
  {cs above behind : List String} {slash : Bool}

/-! ## Locations -/

theorem find?_erase_self (h : loc ≠ []) : (t.erase loc).find? loc = none := by
  have hnone : (t.erase loc).nodes.find? (·.1 = loc) = none := by
    simp [erase, List.find?_filter]
  rw [find?, if_neg h, hnone, Option.map_none]

theorem find?_erase_of_ne (h : l ≠ loc) : (t.erase loc).find? l = t.find? l := by
  have hsame : (t.erase loc).nodes.find? (·.1 = l) = t.nodes.find? (·.1 = l) := by
    rw [erase, List.find?_filter]
    congr 1
    funext e
    by_cases he : e.1 = l
    · simp [he, h]
    · simp [he]
  rw [find?, find?, hsame]

theorem find?_put_self (h : loc ≠ []) : (t.put loc node).find? loc = some node := by
  simp [find?, put, h]

theorem find?_put_of_ne (h : l ≠ loc) : (t.put loc node).find? l = t.find? l := by
  have hnodes : (t.put loc node).nodes.find? (·.1 = l) = (t.erase loc).nodes.find? (·.1 = l) := by
    simp [put, h.symm]
  rw [← find?_erase_of_ne (t := t) h, find?, find?, hnodes]

theorem concat_ne_nil (parent : Location) (name : String) : parent ++ [name] ≠ [] :=
  List.append_ne_nil_of_right_ne_nil _ (List.cons_ne_nil _ _)

/-! ## Directories -/

/-- The trees have the same directories, and paths are counted from the same one. -/
structure SameDirectories (t t' : FileTree) : Prop where
  workingDirectory : t'.workingDirectory = t.workingDirectory
  directory : ∀ loc, t'.find? loc = some .directory ↔ t.find? loc = some .directory

theorem SameDirectories.symm (h : SameDirectories t t') : SameDirectories t' t where
  workingDirectory := h.workingDirectory.symm
  directory loc := (h.directory loc).symm

theorem SameDirectories.trans {t'' : FileTree} (h : SameDirectories t t') (h' : SameDirectories t' t'') :
    SameDirectories t t'' where
  workingDirectory := h'.workingDirectory.trans h.workingDirectory
  directory loc := (h'.directory loc).trans (h.directory loc)

/-- Trees that differ at one location, which is a directory in neither. -/
theorem sameDirectories_of_find? (loc : Location) (hworking : t'.workingDirectory = t.workingDirectory)
    (hother : ∀ l, l ≠ loc → t'.find? l = t.find? l) (h : t.find? loc ≠ some .directory)
    (h' : t'.find? loc ≠ some .directory) : SameDirectories t t' where
  workingDirectory := hworking
  directory l := by
    by_cases hl : l = loc
    · rw [hl]
      exact iff_of_false h' h
    · rw [hother l hl]

/-- A walk goes through the same directories in both. -/
theorem SameDirectories.walk (h : SameDirectories t t') (hwalk : t.walk loc cs = .ok l) :
    t'.walk loc cs = .ok l := by
  induction cs generalizing loc with
  | nil => exact hwalk
  | cons c cs ih =>
    unfold FileTree.walk at hwalk ⊢
    split at hwalk
    · next hhere =>
      rw [if_pos hhere]
      exact ih hwalk
    next hhere =>
    split at hwalk
    · next hup =>
      rw [if_neg hhere, if_pos hup]
      exact ih hwalk
    next hup =>
    split at hwalk
    · exact nomatch hwalk
    next hlong =>
    split at hwalk
    · exact nomatch hwalk
    · exact nomatch hwalk
    · next hdirectory =>
      rw [if_neg hhere, if_neg hup, if_neg hlong]
      simp only [(h.directory _).mpr hdirectory]
      exact ih hwalk

/-- A path starts from the same directory in both. -/
theorem SameDirectories.origin (h : SameDirectories t t') (path : String) :
    t'.origin path = t.origin path := by
  rw [FileTree.origin, FileTree.origin, h.workingDirectory]

/-- A walk along two paths is a walk along the one and then the other. -/
theorem walk_append (cs cs' : List String) :
    t.walk loc (cs ++ cs') = t.walk loc cs >>= fun l => t.walk l cs' := by
  induction cs generalizing loc with
  | nil => rfl
  | cons c cs ih =>
    rw [List.cons_append, FileTree.walk, FileTree.walk]
    by_cases hhere : Path.isHere c = true
    · rw [if_pos hhere, if_pos hhere, ih]
    by_cases hup : c = ".."
    · rw [if_neg hhere, if_neg hhere, if_pos hup, if_pos hup, ih]
    by_cases hlong : nameBytes < c.utf8ByteSize
    · simp only [if_neg hhere, if_neg hup, if_pos hlong]
      rfl
    simp only [if_neg hhere, if_neg hup, if_neg hlong]
    cases t.find? (loc ++ [c]) with
    | none => rfl
    | some node =>
      cases node with
      | file content => rfl
      | directory => exact ih

/-- A path that stays here leads nowhere else. -/
theorem walk_here (h : ∀ c ∈ cs, Path.isHere c = true) : t.walk loc cs = .ok loc := by
  induction cs with
  | nil => rfl
  | cons c cs ih =>
    rw [FileTree.walk, if_pos (h c List.mem_cons_self)]
    exact ih fun c' hc' => h c' (List.mem_cons_of_mem c hc')

/-- What is taken off at the end leads nowhere else. -/
theorem walk_trimEnd (cs : List String) : t.walk loc (Path.trimEnd cs) = t.walk loc cs := by
  obtain ⟨hs, hcs, hhere⟩ := Path.exists_trimEnd_append cs
  have hwalk : t.walk loc (Path.trimEnd cs ++ hs) = t.walk loc (Path.trimEnd cs) := by
    rw [walk_append]
    cases t.walk loc (Path.trimEnd cs) with
    | error e => rfl
    | ok l => exact walk_here hhere
  rwa [← hcs, eq_comm] at hwalk

/-! ## What a path comes down to -/

/-- What a path that ends in a name comes down to. -/
theorem target_of_endsIn (h : Path.EndsIn path above name behind) :
    t.target path =
      if pathBytes < path.utf8ByteSize then .error .nameTooLong
      else (t.walk (t.origin path) above).bind fun parent =>
        if nameBytes < name.utf8ByteSize then .error .nameTooLong
        else .ok (.name parent name (!behind.isEmpty)) := by
  have hnamed : ((above ++ name :: behind).reverse.dropWhile (· = "")).reverse = above ++ [name] := by
    have hname : decide (name = "") = false := by
      apply decide_eq_false
      rintro rfl
      exact absurd h.named (by decide)
    rw [Path.dropWhile_reverse hname fun b hb => decide_eq_true (h.blank b hb), List.reverse_cons,
      List.reverse_reverse]
  have hspecial : ¬ (Path.isHere name = true ∨ name = "..") := by simp [h.named, h.proper]
  have hslash : decide ((above ++ [name]).length < (above ++ name :: behind).length) = !behind.isEmpty := by
    cases behind with
    | nil => simp
    | cons b behind => simp
  simp only [target, h.components_eq, hnamed, if_neg h.ne_empty, List.getLast?_concat, if_neg hspecial,
    List.dropLast_concat, hslash]
  rfl

/-- Where a path comes down to a name, it ends in one. -/
theorem endsIn_of_target (h : t.target path = .ok (.name parent name slash)) :
    ∃ above last behind, Path.EndsIn path above last behind := by
  simp only [target] at h
  split at h
  · exact nomatch h
  split at h
  · exact nomatch h
  split at h
  · exact nomatch h
  next last hlast =>
  split at h
  · cases hwalk : t.walk (t.origin path) ((Path.components path).reverse.dropWhile (· = "")).reverse with
    | error e => exact nomatch hwalk ▸ h
    | ok l => exact nomatch hwalk ▸ h
  next hspecial =>
  obtain ⟨above, habove⟩ := List.getLast?_eq_some_iff.mp hlast
  refine ⟨above, last, ((Path.components path).reverse.takeWhile (· = "")).reverse, ?_, ?_, ?_, ?_⟩
  · rw [← List.singleton_append, ← List.append_assoc, ← habove, ← List.reverse_append,
      List.takeWhile_append_dropWhile, List.reverse_reverse]
  · exact Bool.eq_false_iff.mpr fun hhere => hspecial (.inl hhere)
  · exact fun hup => hspecial (.inr hup)
  · intro b hb
    have hblank := List.mem_takeWhile_imp (List.mem_reverse.mp hb)
    exact of_decide_eq_true hblank

/-- Every path comes down to the same in trees with the same directories. -/
theorem SameDirectories.target (h : SameDirectories t t') {target : Target}
    (htarget : t.target path = .ok target) : t'.target path = .ok target := by
  simp only [FileTree.target, h.origin] at htarget ⊢
  split at htarget
  · exact nomatch htarget
  next hpath =>
  split at htarget
  · exact nomatch htarget
  next hlong =>
  rw [if_neg hpath, if_neg hlong]
  generalize ((Path.components path).reverse.dropWhile (· = "")).reverse = named at htarget ⊢
  cases hlast : named.getLast? with
  | none =>
    simp only [hlast] at htarget
    exact htarget
  | some last =>
    simp only [hlast] at htarget
    by_cases hspecial : Path.isHere last = true ∨ last = ".."
    · rw [if_pos hspecial] at htarget
      cases hwalk : t.walk (t.origin path) named with
      | error e => exact nomatch hwalk ▸ htarget
      | ok l =>
        simp only [if_pos hspecial, h.walk hwalk, ← htarget, hwalk]
    · rw [if_neg hspecial] at htarget
      cases hwalk : t.walk (t.origin path) named.dropLast with
      | error e => exact nomatch hwalk ▸ htarget
      | ok l =>
        simp only [if_neg hspecial, h.walk hwalk, ← htarget, hwalk]

/-- What it means that a path comes down to a name. -/
theorem of_target_eq_name (h : t.target path = .ok (.name parent name slash)) :
    ∃ above behind, Path.EndsIn path above name behind ∧ t.walk (t.origin path) above = .ok parent ∧
      slash = !behind.isEmpty := by
  obtain ⟨above, last, behind, hends⟩ := endsIn_of_target h
  rw [target_of_endsIn hends] at h
  split at h
  · exact nomatch h
  cases hwalk : t.walk (t.origin path) above with
  | error e => exact nomatch hwalk ▸ h
  | ok l =>
    rw [hwalk] at h
    replace h : (if nameBytes < last.utf8ByteSize then Except.error FileError.nameTooLong
      else .ok (Target.name l last (!behind.isEmpty))) = .ok (Target.name parent name slash) := h
    split at h
    · exact nomatch h
    · cases h
      exact ⟨above, behind, hends, hwalk, rfl⟩

/-- Paths that end in names are counted from the same directory if their first components above the names
are the same. -/
theorem origin_eq_of_endsIn {path' name' : String} {above' behind' : List String}
    (h : Path.EndsIn path above name behind) (h' : Path.EndsIn path' above' name' behind')
    (hhead : above'.head? = above.head?) : t.origin path' = t.origin path := by
  have habsolute : Path.isAbsolute path' = Path.isAbsolute path := by
    rw [Bool.eq_iff_iff, h.isAbsolute_iff, h'.isAbsolute_iff, hhead]
  rw [origin, origin, habsolute]

/-- A path with the longer name in the same directory comes down to it, unless it is too long. -/
theorem target_of_walk {path' : String} {above' : List String} (hends : Path.EndsIn path above name behind)
    (hends' : Path.EndsIn path' above' (name ++ ".tmp") []) (hhead : above'.head? = above.head?)
    (hwalk : t.walk (t.origin path) above' = .ok parent) :
    t.target path' =
      if pathBytes < path'.utf8ByteSize ∨ nameBytes < (name ++ ".tmp").utf8ByteSize then
        .error .nameTooLong
      else .ok (.name parent (name ++ ".tmp") false) := by
  rw [target_of_endsIn hends', origin_eq_of_endsIn hends hends' hhead, hwalk]
  by_cases hpath : pathBytes < path'.utf8ByteSize
  · rw [if_pos hpath, if_pos (.inl hpath)]
  by_cases hname : nameBytes < (name ++ ".tmp").utf8ByteSize
  · rw [if_neg hpath, if_pos (.inr hname)]
    exact if_pos hname
  · rw [if_neg hpath, if_neg (not_or_intro hpath hname)]
    exact if_neg hname

/-- The path beside one that comes down to a name comes down to the longer name in the same directory,
unless it is too long. -/
theorem target_beside (h : t.target path = .ok (.name parent name slash)) :
    t.target (Path.beside path ".tmp") =
      if pathBytes < (Path.beside path ".tmp").utf8ByteSize ∨ nameBytes < (name ++ ".tmp").utf8ByteSize then
        .error .nameTooLong
      else .ok (.name parent (name ++ ".tmp") false) := by
  obtain ⟨above, behind, hends, hwalk, -⟩ := of_target_eq_name h
  apply target_of_walk hends hends.beside (Path.head?_trimEnd above)
  rwa [walk_trimEnd]

/-- So does a path with the ending written behind it, if it does not end in a slash. -/
theorem target_append (h : t.target path = .ok (.name parent name false)) :
    t.target (path ++ ".tmp") =
      if pathBytes < (path ++ ".tmp").utf8ByteSize ∨ nameBytes < (name ++ ".tmp").utf8ByteSize then
        .error .nameTooLong
      else .ok (.name parent (name ++ ".tmp") false) := by
  obtain ⟨above, behind, hends, hwalk, hslash⟩ := of_target_eq_name h
  cases behind with
  | nil => exact target_of_walk hends hends.append rfl hwalk
  | cons b behind => exact nomatch hslash

/-! ## What a path names -/

/-- What a path names, if it names anything. -/
def names (t : FileTree) (path : String) : Option FileNode := (t.node path).toOption

/-- A path that comes down to no name names a directory. -/
theorem names_of_here (h : t.target path = .ok (.here loc)) : t.names path = some .directory := by
  rw [names, node, h]
  rfl

/-- A path that comes down to a name names what is there, but for a file if the path ends in a slash. -/
theorem names_of_name (h : t.target path = .ok (.name parent name slash)) :
    t.names path =
      match t.find? (parent ++ [name]) with
      | some (.file content) => if slash then none else some (.file content)
      | found => found := by
  simp only [names, node, h, bind, Except.bind]
  cases t.find? (parent ++ [name]) with
  | none => rfl
  | some found =>
    cases found with
    | directory => rfl
    | file content => cases slash <;> rfl

/-- A path that leads nowhere names nothing. -/
theorem names_of_target_error {e : FileError} (h : t.target path = .error e) : t.names path = none := by
  rw [names, node, h]
  rfl

/-- A path names the same in trees with the same directories, unless it comes down to a name that stands
for something else in the two. -/
theorem SameDirectories.names (h : SameDirectories t t')
    (hname : ∀ parent name slash, t.target path = .ok (.name parent name slash) →
      t'.find? (parent ++ [name]) = t.find? (parent ++ [name])) : t'.names path = t.names path := by
  cases htarget : t.target path with
  | ok target =>
    cases target with
    | here loc => rw [names_of_here htarget, names_of_here (h.target htarget)]
    | name parent name slash =>
      rw [names_of_name htarget, names_of_name (h.target htarget), hname parent name slash htarget]
  | error e =>
    cases htarget' : t'.target path with
    | ok target => exact nomatch htarget.symm.trans (h.symm.target htarget')
    | error e' => rw [names_of_target_error htarget, names_of_target_error htarget']

end HexConfig.FileTree
