import HexConfig.Proofs.FileTree

/-!
# Writing, renaming and removing

A file can be put where a path comes down to a name, no slash behind it, that no directory has
(`FileTree.Receives`). There, and nowhere else, a file is written (`FileTree.write_of_receives`,
`FileTree.receives_of_write`), and there a file is moved from where it is. Where none can be written there is
none to remove (`FileTree.remove_of_write_error`).
-/

namespace HexConfig.FileTree

variable {t t' : FileTree} {path source destination name fromName : String} {content : ByteArray}
  {parent fromParent : Location} {slash : Bool} {e : FileError}

/-- A file can be put where the path leads. -/
structure Receives (t : FileTree) (path : String) (parent : Location) (name : String) : Prop where
  target : t.target path = .ok (.name parent name false)
  free : t.find? (parent ++ [name]) ≠ some .directory

/-- Where a file can be put it is written, over a file that is there. -/
theorem write_of_receives (h : t.Receives path parent name) (content : ByteArray) :
    t.write path content = .ok (t.put (parent ++ [name]) (.file content)) := by
  simp only [write, h.target, bind, Except.bind]
  split
  · next hdirectory => exact absurd hdirectory h.free
  · rfl

/-- A file is written only where one can be put. -/
theorem receives_of_write (h : t.write path content = .ok t') :
    ∃ parent name, t.Receives path parent name := by
  cases htarget : t.target path with
  | error e =>
    simp only [write, htarget, bind, Except.bind] at h
    exact nomatch h
  | ok target =>
    simp only [write, htarget, bind, Except.bind] at h
    cases target with
    | here loc => exact nomatch h
    | name parent name slash =>
      simp only at h
      split at h
      · exact nomatch h
      next hfree =>
      cases slash with
      | true => exact nomatch h
      | false => exact ⟨parent, name, htarget, hfree⟩

/-- Where a file cannot be written there is none to remove. -/
theorem remove_of_write_error (h : t.write path content = .error e) : t.remove path = t := by
  unfold remove
  split
  · next parent name htarget =>
    split
    · next found hfound =>
      have hreceives : t.Receives path parent name := ⟨htarget, by rw [hfound]; exact nofun⟩
      exact nomatch h.symm.trans (write_of_receives hreceives content)
    · rfl
  · rfl

/-- A file that is there is removed. -/
theorem remove_of_file (h : t.target path = .ok (.name parent name false))
    (hfile : t.find? (parent ++ [name]) = some (.file content)) :
    t.remove path = t.erase (parent ++ [name]) := by
  simp only [remove, h, hfile]

/-- A file is moved, content and all, to where one can be put. -/
theorem rename_of_receives (hsource : t.target source = .ok (.name fromParent fromName slash))
    (hfile : t.find? (fromParent ++ [fromName]) = some (.file content))
    (h : t.Receives destination parent name) :
    t.rename source destination =
      .ok ((t.erase (fromParent ++ [fromName])).put (parent ++ [name]) (.file content)) := by
  simp only [rename, hsource, h.target, hfile, bind, Except.bind, if_neg Bool.false_ne_true]
  split
  · next hdirectory => exact absurd hdirectory h.free
  · rfl

/-- A file is moved only to where one can be put. -/
theorem receives_of_rename (hsource : t.target source = .ok (.name fromParent fromName slash))
    (hfile : t.find? (fromParent ++ [fromName]) = some (.file content))
    (h : t.rename source destination = .ok t') : ∃ parent name, t.Receives destination parent name := by
  cases htarget : t.target destination with
  | error e =>
    simp only [rename, hsource, htarget, bind, Except.bind] at h
    exact nomatch h
  | ok target =>
    simp only [rename, hsource, htarget, bind, Except.bind] at h
    cases target with
    | here loc => exact nomatch h
    | name parent name slash =>
      simp only [hfile] at h
      cases slash with
      | true => exact nomatch h
      | false =>
        refine ⟨parent, name, htarget, ?_⟩
        intro hdirectory
        simp only [hdirectory] at h
        exact nomatch h

end HexConfig.FileTree
