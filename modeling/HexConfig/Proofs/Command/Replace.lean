import HexConfig.Command
import HexConfig.Proofs.FileTree.Changes

/-!
# A file replaced in one stroke

A file is written beside its target and then takes the target's name. It comes to one of two ends. If a file
can be put where the path leads and another one beside it (`FileTree.Replaceable`), the path names the new
file and nothing is left beside it (`FileTree.Replaced`). Otherwise the path names what it did, and the tree
has nothing that it did not have (`FileTree.Spared`): what was written beside it, if it was written at all,
is taken away again. What stood beside it before is lost then, unless it is a directory.
-/

namespace HexConfig

variable {t t' : FileTree} {path name draftName : String} {content : ByteArray}
  {parent draftParent : Location} {e : FileError}

namespace FileTree

/-- A file can be put where the path leads, and one beside it. -/
def Replaceable (t : FileTree) (path : String) : Prop :=
  (∃ parent name, t.Receives path parent name) ∧
    ∃ parent name, t.Receives (Path.beside path ".tmp") parent name

/-- The path names a file of this content, nothing is left beside it, however that is spelled, and all else
is as it was. -/
structure Replaced (t t' : FileTree) (path : String) (content : ByteArray) : Prop where
  written : t'.names path = some (.file content)
  beside : t'.names (Path.beside path ".tmp") = none
  behind : t'.names (path ++ ".tmp") = none
  directories : SameDirectories t t'
  others : ∀ parent name, t.target path = .ok (.name parent name false) →
    ∀ loc, loc ≠ parent ++ [name] → loc ≠ parent ++ [name ++ ".tmp"] → t'.find? loc = t.find? loc

/-- The path names what it did, there is nothing that was not there before, and all is as it was but for a
file beside the path. -/
structure Spared (t t' : FileTree) (path : String) : Prop where
  target : t'.names path = t.names path
  old : ∀ loc node, t'.find? loc = some node → t.find? loc = some node
  directories : SameDirectories t t'
  others : ∀ loc, t'.find? loc = t.find? loc ∨
    ∃ parent name, t.Receives (Path.beside path ".tmp") parent name ∧ loc = parent ++ [name]

theorem Spared.refl (t : FileTree) (path : String) : Spared t t path where
  target := rfl
  old _ _ h := h
  directories := ⟨rfl, fun _ => Iff.rfl⟩
  others _ := .inl rfl

/-- What is beside a name is another name in the same directory. -/
theorem Receives.beside (h : t.Receives path parent name)
    (hdraft : t.Receives (Path.beside path ".tmp") draftParent draftName) :
    draftParent = parent ∧ draftName = name ++ ".tmp" := by
  have htarget := hdraft.target
  rw [target_beside h.target] at htarget
  split at htarget
  · exact nomatch htarget
  · cases htarget
    exact ⟨rfl, rfl⟩

theorem concat_tmp_ne (parent : Location) (name : String) :
    parent ++ [name ++ ".tmp"] ≠ parent ++ [name] := by
  intro h
  have hname : name ++ ".tmp" = name := List.head_eq_of_cons_eq (List.append_cancel_left h)
  have hlength := congrArg String.length hname
  rw [String.length_append] at hlength
  exact absurd (Nat.add_eq_left.mp hlength) (by decide)

/-- A file that is put somewhere changes no directory. -/
theorem Receives.sameDirectories_put (h : t.Receives path parent name) (content : ByteArray) :
    SameDirectories t (t.put (parent ++ [name]) (.file content)) := by
  refine sameDirectories_of_find? (parent ++ [name]) rfl ?_ h.free ?_
  · intro l hl
    exact find?_put_of_ne hl
  · rw [find?_put_self (concat_ne_nil parent name)]
    exact nofun

/-- Nor does a file that is put somewhere and taken away. -/
theorem Receives.sameDirectories_erase (h : t.Receives path parent name) (content : ByteArray) :
    SameDirectories t ((t.put (parent ++ [name]) (.file content)).erase (parent ++ [name])) := by
  refine sameDirectories_of_find? (parent ++ [name]) rfl ?_ h.free ?_
  · intro l hl
    rw [find?_erase_of_ne hl, find?_put_of_ne hl]
  · rw [find?_erase_self (concat_ne_nil parent name)]
    exact nofun

/-- A place that receives a file does so in every tree with the same directories. -/
theorem Receives.congr (h : t.Receives path parent name) (hsame : SameDirectories t t') :
    t'.Receives path parent name where
  target := hsame.target h.target
  free := by
    intro hdirectory
    exact h.free ((hsame.directory _).mp hdirectory)

/-- A file put beside a path and taken away again spares what the path names. -/
theorem Receives.spared (h : t.Receives (Path.beside path ".tmp") parent name) (content : ByteArray) :
    Spared t ((t.put (parent ++ [name]) (.file content)).erase (parent ++ [name])) path where
  target := by
    apply (h.sameDirectories_erase content).names
    intro parent' name' slash htarget
    have hbeside := h.target
    rw [target_beside htarget] at hbeside
    split at hbeside
    · exact nomatch hbeside
    · cases hbeside
      have hne := (concat_tmp_ne parent name').symm
      rw [find?_erase_of_ne hne, find?_put_of_ne hne]
  old := by
    intro loc node hfound
    by_cases hloc : loc = parent ++ [name]
    · rw [hloc, find?_erase_self (concat_ne_nil parent name)] at hfound
      exact nomatch hfound
    · rwa [find?_erase_of_ne hloc, find?_put_of_ne hloc] at hfound
  directories := h.sameDirectories_erase content
  others := by
    intro loc
    by_cases hloc : loc = parent ++ [name]
    · exact .inr ⟨parent, name, h, hloc⟩
    · exact .inl (by rw [find?_erase_of_ne hloc, find?_put_of_ne hloc])

/-- A file put beside a path and moved there replaces what the path names. -/
theorem Receives.replaced (h : t.Receives path parent name)
    (hdraft : t.Receives (Path.beside path ".tmp") parent (name ++ ".tmp")) (content : ByteArray) :
    Replaced t (((t.put (parent ++ [name ++ ".tmp"]) (.file content)).erase (parent ++ [name ++ ".tmp"])).put
      (parent ++ [name]) (.file content)) path content := by
  have hgone := hdraft.sameDirectories_erase content
  have hplaced := (h.congr hgone).sameDirectories_put content
  have hsame := hgone.trans hplaced
  have hne := concat_tmp_ne parent name
  generalize hbetween : (t.put (parent ++ [name ++ ".tmp"]) (.file content)).erase
    (parent ++ [name ++ ".tmp"]) = between at hgone hplaced hsame ⊢
  have hnothing :
      (between.put (parent ++ [name]) (.file content)).find? (parent ++ [name ++ ".tmp"]) = none := by
    rw [find?_put_of_ne hne, ← hbetween, find?_erase_self (concat_ne_nil _ _)]
  refine ⟨?_, ?_, ?_, hsame, ?_⟩
  · rw [names_of_name (hsame.target h.target), find?_put_self (concat_ne_nil _ _)]
    rfl
  · rw [names_of_name (hsame.target hdraft.target), hnothing]
  · have htarget := target_append (hsame.target h.target)
    split at htarget
    · exact names_of_target_error htarget
    · rw [names_of_name htarget, hnothing]
  · intro parent' name' htarget loc hloc hloc'
    obtain ⟨rfl, rfl, -⟩ := Target.name.inj (Except.ok.inj (h.target.symm.trans htarget))
    rw [find?_put_of_ne hloc, ← hbetween, find?_erase_of_ne hloc', find?_put_of_ne hloc']

end FileTree

namespace Command

open FileTree

theorem attempt_run (change : FileTree → Except FileError FileTree) (t : FileTree) :
    (attempt change).run t =
      match change t with
      | .error e => (.error e, t)
      | .ok t₁ => (.ok (), t₁) := by
  cases hchange : change t with
  | error e => simp only [StateT.run, attempt, hchange]
  | ok t₁ => simp only [StateT.run, attempt, hchange]

theorem write_run (t : FileTree) (path : String) (content : ByteArray) :
    (FileStore.write path content : StateM FileTree _).run t =
      match t.write path content with
      | .error e => (.error e, t)
      | .ok t₁ => (.ok (), t₁) :=
  attempt_run _ t

theorem rename_run (t : FileTree) (source destination : String) :
    (FileStore.rename source destination : StateM FileTree _).run t =
      match t.rename source destination with
      | .error e => (.error e, t)
      | .ok t₁ => (.ok (), t₁) :=
  attempt_run _ t

/-- What replacing a file comes to, by what writing, renaming and removing do. -/
theorem replaceFile_run (t : FileTree) (path text : String) :
    (replaceFile path text : StateM FileTree _).run t =
      match t.write (Path.beside path ".tmp") text.toUTF8 with
      | .error e => (.error e, t.remove (Path.beside path ".tmp"))
      | .ok t₁ =>
        match t₁.rename (Path.beside path ".tmp") path with
        | .error e => (.error e, t₁.remove (Path.beside path ".tmp"))
        | .ok t₂ => (.ok (), t₂) := by
  unfold replaceFile
  rw [StateT.run_bind, write_run]
  cases t.write (Path.beside path ".tmp") text.toUTF8 with
  | error e => rfl
  | ok t₁ =>
    show StateT.run (FileStore.rename (Path.beside path ".tmp") path >>= _) t₁ = _
    rw [StateT.run_bind, rename_run]
    cases hrename : t₁.rename (Path.beside path ".tmp") path with
    | error e =>
      simp only [hrename]
      rfl
    | ok t₂ =>
      simp only [hrename]
      rfl

/-- A file is replaced if that can be done. -/
theorem replaceFile_of_replaceable (h : t.Replaceable path) (text : String) :
    ∃ t', (replaceFile path text : StateM FileTree _).run t = (.ok (), t') ∧
      Replaced t t' path text.toUTF8 := by
  obtain ⟨⟨parent, name, htarget⟩, draftParent, draftName, hdraft⟩ := h
  obtain ⟨rfl, rfl⟩ := htarget.beside hdraft
  have hsame := hdraft.sameDirectories_put text.toUTF8
  have hwritten : (t.put (draftParent ++ [name ++ ".tmp"]) (.file text.toUTF8)).find?
      (draftParent ++ [name ++ ".tmp"]) = some (.file text.toUTF8) := find?_put_self (concat_ne_nil _ _)
  refine ⟨_, ?_, htarget.replaced hdraft text.toUTF8⟩
  rw [replaceFile_run]
  simp only [write_of_receives hdraft,
    rename_of_receives (hsame.target hdraft.target) hwritten (htarget.congr hsame)]

/-- Where a path cannot be replaced, nothing is written, or what was written beside it is taken away again. -/
theorem replaceFile_run_of_not_replaceable (h : ¬ t.Replaceable path) (text : String) :
    ∃ e, (¬ ∃ parent name, t.Receives (Path.beside path ".tmp") parent name) ∧
        (replaceFile path text : StateM FileTree _).run t = (.error e, t) ∨
      ∃ parent name, t.Receives (Path.beside path ".tmp") parent name ∧
        (replaceFile path text : StateM FileTree _).run t =
          (.error e, (t.put (parent ++ [name]) (.file text.toUTF8)).erase (parent ++ [name])) := by
  rw [replaceFile_run]
  cases hwrite : t.write (Path.beside path ".tmp") text.toUTF8 with
  | error e =>
    refine ⟨e, .inl ⟨?_, ?_⟩⟩
    · rintro ⟨parent, name, hdraft⟩
      exact nomatch hwrite.symm.trans (write_of_receives hdraft text.toUTF8)
    · simp only [remove_of_write_error hwrite]
  | ok t₁ =>
    obtain ⟨parent, name, hdraft⟩ := receives_of_write hwrite
    have hsame := hdraft.sameDirectories_put text.toUTF8
    have hwritten : (t.put (parent ++ [name]) (.file text.toUTF8)).find? (parent ++ [name]) =
        some (.file text.toUTF8) := find?_put_self (concat_ne_nil _ _)
    obtain rfl : t.put (parent ++ [name]) (.file text.toUTF8) = t₁ :=
      Except.ok.inj ((write_of_receives hdraft text.toUTF8).symm.trans hwrite)
    cases hrename : (t.put (parent ++ [name]) (.file text.toUTF8)).rename (Path.beside path ".tmp") path with
    | ok t₂ =>
      obtain ⟨parent', name', htarget⟩ := receives_of_rename (hsame.target hdraft.target) hwritten hrename
      exact absurd ⟨⟨parent', name', htarget.congr hsame.symm⟩, parent, name, hdraft⟩ h
    | error e =>
      refine ⟨e, .inr ⟨parent, name, hdraft, ?_⟩⟩
      simp only [hrename, remove_of_file (hsame.target hdraft.target) hwritten]

/-- What a path names is spared if it cannot be replaced. -/
theorem replaceFile_of_not_replaceable (h : ¬ t.Replaceable path) (text : String) :
    ∃ e t', (replaceFile path text : StateM FileTree _).run t = (.error e, t') ∧ Spared t t' path := by
  obtain ⟨e, ⟨-, hrun⟩ | ⟨parent, name, hdraft, hrun⟩⟩ := replaceFile_run_of_not_replaceable h text
  · exact ⟨e, t, hrun, .refl t path⟩
  · exact ⟨e, _, hrun, hdraft.spared text.toUTF8⟩

end Command

end HexConfig
