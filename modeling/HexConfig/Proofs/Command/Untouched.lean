import HexConfig.Proofs.Command

/-!
# What a command line leaves alone

A command line that has nothing to write changes nothing: it is refused, it tells of itself, it runs the
scenarios, it prints what it converted, or it fails before there is a text. One that writes goes by way of
another name, that of the target with an ending. The name is fixed, and nobody looks whether it is taken, so a
file that has it is lost, whatever becomes of the target, and even if it is the input (`answer_loses_draft`).
A directory of that name is kept.

That is all there is to lose: the file that the target names, if it can be replaced, and the file beside it.
Everything else is as it was, whatever it is called in the command line (`answer_confined`).
-/

namespace HexConfig

open Settings.File

variable {t t' : FileTree} {path : String} {content : ByteArray} {parent : Location} {name : String}
  {loc : Location}

namespace FileTree

/-- The places that may change when the path is to be written: beside it, and where it leads, if a file can be
put there and beside it. -/
inductive Exposed (t : FileTree) (path : String) : Location → Prop
  | target {parent : Location} {name : String} : t.Replaceable path → t.Receives path parent name →
      Exposed t path (parent ++ [name])
  | beside {parent : Location} {name : String} : t.Receives (Path.beside path ".tmp") parent name →
      Exposed t path (parent ++ [name])

/-- At most what is exposed has changed, no directory has, and a file beside the path is lost. Nothing has
changed at all if no file can be put beside the path. -/
structure Confined (t t' : FileTree) (path : String) : Prop where
  directories : SameDirectories t t'
  others : ∀ loc, ¬ t.Exposed path loc → t'.find? loc = t.find? loc
  beside : ∀ parent name, t.Receives (Path.beside path ".tmp") parent name →
    t'.find? (parent ++ [name]) = none
  unwritten : (¬ ∃ parent name, t.Receives (Path.beside path ".tmp") parent name) → t' = t

theorem SameDirectories.refl (t : FileTree) : SameDirectories t t := ⟨rfl, fun _ => Iff.rfl⟩

/-- A path leads to one place. -/
theorem Receives.unique {parent' : Location} {name' : String} (h : t.Receives path parent name)
    (h' : t.Receives path parent' name') : parent' ++ [name'] = parent ++ [name] := by
  obtain ⟨rfl, rfl, -⟩ := Target.name.inj (Except.ok.inj (h.target.symm.trans h'.target))
  rfl

theorem confined_refl (h : ¬ ∃ parent name, t.Receives (Path.beside path ".tmp") parent name) :
    Confined t t path where
  directories := .refl t
  others _ _ := rfl
  beside parent name hdraft := absurd ⟨parent, name, hdraft⟩ h
  unwritten _ := rfl

/-- A file that was put beside the path and taken away again. -/
theorem Receives.confined (h : t.Receives (Path.beside path ".tmp") parent name) (content : ByteArray) :
    Confined t ((t.put (parent ++ [name]) (.file content)).erase (parent ++ [name])) path where
  directories := h.sameDirectories_erase content
  others loc hloc := by
    have hne : loc ≠ parent ++ [name] := by
      rintro rfl
      exact hloc (.beside h)
    rw [find?_erase_of_ne hne, find?_put_of_ne hne]
  beside parent' name' h' := by
    rw [h.unique h', find?_erase_self (concat_ne_nil parent name)]
  unwritten hnot := absurd ⟨parent, name, h⟩ hnot

/-- A file that was replaced. -/
theorem Replaced.confined (h : Replaced t t' path content) (hreplaceable : t.Replaceable path) :
    Confined t t' path := by
  obtain ⟨⟨parent, name, htarget⟩, draftParent, draftName, hdraft⟩ := id hreplaceable
  obtain ⟨rfl, rfl⟩ := htarget.beside hdraft
  refine ⟨h.directories, ?_, ?_, fun hnot => absurd ⟨_, _, hdraft⟩ hnot⟩
  · intro loc hloc
    apply h.others _ _ htarget.target
    · rintro rfl
      exact hloc (.target hreplaceable htarget)
    · rintro rfl
      exact hloc (.beside hdraft)
  · intro parent' name' hdraft'
    have hnothing := h.beside
    rw [names_of_name (h.directories.target hdraft'.target)] at hnothing
    cases hfound : t'.find? (parent' ++ [name']) with
    | none => rfl
    | some node =>
      rw [hfound] at hnothing
      cases node with
      | file _ => exact nomatch hnothing
      | directory => exact nomatch hnothing

/-- What a path names has not changed if the place it leads to was not exposed. -/
theorem Confined.names (h : Confined t t' path) {other : String}
    (hother : ∀ parent name slash, t.target other = .ok (.name parent name slash) →
      ¬ t.Exposed path (parent ++ [name])) : t'.names other = t.names other :=
  h.directories.names fun parent name slash htarget => h.others _ (hother parent name slash htarget)

end FileTree

namespace Command

open FileTree

/-- Whether a file can be replaced or not, only what is exposed changes. -/
theorem replaceFile_confined {text : String} {r : Except FileError Unit}
    (h : (replaceFile path text : StateM FileTree _).run t = (r, t')) : Confined t t' path := by
  by_cases hreplaceable : t.Replaceable path
  · obtain ⟨t'', hrun, hreplaced⟩ := replaceFile_of_replaceable hreplaceable text
    cases h.symm.trans hrun
    exact hreplaced.confined hreplaceable
  · obtain ⟨e, ⟨hnot, hrun⟩ | ⟨parent, name, hdraft, hrun⟩⟩ :=
      replaceFile_run_of_not_replaceable hreplaceable text
    · cases h.symm.trans hrun
      exact confined_refl hnot
    · cases h.symm.trans hrun
      exact hdraft.confined text.toUTF8

/-- The options have a text written to the path: it is there, and it is converted. -/
def Arguments.Writes (a : Arguments) (t : FileTree) (path text : String) : Prop :=
  a.test = false ∧ a.output = some path ∧ t.Converts a text

/-- Between the trees there is what is written and nothing else: what is exposed there changes, and without
anything to write nothing does. -/
structure Wrote (writes : String → String → Prop) (t t' : FileTree) : Prop where
  confined : ∀ path text, writes path text → Confined t t' path
  unchanged : (¬ ∃ path text, writes path text) → t' = t

variable {writes writes' : String → String → Prop}

theorem wrote_nothing (h : ∀ path text, ¬ writes path text) : Wrote writes t t where
  confined path text hwrite := absurd hwrite (h path text)
  unchanged _ := rfl

theorem Wrote.congr (h : Wrote writes t t') (hwrites : ∀ path text, writes path text ↔ writes' path text) :
    Wrote writes' t t' where
  confined path text hwrite := h.confined path text ((hwrites path text).mpr hwrite)
  unchanged hnot := by
    apply h.unchanged
    rintro ⟨path, text, hwrite⟩
    exact hnot ⟨path, text, (hwrites path text).mp hwrite⟩

/-- Where one text has one path to go to, that is what is written. -/
theorem wrote_of_confined (h : Confined t t' path) {text : String} (hwrite : writes path text)
    (honly : ∀ path' text', writes path' text' → path' = path) : Wrote writes t t' where
  confined path' text' hwrite' := honly path' text' hwrite' ▸ h
  unchanged hnot := absurd ⟨path, text, hwrite⟩ hnot

/-- What is written is a text that is there, is converted and has a target. -/
theorem convertFile_confined (t : FileTree) (input : String) (output : Option String) (settings : Settings)
    (notices : List Notice) :
    ∃ report t', (convertFile input output settings notices : StateM FileTree _).run t = (report, t') ∧
      Wrote (fun path text => output = some path ∧
        ∃ source, t.HasText input source ∧ convert settings source = .ok text) t t' := by
  obtain ⟨report, t', hrun, hending⟩ := convertFile_ending t input output settings notices
  refine ⟨report, t', hrun, ?_⟩
  cases hending with
  | unreadable hnone =>
    refine wrote_nothing ?_
    rintro path text ⟨-, source, hsource, -⟩
    exact hnone source hsource
  | faulty hsource hconvert =>
    refine wrote_nothing ?_
    rintro path text ⟨-, source', hsource', htext⟩
    rw [hsource'.unique hsource, hconvert] at htext
    cases htext
  | printed _ _ => exact wrote_nothing fun _ _ ⟨houtput, _⟩ => by cases houtput
  | unwritable hsource hconvert hreplace | written hsource hconvert hreplace =>
    refine wrote_of_confined (replaceFile_confined hreplace) ⟨rfl, _, hsource, hconvert⟩ ?_
    rintro path' text' ⟨hpath, -⟩
    exact (Option.some.inj hpath).symm

/-- The command writes what its options have written. -/
theorem run_confined (a : Arguments) (t : FileTree) :
    ∃ report t', (run a : StateM FileTree _).run t = (report, t') ∧ Wrote (a.Writes t) t t' := by
  by_cases hgiven : ∃ d, t.Gives a.config d
  · obtain ⟨d, hgives⟩ := hgiven
    have hrun := run_of_gives hgives
    cases htest : a.test with
    | true =>
      simp only [htest] at hrun
      refine ⟨_, t, hrun, wrote_nothing ?_⟩
      rintro path text ⟨hfalse, -⟩
      exact nomatch htest.symm.trans hfalse
    | false =>
      cases hinput : a.input with
      | none =>
        simp only [htest, hinput] at hrun
        refine ⟨_, t, hrun, wrote_nothing ?_⟩
        rintro path text ⟨-, -, _, _, _, -, hinput', -⟩
        exact nomatch hinput.symm.trans hinput'
      | some input =>
        simp only [htest, hinput] at hrun
        obtain ⟨report, t', hconvert, hwrote⟩ :=
          convertFile_confined t input a.output (a.effective d) [.settled (a.effective d)]
        refine ⟨report, t', hrun.trans hconvert, hwrote.congr fun path text => ⟨?_, ?_⟩⟩
        · rintro ⟨houtput, source, hsource, htext⟩
          exact ⟨htest, houtput, d, input, source, hgives, hinput, hsource, htext⟩
        · rintro ⟨-, houtput, d', input', source, hgives', hinput', hsource, htext⟩
          obtain rfl : input = input' := Option.some.inj (hinput.symm.trans hinput')
          obtain rfl : d = d' := hgives.unique hgives'
          exact ⟨houtput, source, hsource, htext⟩
  · obtain ⟨failure, hrun⟩ := run_of_not_gives fun d hgives => hgiven ⟨d, hgives⟩
    refine ⟨_, t, hrun, wrote_nothing ?_⟩
    rintro path text ⟨-, -, d, _, _, hgives, -⟩
    exact hgiven ⟨d, hgives⟩

/-- The words of a command line have a text written to the path. -/
def Writes (words : List String) (t : FileTree) (path text : String) : Prop :=
  ∃ a, Arguments.parse words = .ok (.run a) ∧ a.Writes t path text

/-- What a command line writes is what its options have written. -/
theorem answer_wrote (words : List String) (t : FileTree) :
    ∃ answered t', (answer words : StateM FileTree _).run t = (answered, t') ∧
      Wrote (Writes words t) t t' := by
  unfold answer Writes
  cases hparse : Arguments.parse words with
  | error e => exact ⟨_, t, rfl, wrote_nothing fun _ _ ⟨a, ha, _⟩ => nomatch ha⟩
  | ok request =>
    cases request with
    | version => exact ⟨_, t, rfl, wrote_nothing fun _ _ ⟨a, ha, _⟩ => nomatch ha⟩
    | help => exact ⟨_, t, rfl, wrote_nothing fun _ _ ⟨a, ha, _⟩ => nomatch ha⟩
    | run a =>
      obtain ⟨report, t', hrun, hwrote⟩ := run_confined a t
      refine ⟨.ran report a.verbosity, t', ?_, hwrote.congr fun path text => ⟨?_, ?_⟩⟩
      · rw [StateT.run_bind, hrun]
        rfl
      · exact fun hwrite => ⟨a, rfl, hwrite⟩
      · rintro ⟨a', ha', hwrite⟩
        cases ha'
        exact hwrite

/-- What a command line changes, whatever its words and whatever files there are. It changes no directory, and
nothing at all if there is nothing to write. If a text is written to a path, all places keep what they have
but the one of the path, if a file can be put there and beside it, and the one beside the path; what is beside
it is lost if it is a file, and nothing at all has changed if no file can be put there. So a path names what
it did unless it leads to one of the two. -/
theorem answer_confined (words : List String) (t : FileTree) :
    ∃ answered t', (answer words : StateM FileTree _).run t = (answered, t') ∧
      SameDirectories t t' ∧
      ((¬ ∃ path text, Writes words t path text) → t' = t) ∧
      (∀ path text, Writes words t path text → Confined t t' path) ∧
      ∀ other, (∀ path text, Writes words t path text →
          ∀ parent name slash, t.target other = .ok (.name parent name slash) →
            ¬ t.Exposed path (parent ++ [name])) →
        t'.names other = t.names other := by
  obtain ⟨answered, t', hrun, hconfined, hunchanged⟩ := answer_wrote words t
  by_cases hwrites : ∃ path text, Writes words t path text
  · obtain ⟨path, text, hwrite⟩ := hwrites
    have hall := hconfined path text hwrite
    exact ⟨answered, t', hrun, hall.directories, hunchanged, hconfined,
      fun other hother => hall.names (hother path text hwrite)⟩
  · obtain rfl := hunchanged hwrites
    exact ⟨answered, _, hrun, .refl _, hunchanged, hconfined, fun _ _ => rfl⟩

/-- A directory to work in, with texts, some under names that are also those of others with the ending, and a
directory. -/
def desk : FileTree where
  workingDirectory := ["w"]
  nodes := [(["w"], .directory), (["w", "a.json.tmp"], .file "a = 0x1".toUTF8),
    (["w", "b.conf"], .file "b = 0x2".toUTF8), (["w", "b.json.tmp"], .file "mine".toUTF8),
    (["w", "o"], .directory), (["w", "o.tmp"], .file "mine".toUTF8)]

/-- A file beside the target is lost: one that has nothing to do with the command, where the target is written
and where it cannot be written, and the input itself. -/
theorem answer_loses_draft :
    (desk.names "b.json.tmp" = some (.file "mine".toUTF8) ∧
      ((answer ["--input", "b.conf", "--output", "b.json"] : StateM FileTree _).run desk).1.code = 0 ∧
      ((answer ["--input", "b.conf", "--output", "b.json"] : StateM FileTree _).run desk).2.names
        "b.json.tmp" = none) ∧
    (desk.names "o.tmp" = some (.file "mine".toUTF8) ∧
      ((answer ["--input", "b.conf", "--output", "o"] : StateM FileTree _).run desk).1.code = 1 ∧
      ((answer ["--input", "b.conf", "--output", "o"] : StateM FileTree _).run desk).2.names
        "o.tmp" = none) ∧
    desk.names "a.json.tmp" = some (.file "a = 0x1".toUTF8) ∧
      ((answer ["--input", "a.json.tmp", "--output", "a.json"] : StateM FileTree _).run desk).1.code = 0 ∧
      ((answer ["--input", "a.json.tmp", "--output", "a.json"] : StateM FileTree _).run desk).2.names
        "a.json.tmp" = none := by
  refine ⟨⟨rfl, ?_, ?_⟩, ⟨rfl, ?_, ?_⟩, rfl, ?_, ?_⟩
  all_goals decide +kernel

/-- An instance: where the scenarios are run, an output is accepted and nothing is written. Where the target
is a directory the command fails, and its input is what it was. -/
theorem answer_confined_desk :
    ((answer ["--test", "--output", "b.json"] : StateM FileTree _).run desk).2 = desk ∧
    ((answer ["--input", "b.conf", "--output", "o"] : StateM FileTree _).run desk).2.names "b.conf" =
      desk.names "b.conf" := by
  constructor
  · obtain ⟨answered, t', hrun, -, hunchanged, -, -⟩ := answer_confined ["--test", "--output", "b.json"] desk
    rw [hrun]
    apply hunchanged
    rintro ⟨path, text, a, ha, htest, -⟩
    have hparse : Arguments.parse ["--test", "--output", "b.json"] =
        .ok (.run ⟨none, some "b.json", none, none, none, true, false, 0⟩) := by decide +kernel
    cases hparse.symm.trans ha
    exact nomatch htest
  · obtain ⟨answered, t', hrun, -, -, -, hnames⟩ :=
      answer_confined ["--input", "b.conf", "--output", "o"] desk
    rw [hrun]
    apply hnames
    rintro path text ⟨a, ha, -, houtput, -⟩ parent name slash htarget hexposed
    have hparse : Arguments.parse ["--input", "b.conf", "--output", "o"] =
        .ok (.run ⟨some "b.conf", some "o", none, none, none, false, false, 0⟩) := by decide +kernel
    cases hparse.symm.trans ha
    cases houtput
    have hinput : desk.target "b.conf" = .ok (.name ["w"] "b.conf" false) := rfl
    cases hinput.symm.trans htarget
    generalize hloc : ["w"] ++ ["b.conf"] = loc at hexposed
    cases hexposed with
    | target _ hreceives =>
      have hdirectory : desk.target "o" = .ok (.name ["w"] "o" false) := rfl
      cases hdirectory.symm.trans hreceives.target
      exact hreceives.free rfl
    | beside hreceives =>
      have hdraft : desk.target (Path.beside "o" ".tmp") = .ok (.name ["w"] "o.tmp" false) := rfl
      cases hdraft.symm.trans hreceives.target
      exact absurd hloc (by decide)

end Command

end HexConfig
