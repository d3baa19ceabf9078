import HexConfig.Proofs.Command.Arguments
import HexConfig.Proofs.Command.Replace

/-!
# What a command does to the files

A command that is to convert a text comes to one of two ends. It converts the text and writes the result, or
prints it if no target is given; or it fails, with nothing printed, and leaves the target as it was and
nothing new beside it (`Command.run_conversion`). It succeeds exactly if the settings are given, the input is
a text, the text is converted, and the target, if there is one, can be replaced. There are five ways to come to
one of the two (`Command.Ending`), and everything about converting a file is read off from these.

The settings are those of the file and of the options together (`Arguments.effective`): an option has the last
word, the file the second, and what neither gives is standard. Only the encoding of strings, once asked for by
either, stays asked for.
-/

namespace HexConfig

open Settings.File

variable {t t' : FileTree} {a : Command.Arguments} {path input text : String} {d : Draft}

/-! ## Texts and settings in a tree -/

/-- What the lines of a settings file give, or `none` if it is refused. -/
def Settings.File.draft? (content : String) : Option Draft :=
  (lines (withoutMark content.toList)).foldlM Draft.line .empty

/-- The settings of the options and the file together. -/
def Command.Arguments.effective (a : Command.Arguments) (file : Draft) : Settings where
  maxDepth := (a.maxDepth.or file.maxDepth).getD Settings.standard.maxDepth
  maxNodes := (a.maxNodes.or file.maxNodes).getD Settings.standard.maxNodes
  escapeStrings := a.escapeStrings || file.escapeStrings.getD Settings.standard.escapeStrings

/-- Bytes are a text exactly if the text is written with them. -/
theorem fromUTF8?_eq_some_iff {content : ByteArray} :
    String.fromUTF8? content = some text ↔ content = text.toUTF8 := by
  unfold String.fromUTF8?
  constructor
  · intro h
    split at h
    · cases h
      rfl
    · exact nomatch h
  · rintro rfl
    exact dif_pos text.isValidUTF8

namespace FileTree

/-- The path names a file of this text. -/
def HasText (t : FileTree) (path text : String) : Prop := t.names path = some (.file text.toUTF8)

/-- What the settings file gives: the file of the path, if there is a path, or else the one of the standard
name, if there is anything of that name, or else nothing. -/
inductive Gives (t : FileTree) : Option String → Draft → Prop
  | named {path text : String} {d : Draft} : t.HasText path text → draft? text = some d →
      Gives t (some path) d
  | found {text : String} {d : Draft} : t.HasText Command.settingsFile text → draft? text = some d →
      Gives t none d
  | absent : t.names Command.settingsFile = none → Gives t none .empty

/-- A path names a file of one text. -/
theorem HasText.unique {text' : String} (h : t.HasText path text) (h' : t.HasText path text') : text = text' := by
  have hcontent : text.toUTF8 = text'.toUTF8 := FileNode.file.inj (Option.some.inj (h.symm.trans h'))
  exact Option.some.inj ((fromUTF8?_eq_some_iff.mpr rfl).symm.trans (fromUTF8?_eq_some_iff.mpr hcontent))

/-- One draft is given. -/
theorem Gives.unique {config : Option String} {d' : Draft} (h : t.Gives config d) (h' : t.Gives config d') :
    d = d' := by
  cases h with
  | named htext hdraft =>
    cases h' with
    | named htext' hdraft' =>
      rw [htext.unique htext', hdraft'] at hdraft
      exact (Option.some.inj hdraft).symm
  | found htext hdraft =>
    cases h' with
    | found htext' hdraft' =>
      rw [htext.unique htext', hdraft'] at hdraft
      exact (Option.some.inj hdraft).symm
    | absent hnone => cases htext.symm.trans hnone
  | absent hnone =>
    cases h' with
    | found htext' _ => cases htext'.symm.trans hnone
    | absent _ => rfl

/-- What the options ask to convert is converted to the text. -/
def Converts (t : FileTree) (a : Command.Arguments) (text : String) : Prop :=
  ∃ d input source, t.Gives a.config d ∧ a.input = some input ∧ t.HasText input source ∧
    convert (a.effective d) source = .ok text

end FileTree

namespace Command

open FileTree

/-- The arguments override the settings of a draft. -/
theorem Arguments.override_settings (a : Arguments) (d : Draft) :
    a.override d.settings = a.effective d := by
  obtain ⟨_, _, _, maxDepth, maxNodes, _, escapeStrings, _⟩ := a
  obtain ⟨depth, nodes, escape⟩ := d
  unfold override effective Draft.settings
  cases maxDepth <;> cases maxNodes <;> simp [Bool.or_comm]

/-- A read succeeds exactly where a path names a file, and gives what is in it. -/
theorem read_eq_ok_iff {content : ByteArray} :
    t.read path = .ok content ↔ t.names path = some (.file content) := by
  unfold FileTree.read names
  cases t.node path with
  | error e => exact ⟨nofun, nofun⟩
  | ok node =>
    cases node with
    | directory => exact ⟨nofun, nofun⟩
    | file content' => simp [bind, Except.bind, Except.toOption]

/-- A text is read where a path names a file of it, and nothing is changed. -/
theorem readText_run (t : FileTree) (path : String) :
    ∃ r, (readText path : StateM FileTree _).run t = (r, t) ∧ ∀ text, r = .ok text ↔ t.HasText path text := by
  have hrun : (FileStore.read path : StateM FileTree _).run t = (t.read path, t) := rfl
  unfold readText HasText
  rw [StateT.run_bind, hrun]
  cases hread : t.read path with
  | error e =>
    refine ⟨_, rfl, ?_⟩
    intro text
    rw [← read_eq_ok_iff, hread]
    simp
  | ok content =>
    have htext (text : String) : t.names path = some (.file text.toUTF8) ↔
        String.fromUTF8? content = some text := by
      rw [read_eq_ok_iff.mp hread, fromUTF8?_eq_some_iff, Option.some_inj, FileNode.file.injEq]
    simp only [bind, htext]
    cases String.fromUTF8? content with
    | none => exact ⟨_, rfl, fun text => by simp⟩
    | some text' => exact ⟨_, rfl, fun text => by simp⟩

/-- The settings of a file are read where it is a text that is not refused. -/
theorem readSettings_run (t : FileTree) (path : String) :
    ∃ r, (readSettings path : StateM FileTree _).run t = (r, t) ∧
      ∀ s, r = .ok s ↔ ∃ text d, t.HasText path text ∧ draft? text = some d ∧ d.settings = s := by
  obtain ⟨r, hrun, hr⟩ := readText_run t path
  unfold readSettings
  rw [StateT.run_bind, hrun]
  cases r with
  | error e =>
    refine ⟨_, rfl, fun s => iff_of_false (by simp) ?_⟩
    rintro ⟨text, d, htext, -⟩
    cases (hr text).mpr htext
  | ok text =>
    have hparse : Settings.File.parse text = (draft? text).map Draft.settings := rfl
    have htext := (hr text).mp rfl
    simp only [bind, hparse]
    cases hdraft : draft? text with
    | none =>
      refine ⟨_, rfl, fun s => iff_of_false (by simp) ?_⟩
      rintro ⟨text', d, htext', hdraft', -⟩
      rw [htext'.unique htext, hdraft] at hdraft'
      cases hdraft'
    | some d =>
      refine ⟨_, rfl, fun s => ⟨?_, ?_⟩⟩
      · intro h
        exact ⟨text, d, htext, hdraft, Except.ok.inj h⟩
      · rintro ⟨text', d', htext', hdraft', rfl⟩
        rw [htext'.unique htext, hdraft] at hdraft'
        cases hdraft'
        rfl

/-- A path holds nothing exactly if it names nothing. -/
theorem holds_eq_false_iff : t.holds path = false ↔ t.names path = none := by
  unfold holds names
  cases t.node path with
  | error e => exact ⟨fun _ => rfl, fun _ => rfl⟩
  | ok node => exact ⟨nofun, nofun⟩

/-- The settings before the options are looked at are those of the file that gives them. -/
theorem baseSettings_run (t : FileTree) (config : Option String) :
    ∃ r, (baseSettings config : StateM FileTree _).run t = (r, t) ∧
      ∀ s, r = .ok s ↔ ∃ d, t.Gives config d ∧ d.settings = s := by
  cases config with
  | some path =>
    obtain ⟨r, hrun, hr⟩ := readSettings_run t path
    refine ⟨r, hrun, fun s => (hr s).trans ⟨?_, ?_⟩⟩
    · rintro ⟨text, d, htext, hdraft, hs⟩
      exact ⟨d, .named htext hdraft, hs⟩
    · rintro ⟨d, hgives, hs⟩
      cases hgives with
      | named htext hdraft => exact ⟨_, d, htext, hdraft, hs⟩
  | none =>
    unfold baseSettings
    rw [StateT.run_bind]
    show ∃ r, StateT.run (if t.holds settingsFile = true then readSettings settingsFile
      else pure (.ok .standard)) t = _ ∧ _
    by_cases hholds : t.holds settingsFile = true
    · rw [if_pos hholds]
      obtain ⟨r, hrun, hr⟩ := readSettings_run t settingsFile
      refine ⟨r, hrun, fun s => (hr s).trans ⟨?_, ?_⟩⟩
      · rintro ⟨text, d, htext, hdraft, hs⟩
        exact ⟨d, .found htext hdraft, hs⟩
      · rintro ⟨d, hgives, hs⟩
        cases hgives with
        | found htext hdraft => exact ⟨_, d, htext, hdraft, hs⟩
        | absent hnone => exact nomatch (holds_eq_false_iff.mpr hnone).symm.trans hholds
    · rw [if_neg hholds]
      have hnone := holds_eq_false_iff.mp (Bool.eq_false_iff.mpr hholds)
      refine ⟨_, rfl, fun s => ⟨?_, ?_⟩⟩
      · intro h
        exact ⟨.empty, .absent hnone, Except.ok.inj h⟩
      · rintro ⟨d, hgives, rfl⟩
        cases hgives with
        | found htext _ => exact nomatch hnone.symm.trans htext
        | absent _ => rfl

/-! ## The two ends of a conversion -/

/-- The command has printed the text, or written it to the target and told so. -/
structure Done (t t' : FileTree) (input : String) (output : Option String) (text : String)
    (report : Report) : Prop where
  code : report.code = 0
  printed : output = none → report.output = text ++ "\n" ∧ t' = t
  written : ∀ path, output = some path →
    report.output = "Translated " ++ input ++ " to " ++ path ++ "\n" ∧ Replaced t t' path text.toUTF8

/-- The command has failed, with nothing printed and the target spared. -/
structure Refused (t t' : FileTree) (output : Option String) (report : Report) : Prop where
  code : report.code = 1
  silent : report.output = ""
  unchanged : output = none → t' = t
  spared : ∀ path, output = some path → Spared t t' path

theorem refused_failed (t : FileTree) (output : Option String) (notices : List Notice) (failure : Failure) :
    Refused t t output (.failed notices failure) where
  code := rfl
  silent := rfl
  unchanged _ := rfl
  spared path _ := .refl t path

theorem output_singleton (line : String) (notices : List Notice) (failure : Option Failure) :
    Report.output ⟨[line], notices, failure⟩ = line ++ "\n" := by
  simp [Report.output]

section

variable {source : String}

/-- What is told by the time a text is converted. -/
def noticesOf (settings : Settings) (input source : String) (notices : List Notice) : List Notice :=
  notices ++ .wasRead source.utf8ByteSize input :: (readSource settings source).log.map .reading

/-- What converting a file comes to, once its text is read. -/
theorem convertFile_run_of_source (output : Option String) (settings : Settings) (notices : List Notice)
    (hrun : (readText input : StateM FileTree _).run t = (.ok source, t)) :
    (convertFile input output settings notices : StateM FileTree _).run t =
      match convert settings source with
      | .error d => (.failed (noticesOf settings input source notices) (.sourceFaulty input d), t)
      | .ok text =>
        match output with
        | none => (⟨[text], noticesOf settings input source notices, none⟩, t)
        | some path =>
          match (replaceFile path text : StateM FileTree _).run t with
          | (.error e, t') =>
            (.failed (noticesOf settings input source notices) (.targetUnwritable path e), t')
          | (.ok (), t') =>
            (⟨["Translated " ++ input ++ " to " ++ path],
              noticesOf settings input source notices ++ [.wasWritten text.utf8ByteSize path], none⟩, t') := by
  have hprint : (readSource settings source).print settings.quoting = convert settings source := rfl
  unfold convertFile
  rw [StateT.run_bind, hrun]
  simp only [bind, hprint]
  cases convert settings source with
  | error d => rfl
  | ok text =>
    cases output with
    | none => rfl
    | some path =>
      show StateT.run ((replaceFile path text : StateM FileTree _) >>= _) t = _
      obtain ⟨r, t', hreplace⟩ : ∃ r t', (replaceFile path text : StateM FileTree _).run t = (r, t') :=
        ⟨_, _, rfl⟩
      rw [StateT.run_bind, hreplace]
      cases r with
      | error e =>
        simp only [hreplace]
        rfl
      | ok _ =>
        simp only [hreplace]
        rfl

/-- The ways in which converting a file ends, by its target if it has one: what is reported, and the tree that is
left. -/
inductive Ending (t : FileTree) (input : String) (settings : Settings) (notices : List Notice) :
    Option String → Report → FileTree → Prop
  /-- The input is no text. -/
  | unreadable {output : Option String} {e : FileError} : (∀ source, ¬ t.HasText input source) →
      Ending t input settings notices output (.failed notices (.sourceUnreadable input e)) t
  /-- The text has a fault. -/
  | faulty {output : Option String} {source : String} {d : Diagnostic} : t.HasText input source →
      convert settings source = .error d →
      Ending t input settings notices output
        (.failed (noticesOf settings input source notices) (.sourceFaulty input d)) t
  /-- The result is printed. -/
  | printed {source text : String} : t.HasText input source → convert settings source = .ok text →
      Ending t input settings notices none ⟨[text], noticesOf settings input source notices, none⟩ t
  /-- The target cannot be replaced. -/
  | unwritable {path source text : String} {e : FileError} {t' : FileTree} : t.HasText input source →
      convert settings source = .ok text →
      (replaceFile path text : StateM FileTree _).run t = (.error e, t') →
      Ending t input settings notices (some path)
        (.failed (noticesOf settings input source notices) (.targetUnwritable path e)) t'
  /-- The result is written. -/
  | written {path source text : String} {t' : FileTree} : t.HasText input source →
      convert settings source = .ok text →
      (replaceFile path text : StateM FileTree _).run t = (.ok (), t') →
      Ending t input settings notices (some path)
        ⟨["Translated " ++ input ++ " to " ++ path],
          noticesOf settings input source notices ++ [.wasWritten text.utf8ByteSize path], none⟩ t'

/-- Converting a file ends in one of these ways. -/
theorem convertFile_ending (t : FileTree) (input : String) (output : Option String) (settings : Settings)
    (notices : List Notice) :
    ∃ report t', (convertFile input output settings notices : StateM FileTree _).run t = (report, t') ∧
      Ending t input settings notices output report t' := by
  obtain ⟨r, hrun, hr⟩ := readText_run t input
  cases r with
  | error e =>
    refine ⟨_, t, ?_, .unreadable (e := e) fun source hsource => nomatch (hr source).mpr hsource⟩
    unfold convertFile
    rw [StateT.run_bind, hrun]
    rfl
  | ok source =>
    have hsource := (hr source).mp rfl
    have hconverted := convertFile_run_of_source output settings notices hrun
    cases hconvert : convert settings source with
    | error d =>
      rw [hconvert] at hconverted
      exact ⟨_, t, hconverted, .faulty hsource hconvert⟩
    | ok text =>
      cases output with
      | none =>
        rw [hconvert] at hconverted
        exact ⟨_, t, hconverted, .printed hsource hconvert⟩
      | some path =>
        cases hreplace : (replaceFile path text : StateM FileTree _).run t with
        | mk r t' =>
          simp only [hconvert, hreplace] at hconverted
          cases r with
          | error e => exact ⟨_, t', hconverted, .unwritable hsource hconvert hreplace⟩
          | ok _ => exact ⟨_, t', hconverted, .written hsource hconvert hreplace⟩

end

section

variable {settings : Settings} {notices : List Notice} {output : Option String} {report : Report} {source : String}

/-- A text that is converted is delivered, if its target can be replaced. -/
theorem Ending.done (h : Ending t input settings notices output report t') (hsource : t.HasText input source)
    (hconvert : convert settings source = .ok text)
    (hall : ∀ path, output = some path → t.Replaceable path) : Done t t' input output text report := by
  cases h with
  | unreadable hnone => exact absurd hsource (hnone source)
  | faulty hsource' hconvert' =>
    rw [hsource'.unique hsource, hconvert] at hconvert'
    cases hconvert'
  | printed hsource' hconvert' =>
    rw [hsource'.unique hsource, hconvert] at hconvert'
    cases hconvert'
    exact ⟨rfl, fun _ => ⟨output_singleton text _ none, rfl⟩, nofun⟩
  | unwritable _ _ hreplace =>
    obtain ⟨t'', hreplace', -⟩ := replaceFile_of_replaceable (hall _ rfl) _
    cases hreplace.symm.trans hreplace'
  | @written path source' text' t' hsource' hconvert' hreplace =>
    rw [hsource'.unique hsource, hconvert] at hconvert'
    cases hconvert'
    obtain ⟨t'', hreplace', hreplaced⟩ := replaceFile_of_replaceable (hall path rfl) text
    cases hreplace.symm.trans hreplace'
    refine ⟨rfl, nofun, ?_⟩
    rintro path' ⟨⟩
    exact ⟨output_singleton _ _ none, hreplaced⟩

/-- Otherwise the target is spared. -/
theorem Ending.refused (h : Ending t input settings notices output report t')
    (hnot : ¬ ∃ source text, t.HasText input source ∧ convert settings source = .ok text ∧
      ∀ path, output = some path → t.Replaceable path) : Refused t t' output report := by
  have hirreplaceable {path source text : String} (houtput : output = some path)
      (hsource : t.HasText input source) (hconvert : convert settings source = .ok text) :
      ¬ t.Replaceable path := by
    intro hreplaceable
    refine hnot ⟨source, text, hsource, hconvert, ?_⟩
    rintro path' hpath'
    cases houtput.symm.trans hpath'
    exact hreplaceable
  cases h with
  | unreadable _ => exact refused_failed t output notices _
  | faulty _ _ => exact refused_failed t output _ _
  | printed hsource hconvert => exact absurd ⟨_, _, hsource, hconvert, nofun⟩ hnot
  | unwritable hsource hconvert hreplace =>
    obtain ⟨e', t'', hreplace', hspared⟩ :=
      replaceFile_of_not_replaceable (hirreplaceable rfl hsource hconvert) _
    cases hreplace.symm.trans hreplace'
    refine ⟨rfl, rfl, nofun, ?_⟩
    rintro path' ⟨⟩
    exact hspared
  | written hsource hconvert hreplace =>
    obtain ⟨e', t'', hreplace', -⟩ :=
      replaceFile_of_not_replaceable (hirreplaceable rfl hsource hconvert) _
    cases hreplace.symm.trans hreplace'

/-- What the options come to where the settings are given. -/
theorem run_of_gives (h : t.Gives a.config d) :
    (run a : StateM FileTree _).run t =
      if a.test then (runScenarios (a.effective d) [.settled (a.effective d)], t)
      else
        match a.input with
        | none => (.failed [.settled (a.effective d)] .nothingToDo, t)
        | some input =>
          (convertFile input a.output (a.effective d) [.settled (a.effective d)] : StateM FileTree _).run t := by
  obtain ⟨r, hrun, hr⟩ := baseSettings_run t a.config
  obtain rfl := (hr d.settings).mpr ⟨d, h, rfl⟩
  unfold run
  rw [StateT.run_bind, hrun]
  simp only [bind, Arguments.override_settings]
  cases a.test with
  | true => rfl
  | false => cases a.input <;> rfl

/-- Where they are not, the command fails and changes nothing. -/
theorem run_of_not_gives (h : ∀ d, ¬ t.Gives a.config d) :
    ∃ failure, (run a : StateM FileTree _).run t = (.failed [] failure, t) := by
  obtain ⟨r, hrun, hr⟩ := baseSettings_run t a.config
  cases r with
  | error failure =>
    refine ⟨failure, ?_⟩
    unfold run
    rw [StateT.run_bind, hrun]
    rfl
  | ok settings =>
    obtain ⟨d, hgives, -⟩ := (hr settings).mp rfl
    exact absurd hgives (h d)

end

/-- A command line that is accepted and asks for a text to be converted comes to one of two ends, whatever
files there are. If the settings are given, the input is a text, it is converted, and the target, if there is
one, can be replaced, the text is written or printed; otherwise the command fails, prints nothing, spares the
target and leaves nothing new behind. -/
theorem run_conversion (words : List String) (a : Arguments) (t : FileTree)
    (h : Arguments.parse words = .ok (.run a)) (htest : a.test = false) :
    ∃ input report t', a.input = some input ∧ (run a : StateM FileTree _).run t = (report, t') ∧
      (∀ text, t.Converts a text → (∀ path, a.output = some path → t.Replaceable path) →
        Done t t' input a.output text report) ∧
      ((¬ ∃ text, t.Converts a text ∧ ∀ path, a.output = some path → t.Replaceable path) →
        Refused t t' a.output report) := by
  obtain ⟨input, hinput⟩ := Arguments.exists_input_of_parse h htest
  by_cases hgiven : ∃ d, t.Gives a.config d
  · obtain ⟨d, hgives⟩ := hgiven
    have hrun := run_of_gives hgives
    obtain ⟨report, t', hconvert, hending⟩ :=
      convertFile_ending t input a.output (a.effective d) [.settled (a.effective d)]
    simp only [htest, hinput] at hrun
    refine ⟨input, report, t', hinput, hrun.trans hconvert, ?_, ?_⟩
    · rintro text ⟨d', input', source, hgives', hinput', hsource, htext⟩ hall
      obtain rfl : input = input' := Option.some.inj (hinput.symm.trans hinput')
      obtain rfl : d = d' := hgives.unique hgives'
      exact hending.done hsource htext hall
    · intro hnot
      apply hending.refused
      rintro ⟨source, text, hsource, htext, hall⟩
      exact hnot ⟨text, ⟨d, input, source, hgives, hinput, hsource, htext⟩, hall⟩
  · obtain ⟨failure, hrun⟩ := run_of_not_gives fun d hgives => hgiven ⟨d, hgives⟩
    refine ⟨input, _, t, hinput, hrun, ?_, fun _ => refused_failed t a.output [] failure⟩
    rintro text ⟨d, _, _, hgives, -⟩
    exact absurd ⟨d, hgives⟩ hgiven

/-- A directory to work in, with a text, a settings file, a file where a draft would be, and a directory. -/
def workplace : FileTree where
  workingDirectory := ["w"]
  nodes := [(["w"], .directory), (["w", "a.conf"], .file "a = #(true)".toUTF8),
    (["w", "conflang.toml"], .file "max_depth = 0".toUTF8), (["w", "b.json.tmp"], .file "old".toUTF8),
    (["w", "o"], .directory)]

/-- An instance: the settings file alone would have the text refused, an option lets it pass. It is written to
a new file, over what stood beside it, and it is not written over a directory. -/
theorem run_conversion_written :
    (∃ report t', (run ⟨some "a.conf", some "./b.json", none, some 1, none, false, false, 0⟩ :
        StateM FileTree _).run workplace = (report, t') ∧ report.code = 0 ∧
      report.output = "Translated a.conf to ./b.json\n" ∧
      t'.names "./b.json" = some (.file "\x7b\n  \"a\": [true]\n\x7d".toUTF8) ∧
      t'.names "./b.json.tmp" = none) ∧
    ∃ report t', (run ⟨some "a.conf", some "o", none, some 1, none, false, false, 0⟩ :
        StateM FileTree _).run workplace = (report, t') ∧ report.code = 1 ∧ report.output = "" ∧
      t'.names "o" = some .directory := by
  constructor
  · have hparse : Arguments.parse ["--input", "a.conf", "--output", "./b.json", "--max-depth=1"] =
        .ok (.run ⟨some "a.conf", some "./b.json", none, some 1, none, false, false, 0⟩) := by decide +kernel
    obtain ⟨input, report, t', hinput, hrun, hdone, -⟩ := run_conversion _ _ workplace hparse rfl
    obtain rfl : "a.conf" = input := Option.some.inj hinput
    have hconverts : workplace.Converts ⟨some "a.conf", some "./b.json", none, some 1, none, false, false, 0⟩
        "\x7b\n  \"a\": [true]\n\x7d" :=
      ⟨⟨some 0, none, none⟩, "a.conf", "a = #(true)", .found rfl rfl, rfl, rfl, by decide +kernel⟩
    have hreplaceable : workplace.Replaceable "./b.json" :=
      ⟨⟨["w"], "b.json", rfl, nofun⟩, ["w"], "b.json.tmp", rfl, nofun⟩
    obtain ⟨hcode, -, hwritten⟩ := hdone _ hconverts fun path hpath => Option.some.inj hpath ▸ hreplaceable
    obtain ⟨houtput, hreplaced⟩ := hwritten _ rfl
    exact ⟨report, t', hrun, hcode, houtput, hreplaced.written, hreplaced.behind⟩
  · have hparse : Arguments.parse ["--input=a.conf", "--max-depth", "1", "--output", "o"] =
        .ok (.run ⟨some "a.conf", some "o", none, some 1, none, false, false, 0⟩) := by decide +kernel
    obtain ⟨input, report, t', -, hrun, -, hrefused⟩ := run_conversion _ _ workplace hparse rfl
    have hirreplaceable : ¬ workplace.Replaceable "o" := by
      rintro ⟨⟨parent, name, htarget, hfree⟩, -⟩
      have hdirectory : workplace.target "o" = .ok (.name ["w"] "o" false) := rfl
      obtain ⟨rfl, rfl, -⟩ := Target.name.inj (Except.ok.inj (hdirectory.symm.trans htarget))
      exact hfree rfl
    have hnot : ¬ ∃ text,
        workplace.Converts ⟨some "a.conf", some "o", none, some 1, none, false, false, 0⟩ text ∧
        ∀ path, some "o" = some path → workplace.Replaceable path := by
      rintro ⟨text, -, hall⟩
      exact hirreplaceable (hall "o" rfl)
    obtain ⟨hcode, hsilent, -, hspared⟩ := hrefused hnot
    exact ⟨report, t', hrun, hcode, hsilent, (hspared "o" rfl).target.trans rfl⟩

end Command

end HexConfig
