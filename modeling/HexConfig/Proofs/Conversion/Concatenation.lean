import HexConfig.Proofs.Conversion.SyntaxFaults
import HexConfig.Proofs.Reader.Accounts
import HexConfig.Proofs.Reader.Overlay
import HexConfig.Proofs.Reader.Relocation
import HexConfig.Proofs.Token.Closed
import HexConfig.Proofs.Token.Relocation

/-!
# One text behind another

What a text comes to with another text behind it, on a line of its own. A fault in the first is the fault
of both, whatever comes behind it, unless it is that the input ran out (`convert_append_line_of_error`).
If the first is read to a document, the second is read on top of it, so many lines further down: the
documents are laid one over the other, and a fault is found where the first text has moved it
(`compile_append_line`). That holds under the greatest limits, since lower ones count both texts together,
and for any fault but a name that the second text alone does not know.

The first text has to close its strings. One that is left open would take in the second text.
-/

namespace HexConfig

open Reader

variable {settings : Settings} {source later : String} {d : Diagnostic} {doc : Document} {s : State}
  {escape : Bool}

/-! ## A fault stays -/

/-- What is said to have run out is told at the end of input. -/
theorem isUnterminated_of_finish? {p : Position} (h : s.finish? p = some d) : d.isUnterminated = true := by
  obtain ⟨expected, -, rfl⟩ := Option.map_eq_some_iff.mp h
  exact Diagnostic.isUnterminated_iff.mpr ⟨expected, _, rfl, rfl⟩

/-- A fault that is not at the end of input is raised by a token. -/
theorem feed_of_compile_error (h : compile settings source = .error d) (hd : d.isUnterminated = false) :
    ∃ stop, (State.start [] .zero).feed settings.toLimits (Tokens.ofText source).list = .error stop ∧
      stop.diagnostic = d := by
  rw [compile_eq] at h
  cases hfeed : (State.start [] .zero).feed settings.toLimits (Tokens.ofText source).list with
  | error stop =>
    rw [hfeed] at h
    exact ⟨stop, rfl, Except.error.inj h⟩
  | ok s =>
    rw [hfeed] at h
    cases hfinish : s.finish? (Tokens.ofText source).finish with
    | none =>
      simp only [hfinish] at h
      exact nomatch h
    | some d' =>
      simp only [hfinish] at h
      obtain rfl := Except.error.inj h
      rw [isUnterminated_of_finish? hfinish] at hd
      exact nomatch hd

/-- Nothing that is put behind a text, on a line of its own, changes a fault in it, unless the fault is that
the input ran out, or a string of the text is left open. -/
theorem convert_append_line_of_error (settings : Settings) (source later : String) (d : Diagnostic)
    (h : convert settings source = .error d) (hd : d.isUnterminated = false)
    (hclosed : ClosesStrings source) : convert settings (source ++ "\n" ++ later) = .error d := by
  obtain ⟨stop, hfeed, rfl⟩ := feed_of_compile_error (convert_eq_error_iff.mp h) hd
  apply convert_eq_error_iff.mpr
  have hall (behind : List Token) : (State.start [] .zero).feed settings.toLimits
      ((Tokens.ofText source).list ++ behind) = .error { stop with rest := stop.rest ++ behind } :=
    State.feed_append_of_error hfeed
  rw [compile_eq, Tokens.ofText_append_line ((closesStrings_iff source).mp hclosed), hall]

/-- An instance: a bracket where a value is due stays at fault, though what comes behind opens a string. -/
theorem convert_append_line_of_error_bracket :
    convert ⟨.standard, false⟩ "a = \"s\" b = ]" = .error ⟨.unexpected .value .rightBracket "]", ⟨1, 13⟩⟩ ∧
      ClosesStrings "a = \"s\" b = ]" ∧
      convert ⟨.standard, false⟩ ("a = \"s\" b = ]" ++ "\n" ++ "c = \"") =
        .error ⟨.unexpected .value .rightBracket "]", ⟨1, 13⟩⟩ := by
  have hfault : convert ⟨.standard, false⟩ "a = \"s\" b = ]" =
      .error ⟨.unexpected .value .rightBracket "]", ⟨1, 13⟩⟩ := by decide +kernel
  have hclosed : ClosesStrings "a = \"s\" b = ]" := by decide
  exact ⟨hfault, hclosed, convert_append_line_of_error _ _ _ _ hfault rfl hclosed⟩

/-! ## A document is laid over -/

/-- Where a text has been read to its end, no container is open. -/
theorem depth_of_feed
    (hfeed : (State.start [] .zero).feed settings.toLimits (Tokens.ofText source).list = .ok s)
    (hawait : s.awaiting = .declaration) : s.tally.depth = 0 := by
  obtain ⟨p, hwords, -⟩ := meaning?_of_compile (compile_of_feed_ok hfeed hawait)
  obtain ⟨q, -, hsettled⟩ := State.settled_start.program p hwords hfeed
  exact hsettled.depth

/-- Where a text has been read to its end, a reader that goes on goes along with one that starts afresh. -/
theorem atop_of_feed
    (hfeed : (State.start [] .zero).feed settings.toLimits (Tokens.ofText source).list = .ok s)
    (hawait : s.awaiting = .declaration) : State.Atop s.document (.start [] .zero) s where
  awaiting := ⟨0, hawait⟩
  document := rfl
  constants := nofun
  depth := depth_of_feed hfeed hawait

/-- What two texts come to, the second read from where the first has brought the reader. -/
theorem compile_append_line_eq (hclosed : ClosesStrings source)
    (hfeed : (State.start [] .zero).feed settings.toLimits (Tokens.ofText source).list = .ok s) :
    compile settings (source ++ "\n" ++ later) = s.conclude settings.toLimits
      ((Tokens.ofText later).relocate (.down (1 + source.toList.count '\n'))) := by
  rw [compile_eq, Tokens.ofText_append_line ((closesStrings_iff source).mp hclosed),
    State.feed_append_of_ok hfeed]
  rfl

/-- What the second text comes to behind the first, by what it comes to alone. -/
theorem compile_append_line_of_alone (later : String) (hclosed : ClosesStrings source)
    (h : compile ⟨.unlimited, escape⟩ source = .ok doc) :
    match compile ⟨.unlimited, escape⟩ later with
    | .ok doc' => compile ⟨.unlimited, escape⟩ (source ++ "\n" ++ later) = .ok (doc.overlay doc')
    | .error d => d.fault.IsUnknown ∨ compile ⟨.unlimited, escape⟩ (source ++ "\n" ++ later) =
        .error (d.relocate (.down (1 + source.toList.count '\n'))) := by
  obtain ⟨s, hfeed, hawait, rfl⟩ := feed_of_compile_ok h
  have hatop := (atop_of_feed hfeed hawait).conclude
    ((Tokens.ofText later).relocate (.down (1 + source.toList.count '\n')))
  have halone := conclude_ofText_relocate (.down (1 + source.toList.count '\n')) ⟨.unlimited, escape⟩ later
  rw [halone] at hatop
  rw [compile_append_line_eq hclosed hfeed]
  cases hlater : compile ⟨.unlimited, escape⟩ later with
  | ok doc' =>
    rw [hlater] at hatop
    exact hatop
  | error d =>
    rw [hlater] at hatop
    exact hatop

/-- Under the greatest limits, a text behind one that is read to a document comes to its own document laid
over that one, or to its own fault moved down behind it. A constant of either text may have the name of one
in the other. Only where the second text alone does not know a name is nothing said, since the first may
have declared it. -/
theorem compile_append_line (escape : Bool) (source later : String) (doc : Document)
    (h : compile ⟨.unlimited, escape⟩ source = .ok doc) (hclosed : ClosesStrings source) :
    (∀ doc', compile ⟨.unlimited, escape⟩ later = .ok doc' →
      compile ⟨.unlimited, escape⟩ (source ++ "\n" ++ later) = .ok (doc.overlay doc') ∧
        ∀ key, (doc.overlay doc').get? key = (doc'.get? key).or (doc.get? key)) ∧
    ∀ d, compile ⟨.unlimited, escape⟩ later = .error d → (∀ name, d.fault ≠ .unknownConstant name) →
      compile ⟨.unlimited, escape⟩ (source ++ "\n" ++ later) =
        .error ⟨d.fault, ⟨d.position.line + (1 + source.toList.count '\n'), d.position.column⟩⟩ := by
  have hboth := compile_append_line_of_alone later hclosed h
  refine ⟨?_, ?_⟩
  · intro doc' h'
    rw [h'] at hboth
    exact ⟨hboth, Document.get?_overlay doc doc'⟩
  · intro d h' hknown
    rw [h'] at hboth
    obtain hunknown | hboth := hboth
    · obtain ⟨fault, p⟩ := d
      cases fault with
      | unknownConstant name => exact absurd rfl (hknown name)
      | _ => exact hunknown.elim
    · exact hboth

/-- An instance: two constants of one name, an entry in both texts, and a number without digits in the second
line of a text behind one of two lines. -/
theorem compile_append_line_redeclared :
    compile ⟨.unlimited, false⟩ "global N = 0x1\na = ?[N] b = ?[N]" =
        .ok ((Document.empty.insert "a" (.number 1)).insert "b" (.number 1)) ∧
      ClosesStrings "global N = 0x1\na = ?[N] b = ?[N]" ∧
      compile ⟨.unlimited, false⟩
          ("global N = 0x1\na = ?[N] b = ?[N]" ++ "\n" ++ "global N = false\nb = ?[N]") =
        .ok (((Document.empty.insert "a" (.number 1)).insert "b" (.number 1)).overlay
          (Document.empty.insert "b" (.boolean false))) ∧
      compile ⟨.unlimited, false⟩ ("global N = 0x1\na = ?[N] b = ?[N]" ++ "\n" ++ "c = \n 0x") =
        .error ⟨.invalidNumber, ⟨4, 2⟩⟩ := by
  have hfirst : compile ⟨.unlimited, false⟩ "global N = 0x1\na = ?[N] b = ?[N]" =
      .ok ((Document.empty.insert "a" (.number 1)).insert "b" (.number 1)) := by decide +kernel
  have hclosed : ClosesStrings "global N = 0x1\na = ?[N] b = ?[N]" := by decide
  obtain ⟨hoverlay, -⟩ := compile_append_line false _ "global N = false\nb = ?[N]" _ hfirst hclosed
  obtain ⟨-, hfault⟩ := compile_append_line false _ "c = \n 0x" _ hfirst hclosed
  refine ⟨hfirst, hclosed, ?_, ?_⟩
  · exact (hoverlay (Document.empty.insert "b" (.boolean false)) (by decide +kernel)).1
  · exact hfault ⟨.invalidNumber, ⟨2, 2⟩⟩ (by decide +kernel) (fun _ => nofun)

end HexConfig
