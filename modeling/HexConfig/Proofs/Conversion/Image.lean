import HexConfig.Proofs.Conversion.Unambiguous
import HexConfig.Proofs.Reader.History
import HexConfig.Proofs.Token.Tiling

/-!
# What can come of a reader

A reader of a text holds proper tokens and constants that a source text can write, and nothing done to it
changes that: a reading that is stopped keeps the constants it had and leaves a part of its tokens. So
whatever a reader goes through, the documents it gives and the constants it keeps are those that a source
text can write (`written_of_run`), and what is printed of them has its names in increasing order wherever
there are names (`Json.Increasing`).
-/

namespace HexConfig

/-! ## Names -/

/-- How names are spelled. -/
theorem isName_iff {k : String} :
    IsName k ↔ (∃ c cs, k.toList = c :: cs ∧ c.isAlpha = true ∧
        ∀ d ∈ cs, d.isAlphanum = true ∨ d = '_') ∧
      k ≠ "global" ∧ k ≠ "true" ∧ k ≠ "false" := by
  simp only [IsName, Word.Proper, Token.Kind.ofWord_eq_identifier_iff, String.ofList_toList,
    List.mem_cons, List.not_mem_nil, or_false, not_or, isWordChar, Bool.or_eq_true, decide_eq_true_eq]
  constructor
  · rintro ⟨c, cs, hk, hc, hcs, hreserved⟩
    exact ⟨⟨c, cs, hk, hc, hcs⟩, hreserved⟩
  · rintro ⟨⟨c, cs, hk, hc, hcs⟩, hreserved⟩
    exact ⟨c, cs, hk, hc, hcs, hreserved⟩

/-! ## The order of members -/

/-- The names of every object strictly increase, at every depth. -/
inductive Json.Increasing : Json → Prop
  | null : Increasing .null
  | boolean (b : Bool) : Increasing (.boolean b)
  | number (m e : Int) : Increasing (.number m e)
  | string (s : String) : Increasing (.string s)
  | array {items : List Json} : (∀ j ∈ items, Increasing j) → Increasing (.array items)
  | object {members : List (String × Json)} : members.Pairwise (·.1 < ·.1) →
      (∀ m ∈ members, Increasing m.2) → Increasing (.object members)

namespace Value

/-- The structured view of a value that can be written has its names in order. -/
theorem Writable.increasing {v : Value} (h : v.Writable) : v.toJson.Increasing := by
  induction h with
  | number => exact .number _ _
  | text => exact .string _
  | boolean b => exact .boolean b
  | sequence _ ih =>
    rw [toJson, toJsonItems_eq_map]
    refine .array fun j hj => ?_
    obtain ⟨v, hv, rfl⟩ := List.mem_map.mp hj
    exact ih v hv
  | mapping hsorted _ _ ih =>
    rw [toJson, toJsonMembers_eq_map]
    refine .object (List.pairwise_map.mpr hsorted) fun m hm => ?_
    obtain ⟨e, he, rfl⟩ := List.mem_map.mp hm
    exact ih e he

/-- Either way of printing carries the strings of a value that can be written. -/
theorem Writable.carries {v : Value} (h : v.Writable) (q : Quoting) :
    ∀ s ∈ v.strings, q.Carries s := by
  cases q with
  | encoded => exact v.carries_encoded
  | verbatim => exact h.not_mem_quote

end Value

/-! ## Readers -/

namespace Reader

/-- All that a reader holds is what a text can hold: its tokens and the constants it has learned. -/
structure Written (r : Reader) : Prop where
  tokens : ∀ t ∈ r.tokens.list, Word.Proper t.word
  constants : WritableConstants r.constants

variable {r : Reader}

theorem written_ofText (source : String) (limits : Limits) : (ofText source limits).Written :=
  ⟨fun _ => Tokens.proper_of_mem, Entries.all_nil⟩

/-- A fault publishes nothing. -/
theorem State.constants_of_failed {limits : Limits} {s s' : State} {t : Token} {d : Diagnostic}
    (h : s.step limits t = .error (.failed d s')) : s'.constants = s.constants := by
  cases failure_of_step h <;> rfl

/-- Where a reading is stopped, the constants are some that can be written, and the tokens left are some
of those it had. -/
theorem State.written_of_feed_error {limits : Limits} {s : State} {ts : List Token} {stop : Stop}
    (hfeed : s.feed limits ts = .error stop) (hproper : ∀ t ∈ ts, Word.Proper t.word)
    (hs : s.Writable) : WritableConstants stop.state.constants ∧ stop.rest ⊆ ts := by
  obtain ⟨used, t, rest, s₁, rfl, hused, hstop⟩ := stop_of_feed hfeed
  have hs₁ := writable_of_feed hused (fun t ht => hproper t (List.mem_append_left _ ht)) hs
  rcases hstop with ⟨expected, -, rfl⟩ | ⟨hstep, hrest⟩
  · exact ⟨hs₁.constants, List.subset_append_right _ _⟩
  · rw [constants_of_failed hstep, hrest]
    exact ⟨hs₁.constants, fun u hu => List.mem_append_right _ (List.mem_cons_of_mem t hu)⟩

/-- What a reader gives can be written, however it ends. -/
theorem Written.read (h : r.Written) :
    r.read.2.Written ∧ ∀ doc, r.read.1.result = .ok doc → doc.entries.Writable := by
  have hstart := State.writable_start h.constants r.tally
  unfold Reader.read
  split
  · next stop hfeed =>
    obtain ⟨hconstants, hrest⟩ := State.written_of_feed_error hfeed h.tokens hstart
    exact ⟨⟨fun t ht => h.tokens t (hrest ht), hconstants⟩, nofun⟩
  · next s hfeed =>
    have hs := State.writable_of_feed hfeed h.tokens hstart
    have hleft : (r.leftAt [] s).Written := ⟨nofun, hs.constants⟩
    split
    · exact ⟨hleft, nofun⟩
    · refine ⟨hleft, fun doc hdoc => ?_⟩
      cases hdoc
      exact hs.document

theorem Written.move (h : r.Written) (m : Move) : (r.move m).Written := by
  cases m with
  | read => exact h.read.1
  | maxDepth n => exact ⟨h.tokens, h.constants⟩
  | maxNodes n => exact ⟨h.tokens, h.constants⟩

/-- A history leaves a reader with what a text can hold. -/
theorem Written.run (h : r.Written) (moves : List Move) : (r.run moves).Written := by
  induction moves generalizing r with
  | nil => exact h
  | cons m moves ih => exact ih (h.move m)

/-- Whatever a reader of a text goes through, the documents that it gives and the constants that it keeps
are values that a source text can write; the structured view of such a value has its names in order
everywhere, and it is what is read of the printed text, whichever way that was printed. -/
theorem written_of_run (source : String) (limits : Limits) (moves : List Move) :
    (∀ doc, ((ofText source limits).run moves).read.1.result = .ok doc → doc.toValue.Writable) ∧
      (∀ name c, ((ofText source limits).run moves).constants.find? name = some c →
        c.value.Writable) ∧
      (∀ v : Value, v.Writable → v.toJson.Increasing ∧
        ∀ q, Json.parse? q (v.print q) = some v.toJson) ∧
      ∀ k, IsName k ↔ (∃ c cs, k.toList = c :: cs ∧ c.isAlpha = true ∧
          ∀ d ∈ cs, d.isAlphanum = true ∨ d = '_') ∧
        k ≠ "global" ∧ k ≠ "true" ∧ k ≠ "false" := by
  have hrun := (written_ofText source limits).run moves
  refine ⟨?_, hrun.constants, ?_, fun k => isName_iff⟩
  · intro doc hdoc
    exact (hrun.read.2 doc hdoc).mapping
  · intro v hv
    exact ⟨hv.increasing, fun q => Value.parse?_print (hv.carries q)⟩

/-- An instance: a reading is stopped behind a constant, and the next, which goes on from there, splices
the constant into its document. -/
theorem written_of_run_resumed :
    ((ofText "global A = \x7bb = 0x1 a = true\x7d x = ?[B] y = ?[A]" .standard).run
        [.read, .maxNodes 5]).read.1.result =
      .ok (Document.empty.insert "y" (.mapping [("a", .boolean true), ("b", .number 1)])) ∧
    (Document.empty.insert "y" (.mapping [("a", .boolean true), ("b", .number 1)])).toValue.Writable ∧
    ((Value.mapping [("a", .boolean true), ("b", .number 1)]).toJson).Increasing := by
  have hread : ((ofText "global A = \x7bb = 0x1 a = true\x7d x = ?[B] y = ?[A]" .standard).run
      [.read, .maxNodes 5]).read.1.result =
      .ok (Document.empty.insert "y" (.mapping [("a", .boolean true), ("b", .number 1)])) := by
    decide +kernel
  have hconstant : ((ofText "global A = \x7bb = 0x1 a = true\x7d x = ?[B] y = ?[A]" .standard).run
      [.read, .maxNodes 5]).constants.find? "A" =
      some ⟨.mapping [("a", .boolean true), ("b", .number 1)], 1, 3⟩ := by decide +kernel
  obtain ⟨hdocument, hconstants, hprinted, -⟩ := written_of_run
    "global A = \x7bb = 0x1 a = true\x7d x = ?[B] y = ?[A]" .standard [.read, .maxNodes 5]
  exact ⟨hread, hdocument _ hread, (hprinted _ (hconstants _ _ hconstant)).1⟩

end Reader

end HexConfig
