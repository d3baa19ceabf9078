import HexConfig.Proofs.Reader.Bounds
import HexConfig.Proofs.Reader.Prefix

/-!
# Everything a reader can go through

A reader can be read from, and its limits can be set, in any order and as often as one likes: a reading
takes up what the one before left, whether that was stopped or not. A history is a row of such moves.
Every history leaves the reader sound (`sound_run`), and what a sound reader reads keeps to the limits it
reads under (`read_within_limits`).
-/

namespace HexConfig.Reader

/-- What can be done with a reader. -/
inductive Move where
  /-- Reads on. -/
  | read
  /-- Sets the limit on nesting. -/
  | maxDepth (n : Nat)
  /-- Sets the limit on values written out. -/
  | maxNodes (n : Nat)

/-- The reader after a move. -/
def move (r : Reader) : Move → Reader
  | .read => r.read.2
  | .maxDepth n => r.withMaxDepth n
  | .maxNodes n => r.withMaxNodes n

/-- The reader after a history. -/
def run (r : Reader) (moves : List Move) : Reader := moves.foldl move r

/-- A reader that may be read from. -/
def Sound (r : Reader) : Prop := State.Sound r.constants r.tally

variable {r : Reader}

theorem sound_ofText (source : String) (limits : Limits) : (ofText source limits).Sound :=
  ⟨Nat.zero_le _, Entries.all_nil⟩

/-- A reading leaves the reader sound, however it ends. -/
theorem sound_read (h : r.Sound) : r.read.2.Sound := by
  have hstart := State.bounded_start h r.limits
  unfold read
  split
  · next stop hfeed => exact State.sound_of_feed_error hfeed ⟨_, hstart⟩
  · next s hfeed =>
    obtain ⟨b, hs⟩ := State.bounded_of_feed hfeed ⟨_, hstart⟩
    split
    · exact hs.toKept.sound
    · exact hs.toKept.sound

theorem sound_move (h : r.Sound) (m : Move) : (r.move m).Sound := by
  cases m with
  | read => exact sound_read h
  | maxDepth n => exact h
  | maxNodes n => exact h

/-- A history leaves a sound reader sound. -/
theorem sound_run (h : r.Sound) (moves : List Move) : (r.run moves).Sound := by
  induction moves generalizing r with
  | nil => exact h
  | cons m moves ih => exact ih (sound_move h m)

/-- What a sound reader reads keeps to the limits, where they are below the greatest number. -/
theorem within_limits_of_sound (h : r.Sound) {doc : Document} (hread : r.read.1.result = .ok doc)
    (hdepth : r.limits.maxDepth < Limits.greatest) (hnodes : r.limits.maxNodes < Limits.greatest) :
    doc.nesting ≤ r.limits.maxDepth ∧ doc.nodes ≤ r.limits.maxNodes := by
  unfold read at hread
  split at hread
  · exact nomatch hread
  · next s hfeed =>
    obtain ⟨b, hs⟩ := State.bounded_of_feed hfeed ⟨_, State.bounded_start h r.limits⟩
    split at hread
    · exact nomatch hread
    · cases hread
      have hnesting : min (0 + s.document.nesting) Limits.greatest ≤ r.limits.maxDepth := hs.nesting
      have hdocument := hs.document
      have hchecked := hs.checked
      refine ⟨by omega, ?_⟩
      rcases hchecked with hzero | hbase
      · rw [hzero]
        exact Nat.zero_le _
      · omega

/-- Whatever a reader went through, a document that it gives under limits below the greatest number
keeps to them: none of its values nests deeper than the one allows, and altogether there are no more of
them than the other does. -/
theorem read_within_limits (source : String) (limits : Limits) (moves : List Move) {doc : Document}
    (hread : ((ofText source limits).run moves).read.1.result = .ok doc)
    (hdepth : ((ofText source limits).run moves).limits.maxDepth < Limits.greatest)
    (hnodes : ((ofText source limits).run moves).limits.maxNodes < Limits.greatest) :
    (∀ e ∈ doc.entries, e.2.nesting ≤ ((ofText source limits).run moves).limits.maxDepth) ∧
      doc.nodes ≤ ((ofText source limits).run moves).limits.maxNodes := by
  have hsound := sound_run (sound_ofText source limits) moves
  obtain ⟨hnesting, hcount⟩ := within_limits_of_sound hsound hread hdepth hnodes
  exact ⟨fun e he => Nat.le_trans (Value.nesting_le_of_mem he) hnesting, hcount⟩

/-- An instance: the first reading is stopped inside an array, and the second goes on behind it, under
limits set in between. -/
theorem read_within_limits_resumed :
    ((ofText "a = #(?[B] global B = #(0x1) b = ?[B]" .standard).run
        [.read, .maxDepth 3, .maxNodes 3]).read.1.result =
      .ok (Document.empty.insert "b" (.sequence [.number 1])) ∧
    (∀ e ∈ (Document.empty.insert "b" (.sequence [.number 1])).entries, e.2.nesting ≤ 3) ∧
      (Document.empty.insert "b" (.sequence [.number 1])).nodes ≤ 3 := by
  have hread : ((ofText "a = #(?[B] global B = #(0x1) b = ?[B]" .standard).run
      [.read, .maxDepth 3, .maxNodes 3]).read.1.result =
      .ok (Document.empty.insert "b" (.sequence [.number 1])) := by decide +kernel
  exact ⟨hread, read_within_limits _ _ _ hread (by decide) (by decide)⟩

end HexConfig.Reader
