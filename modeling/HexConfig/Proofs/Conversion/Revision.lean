import HexConfig.Proofs.Conversion.Unambiguous
import HexConfig.Proofs.Source.Revision
import HexConfig.Proofs.Token.Laid
import HexConfig.Proofs.Token.Terminated

/-!
# The last write counts, and the order does not

A text whose program follows that of another is read, under any limits, wherever the other is, and to the same
document (`compile_of_follows`): what limits look at is what the program needs with its references written out,
and it needs no more. So entries of different names that stand next to each other can change places in a text,
at the top level or inside of any object, and an entry can be taken out whose name is written again later
(`convert_revised`).

The pieces of text that are moved have to be whole: their strings closed, and blanks where they are put
together.
-/

namespace HexConfig

/-! ## Words -/

section Words

variable {cs r : List Char}

/-- No string is open behind the text, and the last of its characters, if it has any, is a blank. -/
structure Cleared (cs : List Char) : Prop where
  terminated : Terminated cs
  blank : Parted cs.reverse

theorem wordsAhead_nil : wordsAhead [] = [] := wordsAhead_of_nil rfl

/-- The words of a text go on with those of what begins with a blank. -/
theorem Parted.wordsAhead_append (hr : Parted r) (hcs : Terminated cs) :
    wordsAhead (cs ++ r) = wordsAhead cs ++ wordsAhead r := by
  cases r with
  | nil => rw [wordsAhead_nil, List.append_nil, List.append_nil]
  | cons b r => exact HexConfig.wordsAhead_append hcs ⟨b, rfl, hr b rfl⟩

/-- Behind a blank the words of a text go on with those of whatever is there. -/
theorem Cleared.wordsAhead_append (hcs : Cleared cs) (r : List Char) :
    wordsAhead (cs ++ r) = wordsAhead cs ++ wordsAhead r := by
  obtain rfl | ⟨ds, b, rfl⟩ := List.eq_nil_or_concat' cs
  · rw [wordsAhead_nil, List.nil_append, List.nil_append]
  · -- The blank at the end stands between the text and what is behind it.
    have hb : Separates [b] := separates_singleton (hcs.blank b (by simp))
    have hquote : [b].count '"' = 0 := List.count_eq_zero.mpr fun hmem => absurd (hb.2 _ hmem) (by decide)
    have hds : Terminated ds := by
      have hterminated := hcs.terminated
      rwa [Terminated, List.count_append, hquote] at hterminated
    have hlast := wordsAhead_append_separated hds hb []
    rw [List.append_nil, wordsAhead_nil, List.append_nil] at hlast
    rw [List.append_assoc, wordsAhead_append_separated hds hb, hlast]

/-- The words of two groups with blanks between, and of what is before and behind them. -/
theorem words_groups {before a gap b after : String} (hbefore : Cleared before.toList)
    (ha : Terminated a.toList) (hgap : Separates gap.toList) (hb : Terminated b.toList)
    (hafter : Parted after.toList) :
    (Tokens.ofText (before ++ a ++ gap ++ b ++ after)).words = (Tokens.ofText before).words ++
      ((Tokens.ofText a).words ++ ((Tokens.ofText b).words ++ (Tokens.ofText after).words)) := by
  simp only [words_ofText, String.toList_append, List.append_assoc]
  rw [hbefore.wordsAhead_append, wordsAhead_append_separated ha hgap, hafter.wordsAhead_append hb]

end Words

variable {settings : Settings} {source source' : String} {doc : Document} {p p' : Program}

/-! ## Documents -/

/-- A text whose program follows that of another is read wherever that is, and to the same document. -/
theorem compile_of_follows (hsize : source.utf8ByteSize < Integer.signedBound)
    (hsize' : source'.utf8ByteSize < Integer.signedBound) (hwords : (Tokens.ofText source).words = p.words)
    (hwords' : (Tokens.ofText source').words = p'.words) (hfollows : p.Follows p')
    (h : compile settings source = .ok doc) : compile settings source' = .ok doc := by
  obtain ⟨q, hexpand, hdoc, hdepth, hnodes⟩ := (compile_eq_ok_iff_allow settings hsize hwords).mp h
  obtain ⟨q', hexpand', hdoc', hdepth', hnodes'⟩ := hfollows.exists_expand? hexpand hdoc
  refine (compile_eq_ok_iff_allow settings hsize' hwords').mpr ⟨q', hexpand', hdoc', ?_, ?_⟩
  · exact Nat.le_trans (sumUpTo_le_sumUpTo (Nat.le_refl _) hdepth') hdepth
  · exact Nat.le_trans (sumUpTo_le_sumUpTo (Nat.le_refl _) hnodes') hnodes

theorem convert_of_follows {text : String} (hsize : source.utf8ByteSize < Integer.signedBound)
    (hsize' : source'.utf8ByteSize < Integer.signedBound) (hwords : (Tokens.ofText source).words = p.words)
    (hwords' : (Tokens.ofText source').words = p'.words) (hfollows : p.Follows p')
    (h : convert settings source = .ok text) : convert settings source' = .ok text := by
  obtain ⟨doc, hcompile, hprint⟩ := convert_eq_ok_iff.mp h
  exact convert_eq_ok_iff.mpr ⟨doc, compile_of_follows hsize hsize' hwords hwords' hfollows hcompile, hprint⟩

/-! ## Texts with a change in them -/

section Changes

variable {before a gap b after text : String}

/-- Two groups of words that are exchanged in a text. -/
theorem convert_of_exchanged
    (hexchanged : Program.Exchanged p p' (Tokens.ofText before).words (Tokens.ofText a).words
      (Tokens.ofText b).words (Tokens.ofText after).words)
    (hbefore : Cleared before.toList) (ha : Terminated a.toList) (hgap : Separates gap.toList)
    (hb : Terminated b.toList) (hafter : Parted after.toList)
    (hsize : (before ++ a ++ gap ++ b ++ after).utf8ByteSize < Integer.signedBound)
    (h : convert settings (before ++ a ++ gap ++ b ++ after) = .ok text) :
    convert settings (before ++ b ++ gap ++ a ++ after) = .ok text := by
  have hsize' : (before ++ b ++ gap ++ a ++ after).utf8ByteSize < Integer.signedBound := by
    simp only [String.utf8ByteSize_append] at hsize ⊢
    omega
  have hwords := (words_groups hbefore ha hgap hb hafter).trans hexchanged.words.symm
  have hwords' := (words_groups hbefore hb hgap ha hafter).trans hexchanged.symm.words.symm
  exact convert_of_follows hsize hsize' hwords hwords' hexchanged.follows h

/-- A group of words that is taken out of a text. -/
theorem convert_of_dropped
    (hdropped : Program.Dropped p p' (Tokens.ofText before).words (Tokens.ofText a).words
      (Tokens.ofText after).words)
    (hbefore : Cleared before.toList) (ha : Terminated a.toList) (hafter : Parted after.toList)
    (hsize : (before ++ a ++ after).utf8ByteSize < Integer.signedBound)
    (h : convert settings (before ++ a ++ after) = .ok text) :
    convert settings (before ++ after) = .ok text := by
  have hsize' : (before ++ after).utf8ByteSize < Integer.signedBound := by
    simp only [String.utf8ByteSize_append] at hsize ⊢
    omega
  obtain ⟨hp, hp'⟩ := hdropped.words
  have hwords : (Tokens.ofText (before ++ a ++ after)).words = p.words := by
    simp only [hp, words_ofText, String.toList_append, List.append_assoc]
    rw [hbefore.wordsAhead_append, hafter.wordsAhead_append ha]
  have hwords' : (Tokens.ofText (before ++ after)).words = p'.words := by
    simp only [hp', words_ofText, String.toList_append]
    rw [hbefore.wordsAhead_append]
  exact convert_of_follows hsize hsize' hwords hwords' hdropped.follows h

end Changes

/-- Under any limits, the words of two entries next to each other, or of two declarations, can change places in
a text if they write different names: the text is converted if it was before, and to the same. And the words of
an entry or a declaration can be taken out of a text that is converted if its name is written again later: the
text is converted to the same. -/
theorem convert_revised (settings : Settings) :
    (∀ (before a gap b after : String) (p p' : Program),
      Program.Exchanged p p' (Tokens.ofText before).words (Tokens.ofText a).words (Tokens.ofText b).words
        (Tokens.ofText after).words →
      Cleared before.toList → Terminated a.toList → Separates gap.toList → Terminated b.toList →
      Parted after.toList → (before ++ a ++ gap ++ b ++ after).utf8ByteSize < Integer.signedBound →
      ∀ text, convert settings (before ++ a ++ gap ++ b ++ after) = .ok text ↔
        convert settings (before ++ b ++ gap ++ a ++ after) = .ok text) ∧
    ∀ (before a after : String) (p p' : Program),
      Program.Dropped p p' (Tokens.ofText before).words (Tokens.ofText a).words (Tokens.ofText after).words →
      Cleared before.toList → Terminated a.toList → Parted after.toList →
      (before ++ a ++ after).utf8ByteSize < Integer.signedBound →
      ∀ text, convert settings (before ++ a ++ after) = .ok text →
        convert settings (before ++ after) = .ok text := by
  refine ⟨?_, ?_⟩
  · intro before a gap b after p p' hexchanged hbefore ha hgap hb hafter hsize text
    have hsize' : (before ++ b ++ gap ++ a ++ after).utf8ByteSize < Integer.signedBound := by
      simp only [String.utf8ByteSize_append] at hsize ⊢
      omega
    constructor
    · exact convert_of_exchanged hexchanged hbefore ha hgap hb hafter hsize
    · exact convert_of_exchanged hexchanged.symm hbefore hb hgap ha hafter hsize'
  · intro before a after p p' hdropped hbefore ha hafter hsize text
    exact convert_of_dropped hdropped hbefore ha hafter hsize

/-- An instance: two entries of an object in an array, in the value of a constant, and a block behind an entry
with the name that blocks get. -/
theorem convert_revised_nested :
    convert ⟨⟨2, 4⟩, true⟩ ("global N = #( \x7b " ++ "y = \"s\"" ++ "\n" ++ "x = 0x1" ++ " \x7d ) k = ?[N]") =
        .ok "\x7b\n  \"k\": [\x7b\n  \"x\": 1,\n  \"y\": \"s\"\n\x7d]\n\x7d" ∧
      convert ⟨⟨1, 3⟩, true⟩ ("" ++ "unnamed = 0x1" ++ " \x7b a = 0x2 \x7d") =
        .ok "\x7b\n  \"unnamed\": \x7b\n    \"a\": 2\n  \x7d\n\x7d" ∧
      convert ⟨⟨1, 3⟩, true⟩ ("" ++ " \x7b a = 0x2 \x7d") =
        .ok "\x7b\n  \"unnamed\": \x7b\n    \"a\": 2\n  \x7d\n\x7d" := by
  let spot : Program.Spot :=
    ⟨[], .global "N" (.item [] (.object (.here [] [])) []), [.entry "k" (.reference "N")]⟩
  have hexchanged : Program.Exchanged (spot.fill [("x", .number "1"), ("y", .string "s")])
      (spot.fill [("y", .string "s"), ("x", .number "1")]) (Tokens.ofText "global N = #( \x7b ").words
      (Tokens.ofText "x = 0x1").words (Tokens.ofText "y = \"s\"").words
      (Tokens.ofText " \x7d ) k = ?[N]").words := by
    have hopening : (Tokens.ofText "global N = #( \x7b ").words = spot.opening := by decide +kernel
    have hx : (Tokens.ofText "x = 0x1").words = Term.wordsOfEntries [("x", .number "1")] := by decide +kernel
    have hy : (Tokens.ofText "y = \"s\"").words = Term.wordsOfEntries [("y", .string "s")] := by decide +kernel
    have hclosing : (Tokens.ofText " \x7d ) k = ?[N]").words = spot.closing := by decide +kernel
    rw [hopening, hx, hy, hclosing]
    exact .entries spot _ _ (by decide)
  have hdropped : Program.Dropped [.entry "unnamed" (.number "1"), .block [("a", .number "2")]]
      [.block [("a", .number "2")]] (Tokens.ofText "").words (Tokens.ofText "unnamed = 0x1").words
      (Tokens.ofText " \x7b a = 0x2 \x7d").words := by
    have hentry : (Tokens.ofText "unnamed = 0x1").words =
        (Declaration.entry "unnamed" (.number "1")).words := by decide +kernel
    have hblock : (Tokens.ofText " \x7b a = 0x2 \x7d").words = Program.words [.block [("a", .number "2")]] := by
      decide +kernel
    rw [show (Tokens.ofText "").words = Program.words [] by decide +kernel, hentry, hblock]
    exact .declaration [] rfl (List.mem_singleton.mpr rfl)
  have hconvert : convert ⟨⟨2, 4⟩, true⟩
      ("global N = #( \x7b " ++ "x = 0x1" ++ "\n" ++ "y = \"s\"" ++ " \x7d ) k = ?[N]") =
        .ok "\x7b\n  \"k\": [\x7b\n  \"x\": 1,\n  \"y\": \"s\"\n\x7d]\n\x7d" := by decide +kernel
  have hconvert' : convert ⟨⟨1, 3⟩, true⟩ ("" ++ "unnamed = 0x1" ++ " \x7b a = 0x2 \x7d") =
        .ok "\x7b\n  \"unnamed\": \x7b\n    \"a\": 2\n  \x7d\n\x7d" := by decide +kernel
  obtain ⟨hexchange, -⟩ := convert_revised ⟨⟨2, 4⟩, true⟩
  obtain ⟨-, hdrop⟩ := convert_revised ⟨⟨1, 3⟩, true⟩
  have hline : Separates "\n".toList := separates_singleton rfl
  refine ⟨?_, hconvert', ?_⟩
  · exact (hexchange _ _ _ _ _ _ _ hexchanged ⟨by decide, by decide⟩ (by decide) hline (by decide)
      (by decide) (by decide) _).mp hconvert
  · exact hdrop _ _ _ _ _ hdropped ⟨by decide, by decide⟩ (by decide) (by decide) (by decide) _ hconvert'

end HexConfig
