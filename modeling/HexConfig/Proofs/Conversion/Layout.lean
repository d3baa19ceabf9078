import HexConfig.Proofs.Conversion
import HexConfig.Proofs.Reader.Relocation
import HexConfig.Proofs.Token.Laid

/-!
# Layout does not matter

Blanks, the mark of a number and the quotes around `true` and `false` are the writer's choice. A text
written with the words of another, whatever the choices, has these words again, and is converted to the
same JSON text or stopped by the same fault, at a place of its own (`convert_of_laidOut`).

The words say all but the places of the tokens, and the reader never looks at those: with every token sent
to one and the same place, the two rows are one row.
-/

namespace HexConfig

variable {settings : Settings} {source source' : String}

/-- Rows with the same words are the same row once all places are one. -/
theorem Tokens.relocate_eq_of_words {ts ts' : Tokens} (h : ts.words = ts'.words) (p : Position) :
    ts.relocate (fun _ => p) = ts'.relocate (fun _ => p) := by
  have hlist (ts : Tokens) : ts.list.map (Token.relocate fun _ => p) =
      ts.words.map fun w => ⟨w.1, w.2, p⟩ := by
    rw [words, List.map_map]
    rfl
  unfold relocate
  rw [hlist, hlist, h]

/-- What a text is read to, and the fault that it is stopped by, are told by its words. -/
theorem compile_of_words (h : (Tokens.ofText source).words = (Tokens.ofText source').words) :
    (compile settings source).mapError Diagnostic.fault =
      (compile settings source').mapError Diagnostic.fault := by
  have hfault (x : Except Diagnostic Document) : x.mapError Diagnostic.fault =
      (x.mapError (Diagnostic.relocate fun _ => .start)).mapError Diagnostic.fault := by
    cases x with
    | ok doc => rfl
    | error d => rfl
  have hplaces := Tokens.relocate_eq_of_words h .start
  rw [hfault, hfault (compile settings source'), ← conclude_ofText_relocate, ← conclude_ofText_relocate,
    hplaces]

theorem convert_mapError (settings : Settings) (source : String) :
    (convert settings source).mapError Diagnostic.fault =
      ((compile settings source).mapError Diagnostic.fault).map (Document.print settings.quoting) := by
  show ((compile settings source).map (Document.print settings.quoting)).mapError _ = _
  cases compile settings source with
  | ok doc => rfl
  | error d => rfl

/-- A text in which the words of another are laid out, each written in any of its ways and with any blanks
between them, has the same words, and is converted to the same JSON text or stopped by the same fault. -/
theorem convert_of_laidOut (settings : Settings) (source source' : String)
    (h : LaidOut (Tokens.ofText source).words source'.toList) :
    (Tokens.ofText source').words = (Tokens.ofText source).words ∧
      (convert settings source').mapError Diagnostic.fault =
        (convert settings source).mapError Diagnostic.fault := by
  have hwords := h.words_ofText fun _ => Tokens.occurs_of_mem
  refine ⟨hwords, ?_⟩
  rw [convert_mapError, convert_mapError, compile_of_words hwords]

/-- An instance: a number without digits behind a lone zero, a quoted boolean that was written bare, and a
string that nothing closed. -/
theorem convert_of_laidOut_unclosed :
    LaidOut (Tokens.ofText "a=0xtrue 0 \"\n").words "\ta  =\n0X \"true\"\r0 \"\n\" ".toList ∧
      (Tokens.ofText "\ta  =\n0X \"true\"\r0 \"\n\" ").words = (Tokens.ofText "a=0xtrue 0 \"\n").words ∧
      (convert ⟨.standard, false⟩ "\ta  =\n0X \"true\"\r0 \"\n\" ").mapError Diagnostic.fault =
        .error .invalidNumber := by
  have hlaid : LaidOut (Tokens.ofText "a=0xtrue 0 \"\n").words
      "\ta  =\n0X \"true\"\r0 \"\n\" ".toList := by
    refine ⟨[⟨['\t'], ['a'], (.identifier, "a")⟩, ⟨[' ', ' '], ['='], (.equals, "=")⟩,
      ⟨['\n'], ['0', 'X'], (.number, "")⟩, ⟨[' '], "\"true\"".toList, (.text, "true")⟩,
      ⟨['\r'], ['0'], (.invalid, "0")⟩, ⟨[' '], "\"\n\"".toList, (.text, "\n")⟩], [' '], ?_⟩
    refine ⟨rfl, by decide +kernel, ?_, by simp, List.all_eq_true.mp rfl⟩
    simp only [List.forall_mem_cons, List.not_mem_nil, false_imp_iff, implies_true, and_true]
    exact ⟨⟨.plain (by decide) (by decide), rfl⟩, ⟨.plain (by decide) (by decide), rfl, rfl⟩,
      ⟨.number (.inr rfl), rfl⟩, ⟨.quoted, rfl⟩, ⟨.plain (by decide) (by decide), rfl⟩, .quoted, rfl⟩
  obtain ⟨hwords, hconvert⟩ := convert_of_laidOut ⟨.standard, false⟩ _ _ hlaid
  exact ⟨hlaid, hwords, hconvert.trans (by decide +kernel)⟩

end HexConfig
