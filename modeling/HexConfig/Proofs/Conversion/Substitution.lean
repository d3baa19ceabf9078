import HexConfig.Proofs.Conversion
import HexConfig.Proofs.Source.Substitution

/-!
# References are abbreviations

Writing the references of a text out changes nothing about its conversion, whatever the limits are: the
text is read exactly if the text written out is, and to the same document (`compile_writeOut`). A
reference is checked in one step against what was recorded of its constant, and the value written out is
checked container by container and value by value; that both come to the same is what
`compile_of_expand?` says of any text that spells a program, since it depends on the program with its
references written out and on nothing else.
-/

namespace HexConfig

variable {settings : Settings} {source source' : String} {p p' q : Program} {doc : Document}

/-- Two texts whose programs are the same with references written out are converted alike. -/
theorem compile_of_compile (hsize : source.utf8ByteSize < Integer.signedBound)
    (hsize' : source'.utf8ByteSize < Integer.signedBound)
    (hwords : (Tokens.ofText source).words = p.words)
    (hwords' : (Tokens.ofText source').words = p'.words) (hexpand : p.expand? = some q)
    (hexpand' : p'.expand? = some q) (h : compile settings source = .ok doc) :
    compile settings source' = .ok doc := by
  obtain ⟨q', hq', hdoc, hallow⟩ := (compile_eq_ok_iff_allow settings hsize hwords).mp h
  obtain rfl : q = q' := Option.some.inj (hexpand.symm.trans hq')
  exact (compile_eq_ok_iff_allow settings hsize' hwords').mpr ⟨q, hexpand', hdoc, hallow⟩

/-- A text that spells a program in which everything referred to is declared before is read, under any
limits, exactly if the text with its references written out is, and to the same document. -/
theorem compile_writeOut (hwords : (Tokens.ofText source).words = p.words) (hresolved : p.Resolved)
    (hsize : source.utf8ByteSize < Integer.signedBound)
    (hsize' : (p.writeOut source).utf8ByteSize < Integer.signedBound) :
    (∃ q, p.expand? = some q ∧ (Tokens.ofText (p.writeOut source)).words = q.words) ∧
      ∀ (settings : Settings) (doc : Document),
        compile settings source = .ok doc ↔ compile settings (p.writeOut source) = .ok doc := by
  obtain ⟨q, hexpand⟩ := p.exists_expand?_iff.mpr hresolved
  have hwords' : (Tokens.ofText (p.writeOut source)).words = q.words :=
    Program.words_writeOut hwords hexpand
  have hexpand' : q.expand? = some q := Program.expand?_of_expand? hexpand
  refine ⟨⟨q, hexpand, hwords'⟩, ?_⟩
  intro settings doc
  constructor
  · intro h
    exact compile_of_compile hsize hsize' hwords hwords' hexpand hexpand' h
  · intro h
    exact compile_of_compile hsize' hsize hwords' hwords hexpand' hexpand h

/-- An instance, under limits that the text just keeps to. -/
theorem compile_writeOut_spliced :
    (Program.writeOut [.global "A" (.array [.number "1"]), .entry "a" (.reference "A")]
        "global A = #(0x1) a = ?[A]" = "global A = #(0x1) a =  # ( 0x1 ) ") ∧
      compile ⟨⟨1, 2⟩, false⟩ "global A = #(0x1) a =  # ( 0x1 ) " =
        .ok (Document.empty.insert "a" (.sequence [.number 1])) := by
  have htext : Program.writeOut [.global "A" (.array [.number "1"]), .entry "a" (.reference "A")]
      "global A = #(0x1) a = ?[A]" = "global A = #(0x1) a =  # ( 0x1 ) " := by decide +kernel
  have hwords : (Tokens.ofText "global A = #(0x1) a = ?[A]").words =
      Program.words [.global "A" (.array [.number "1"]), .entry "a" (.reference "A")] := by
    decide +kernel
  have hresolved : Program.Resolved [.global "A" (.array [.number "1"]), .entry "a" (.reference "A")] :=
    (Program.exists_expand?_iff _).mp ⟨_, rfl⟩
  have hok : compile ⟨⟨1, 2⟩, false⟩ "global A = #(0x1) a = ?[A]" =
      .ok (Document.empty.insert "a" (.sequence [.number 1])) := by decide +kernel
  obtain ⟨-, hsame⟩ := compile_writeOut hwords hresolved (by decide) (by rw [htext]; decide)
  rw [htext] at hsame
  exact ⟨htext, (hsame _ _).mp hok⟩

end HexConfig
