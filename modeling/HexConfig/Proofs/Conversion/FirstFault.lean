import HexConfig.Proofs.Conversion.SyntaxFaults
import HexConfig.Proofs.Reader.Faults

/-!
# The first value at fault

A text that is stopped by something else than the grammar is stopped at the first value in it that does not
pass: what is told is wrong with that value by all that is written before it, the place told of is that of one
of its tokens, and nothing is wrong with any value that starts before (`first_fault_of_compile`). Whether a
value passes does not depend on how it is read: it is said by what is written up to it, with references written
out (`Place.Offends`).
-/

namespace HexConfig

open Reader

variable {settings : Settings} {source : String} {d : Diagnostic}

/-- A row that is cut in two ways, at the earlier place and at the later. -/
theorem exists_mid {used used' rest row : List Token} {t : Token}
    (h : used' ++ row = used ++ t :: rest) (hlt : row.length < (t :: rest).length) :
    ∃ mid, used' = used ++ t :: mid ∧ rest = mid ++ row := by
  rcases List.append_eq_append_iff.mp h with ⟨mid, -, hrow⟩ | ⟨mid, hused, hrow⟩
  · rw [hrow, List.length_append] at hlt
    omega
  · cases mid with
    | nil =>
      rw [List.nil_append] at hrow
      rw [hrow] at hlt
      exact absurd hlt (Nat.lt_irrefl _)
    | cons t' mid =>
      obtain ⟨rfl, rfl⟩ := List.cons.inj hrow
      exact ⟨mid, hused, rfl⟩

/-- Where the machine stands before a value of a text, the value starts at a place. -/
theorem exists_starts {limits : Limits} {used rest : List Token} {t : Token} {s : State}
    (hlist : (Tokens.ofText source).list = used ++ t :: rest)
    (hfeed : (State.start [] .zero).feed limits used = .ok s) (hadmits : s.Admits t.kind) :
    ∃ pl : Place, pl.Starts (Tokens.ofText source).list (t :: rest) := by
  have hproper : ∀ t ∈ used, Word.Proper t.word := by
    intro t' ht'
    exact Tokens.proper_of_mem (hlist ▸ List.mem_append_left _ ht')
  obtain ⟨pl, hwords, hkind⟩ := State.exists_place hfeed hproper hadmits
  exact ⟨pl, used, t, rest, hlist, hwords, rfl, hkind⟩

/-- A text that is stopped by something else than the grammar is stopped while a value is begun. -/
theorem failed_of_compile (h : compile settings source = .error d) (hd : ¬ d.IsSyntax) :
    ∃ used t rest s s', (Tokens.ofText source).list = used ++ t :: rest ∧
      (State.start [] .zero).feed settings.toLimits used = .ok s ∧
      s.step settings.toLimits t = .error (.failed d s') := by
  rw [compile_eq] at h
  split at h
  · next stop hfeed =>
    cases h
    obtain ⟨used, t, rest, s, hlist, hused, ⟨expected, -, rfl⟩ | ⟨hstep, -⟩⟩ := State.stop_of_feed hfeed
    · exact absurd ⟨expected, t, rfl⟩ hd
    · exact ⟨used, t, rest, s, stop.state, hlist, hused, hstep⟩
  · next s hfeed =>
    split at h
    · next hfinish =>
      obtain ⟨expected, -, rfl⟩ := Option.map_eq_some_iff.mp hfinish
      cases h
      exact absurd ⟨expected, _, rfl⟩ hd
    · exact nomatch h

/-- A fault that is none of the grammar is that of the first value that does not pass. The place told of is
that of a token of the text; what is told is wrong with the value that starts with `row`, by what is written
before it; and each token before that a value starts with does start a value, which passes. -/
theorem first_fault_of_compile (h : compile settings source = .error d) (hd : ¬ d.IsSyntax) :
    (∃ t ∈ (Tokens.ofText source).list, t.position = d.position) ∧
    ∃ row : List Token,
      (∃ pl : Place, pl.Starts (Tokens.ofText source).list row) ∧
      (∀ pl : Place, pl.Starts (Tokens.ofText source).list row → pl.Offends settings.toLimits row d) ∧
      (∀ (pl : Place) (row' : List Token), pl.Starts (Tokens.ofText source).list row' →
        row.length < row'.length → pl.Passes settings.toLimits row') ∧
      ∀ used t rest, (Tokens.ofText source).list = used ++ t :: rest → row.length < (t :: rest).length →
        t.kind.BeginsValue → ∃ pl : Place, pl.Starts (Tokens.ofText source).list (t :: rest) := by
  obtain ⟨used₁, t₁, rest₁, s₁, s', hlist, hfeed₁, hstep⟩ := failed_of_compile h hd
  obtain ⟨used₀, t₀, rest₀, s₀, hsplit, hfeed₀, hadmits, hoffends⟩ :=
    State.exists_start hfeed₁ hstep rest₁
  rw [hsplit] at hlist
  obtain ⟨pl₀, hstarts₀⟩ := exists_starts hlist hfeed₀ hadmits
  have hfault : ∀ pl : Place, pl.Starts (Tokens.ofText source).list (t₀ :: rest₀) →
      pl.Offends settings.toLimits (t₀ :: rest₀) d := by
    rintro pl ⟨used, _, _, hlist', hwords, -, -⟩
    obtain rfl : used₀ = used := List.append_cancel_right (hlist.symm.trans hlist')
    obtain ⟨known, count, hat⟩ := State.exists_at_of_feed pl hwords hfeed₀
    exact hoffends pl known count hat
  have hbegins₀ : t₀.kind.BeginsValue := hstarts₀.beginsValue
  -- what is before the value at fault was taken
  have htaken {used rest : List Token} {t : Token}
      (hearlier : (Tokens.ofText source).list = used ++ t :: rest)
      (hlt : (t₀ :: rest₀).length < (t :: rest).length) :
      ∃ mid s, rest = mid ++ t₀ :: rest₀ ∧ (State.start [] .zero).feed settings.toLimits used = .ok s ∧
        s.feed settings.toLimits (t :: mid) = .ok s₀ := by
    obtain ⟨mid, rfl, hrest⟩ := exists_mid (hlist.symm.trans hearlier) hlt
    obtain ⟨s, hused, hmid⟩ := State.feed_append_eq_ok_iff.mp hfeed₀
    exact ⟨mid, s, hrest, hused, hmid⟩
  refine ⟨?_, t₀ :: rest₀, ⟨pl₀, hstarts₀⟩, hfault, ?_, ?_⟩
  · obtain ⟨t, ht, hposition⟩ := (hfault pl₀ hstarts₀).exists_mem
    exact ⟨t, hlist ▸ List.mem_append_right _ ht, hposition⟩
  · rintro pl _ ⟨used, t, rest, hearlier, hwords, rfl, hkind⟩ hlt
    obtain ⟨mid, s, rfl, hused, hmid⟩ := htaken hearlier hlt
    obtain ⟨known, count, hat⟩ := State.exists_at_of_feed pl hwords hused
    refine hat.passes_of_feed hkind.beginsValue ?_ hmid
    intro t' ht'
    obtain rfl : t₀ = t' := Option.some.inj ht'
    exact hbegins₀
  · intro used t rest hearlier hlt hbegins
    obtain ⟨mid, s, -, hused, hmid⟩ := htaken hearlier hlt
    obtain ⟨_, htstep, -⟩ := State.feed_cons_eq_ok_iff.mp hmid
    exact exists_starts hearlier hused (State.admits_of_step htstep hbegins)

/-- An instance: two values of an array in a constant do not count by themselves, but twice where the constant
is referred to, and the second reference is one value too much. -/
theorem first_fault_of_compile_spliced :
    compile ⟨⟨3, 6⟩, false⟩ "global A = #(0x1 0x2)\na = ?[A]\nb = #(?[A])" =
      .error ⟨.tooManyNodes 6, ⟨3, 7⟩⟩ ∧
    ∃ row : List Token, ∀ pl : Place,
      pl.Starts (Tokens.ofText "global A = #(0x1 0x2)\na = ?[A]\nb = #(?[A])").list row →
        pl.Offends ⟨3, 6⟩ row ⟨.tooManyNodes 6, ⟨3, 7⟩⟩ := by
  have hcompile : compile ⟨⟨3, 6⟩, false⟩ "global A = #(0x1 0x2)\na = ?[A]\nb = #(?[A])" =
      .error ⟨.tooManyNodes 6, ⟨3, 7⟩⟩ := by decide +kernel
  have hsyntax : ¬ Diagnostic.IsSyntax ⟨.tooManyNodes 6, ⟨3, 7⟩⟩ := by
    rintro ⟨expected, t, hd⟩
    exact nomatch hd
  obtain ⟨-, row, -, hoffends, -⟩ := first_fault_of_compile hcompile hsyntax
  exact ⟨hcompile, row, hoffends⟩

end HexConfig
