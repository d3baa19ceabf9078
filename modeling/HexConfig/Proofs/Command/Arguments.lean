import HexConfig.Command.Arguments

/-!
# Command lines that are accepted

A command line that is accepted asks for the version or for help, or has passed the check that its options
make sense together (`Arguments.checked_of_parse`). So where no scenarios are to be run, there is a text to
convert (`Arguments.exists_input_of_parse`).
-/

namespace HexConfig.Command.Arguments

variable {a b : Arguments} {request : Request} {word : String} {words : List String}

/-- The request asks for nothing that needs the other options, or it has passed the check. -/
def Checked (request : Request) : Prop :=
  request = .version ∨ request = .help ∨ ∃ a : Arguments, a.check = .ok request

/-- What a flag asks for at once has passed the check, or needs none. -/
theorem checked_of_raise {flag : FlagOption} (h : a.raise flag = .ok (.inl request)) : Checked request := by
  cases flag with
  | test =>
    simp only [raise] at h
    split at h
    · exact nomatch h
    · exact nomatch h
  | escapeStrings =>
    simp only [raise] at h
    split at h
    · exact nomatch h
    · exact nomatch h
  | verbose => exact nomatch h
  | version =>
    cases h
    exact .inl rfl
  | help =>
    cases h
    exact .inr (.inl rfl)

/-- So has what the letters of a word ask for, each of which is a flag. -/
theorem checked_of_letters {cs : List Char} (h : a.letters word cs = .ok (.inl request)) :
    Checked request := by
  induction cs generalizing a with
  | nil => exact nomatch h
  | cons c cs ih =>
    unfold letters at h
    split at h
    · exact nomatch h
    · next flag hflag =>
      cases hraise : a.raise flag with
      | error e =>
        rw [hraise] at h
        exact nomatch h
      | ok raised =>
        rw [hraise] at h
        cases raised with
        | inl r =>
          obtain rfl : r = request := Sum.inl.inj (Except.ok.inj h)
          exact checked_of_raise hraise
        | inr b => exact ih h

theorem checked_of_parseFrom {pending : Option ValueOption} (h : a.parseFrom pending words = .ok request) :
    Checked request := by
  induction words generalizing a pending with
  | nil =>
    cases pending with
    | none => exact .inr (.inr ⟨a, h⟩)
    | some option => cases h
  | cons word words ih =>
    have hgive {option : ValueOption} {value : String}
        (h : (a.give option value >>= fun b => b.parseFrom none words) = .ok request) : Checked request := by
      cases hgiven : a.give option value with
      | error e =>
        rw [hgiven] at h
        cases h
      | ok b => exact ih (hgiven ▸ h)
    have hflags {raised : Except UsageError (Request ⊕ Arguments)}
        {next : Request ⊕ Arguments → Except UsageError Request}
        (hraised : ∀ r, raised = .ok (.inl r) → Checked r) (h : raised >>= next = .ok request)
        (hleft : ∀ r, next (.inl r) = .ok r) (hright : ∀ b, next (.inr b) = b.parseFrom none words) :
        Checked request := by
      cases raised with
      | error e => cases h
      | ok raised =>
        cases raised with
        | inl r =>
          obtain rfl : r = request := Except.ok.inj ((hleft r).symm.trans h)
          exact hraised r rfl
        | inr b => exact ih ((hright b).symm.trans h)
    cases pending with
    | some option =>
      simp only [parseFrom] at h
      split at h
      · cases h
      · exact hgive h
    | none =>
      simp only [parseFrom] at h
      split at h
      · -- two hyphens alone
        cases words with
        | nil => exact .inr (.inr ⟨a, h⟩)
        | cons _ _ => cases h
      · -- an option by its name
        split at h
        · exact hgive h
        · exact ih h
        · exact hflags (fun _ => checked_of_raise) h (fun _ => rfl) fun _ => rfl
        · cases h
        · cases h
      · -- options by their letters
        exact hflags (fun _ => checked_of_letters) h (fun _ => rfl) fun _ => rfl
      · cases h

/-- A command line that is accepted has passed the check. -/
theorem checked_of_parse (h : parse words = .ok request) : Checked request := checked_of_parseFrom h

/-- Where no scenarios are to be run, there is a text to convert. -/
theorem exists_input_of_parse (h : parse words = .ok (.run a)) (htest : a.test = false) :
    ∃ input, a.input = some input := by
  obtain hversion | hhelp | ⟨b, hcheck⟩ := checked_of_parse h
  · exact nomatch hversion
  · exact nomatch hhelp
  · unfold check at hcheck
    split at hcheck
    · next hb =>
      split at hcheck
      · exact nomatch hcheck
      · cases hcheck
        rw [hb] at htest
        exact nomatch htest
    · split at hcheck
      · exact nomatch hcheck
      · next hinput =>
        cases hcheck
        exact Option.ne_none_iff_exists'.mp fun hnone => hinput (hnone ▸ rfl)

end HexConfig.Command.Arguments
