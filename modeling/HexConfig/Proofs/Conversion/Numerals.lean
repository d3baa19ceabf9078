import HexConfig.Proofs.Conversion.Layout
import HexConfig.Proofs.Reader.Gaps
import HexConfig.Proofs.Reader.Steps
import HexConfig.Proofs.Token.Exchange

/-!
# Numbers from source to output

A number is written with hexadecimal digits, as many as one likes, and printed in decimal. What it is worth
decides: below two to the sixty-third it is read, leading zeros and letter case regardless, and from there on it
is a fault, at its zero and with its digits as they are written. Nothing else in the text has a say, and nothing
else in the text is touched: of a text that is converted with one number in a place, the texts with other numbers
there are converted to one and the same text with gaps, with the decimal digits of the number in each
(`convert_numeral`).
-/

namespace HexConfig

open Reader

variable {settings : Settings} {limits : Limits} {n n₀ : Hex.Numeral} {before after : String}

namespace Reader

theorem State.decode_of_lt (h : n.value < Integer.signedBound) : decode n.digits = .ok n.value := by
  rw [decode, if_neg n.ne_empty]
  exact if_pos h

theorem State.decode_of_le (h : Integer.signedBound ≤ n.value) :
    decode n.digits = .error (.numericOverflow n.digits) := by
  rw [decode, if_neg n.ne_empty]
  exact if_neg (Nat.not_lt_of_le h)

/-- A number that fits is all of a value. -/
theorem denotes_of_lt (h : n.value < Integer.signedBound) : Denotes (.number, n.digits) (.number n.value) :=
  .number (State.decode_of_lt h)

/-- A number that does not fit is at fault where there is room for a value. -/
theorem State.step_of_overflow {s : State} {ctx : Context} {p : Position} (hctx : s.ForValue ctx)
    (hroom : (s.tally.charge 1).nodes ≤ limits.maxNodes) (h : Integer.signedBound ≤ n.value) :
    ∃ s', s.step limits ⟨.number, n.digits, p⟩ = .error (.failed ⟨.numericOverflow n.digits, p⟩ s') := by
  have hcharge : (s.note (.consumed ⟨.number, n.digits, p⟩)).charge limits 1 p = _ :=
    charge_eq_ok_iff.mpr ⟨hroom, rfl⟩
  rw [step_of_forValue hctx (by nofun)]
  refine ⟨charged (s.note (.consumed ⟨.number, n.digits, p⟩)) 1, ?_⟩
  show State.number limits _ ctx _ = _
  unfold number
  rw [hcharge]
  simp only [decode_of_le h]
  rfl

/-- Where a number is taken there is room for a value. -/
theorem State.forValue_of_number {s s' : State} {t : Token} (hkind : t.kind = .number)
    (h : s.step limits t = .ok s') :
    ∃ ctx, s.ForValue ctx ∧ (s.tally.charge 1).nodes ≤ limits.maxNodes := by
  cases advance_of_step h with
  | number hctx _ hnodes => exact ⟨_, hctx, hnodes⟩
  | _ => simp_all

end Reader

/-! ## One number -/

/-- The tokens of one entry with a number for its value. -/
theorem ofText_entry (n : Hex.Numeral) {blanks : String} (hblanks : ∀ b ∈ blanks.toList, isBlank b = true) :
    (Tokens.ofText ("k = " ++ n.text ++ blanks)).list =
      [⟨.identifier, "k", ⟨1, 1⟩⟩, ⟨.equals, "=", ⟨1, 3⟩⟩, ⟨.number, n.digits, ⟨1, 5⟩⟩] := by
  have hspace : Ends isWordChar (' ' :: '=' :: ' ' :: (n.text.toList ++ blanks.toList)) :=
    ends_cons (by decide) _
  have hends : Ends Hex.isDigit blanks.toList := by
    intro d hd
    exact isDigit_of_isBlank (hblanks d (List.mem_of_mem_head? hd))
  have hsingle : ∀ b ∈ [' '], isBlank b = true := List.all_eq_true.mp rfl
  have htiled : Tiled [⟨[], ['k'], (.identifier, "k")⟩, ⟨[' '], ['='], (.equals, "=")⟩,
      ⟨[' '], n.text.toList, (.number, n.digits)⟩] blanks.toList :=
    ⟨nofun, .name rfl nofun (by decide) hspace, hsingle, .sign rfl nofun, hsingle, n.covers hends, hblanks⟩
  have htogether : together [⟨[], ['k'], (.identifier, "k")⟩, ⟨[' '], ['='], (.equals, "=")⟩,
      ⟨[' '], n.text.toList, (.number, n.digits)⟩] blanks.toList = ("k = " ++ n.text ++ blanks).toList := by
    simp [together, Tile.chars]
  rw [Tokens.ofText_eq htogether htiled]
  rfl

/-- What is printed of one entry with a number for its value. -/
theorem print_entry (q : Quoting) (m : Nat) : (Document.empty.insert "k" (.number m)).print q =
    "\x7b\n  \"k\": " ++ String.ofList (Decimal.digits m) ++ "\n\x7d" := by
  have hname : q.quote "k" = "\"k\"".toList := by cases q <;> decide
  have hlayout : (Document.empty.insert "k" (.number m)).toValue.layout q 0 =
      '\x7b' :: '\n' :: (margin 1 ++ (q.quote "k" ++ ':' :: ' ' :: Decimal.digits m) ++
        '\n' :: (margin 0 ++ ['\x7d'])) := rfl
  rw [Document.print, Value.print_eq, hlayout, hname, ← String.toList_inj]
  simp [margin, List.replicate]

/-- One entry with a number for its value, with blanks behind it or nothing. -/
theorem convert_entry (hroom : 1 ≤ settings.maxNodes) (n : Hex.Numeral) {blanks : String}
    (hblanks : ∀ b ∈ blanks.toList, isBlank b = true) :
    (n.value < Integer.signedBound → convert settings ("k = " ++ n.text ++ blanks) =
      .ok ("\x7b\n  \"k\": " ++ String.ofList (Decimal.digits n.value) ++ "\n\x7d")) ∧
    (Integer.signedBound ≤ n.value → convert settings ("k = " ++ n.text ++ blanks) =
      .error ⟨.numericOverflow n.digits, ⟨1, 5⟩⟩) := by
  have htokens := ofText_entry n hblanks
  let s : State := ((State.start [] .zero).after [⟨.identifier, "k", ⟨1, 1⟩⟩, ⟨.equals, "=", ⟨1, 3⟩⟩] .zero).await
    (.value ⟨.entry "k", []⟩)
  have hhead : (State.start [] .zero).feed settings.toLimits
      [⟨.identifier, "k", ⟨1, 1⟩⟩, ⟨.equals, "=", ⟨1, 3⟩⟩] = .ok s := rfl
  have hctx : s.ForValue ⟨.entry "k", []⟩ := .inl rfl
  constructor
  · intro h
    have hdigits := State.decode_eq_ok_iff.mp (State.decode_of_lt h)
    have hnumber := (State.step_number_eq_ok_iff (t := ⟨.number, n.digits, ⟨1, 5⟩⟩) hctx rfl).mpr
      ⟨_, hdigits, hroom, rfl⟩
    have hfeed : (State.start [] .zero).feed settings.toLimits (Tokens.ofText ("k = " ++ n.text ++ blanks)).list =
        .ok ((s.after [⟨.number, n.digits, ⟨1, 5⟩⟩] (s.tally.charge 1)).deliver (.number n.value)
          ⟨.entry "k", []⟩) := by
      rw [htokens]
      exact (State.feed_append_of_ok hhead).trans (State.feed_cons_of_ok hnumber)
    rw [convert_of_compile (compile_of_feed_ok hfeed rfl)]
    exact congrArg Except.ok (print_entry settings.quoting n.value)
  · intro h
    obtain ⟨s', hfailed⟩ := State.step_of_overflow (p := ⟨1, 5⟩) hctx hroom h
    apply convert_eq_error_iff.mpr
    have herror : (State.start [] .zero).feed settings.toLimits (Tokens.ofText ("k = " ++ n.text ++ blanks)).list =
        .error ⟨⟨.numericOverflow n.digits, ⟨1, 5⟩⟩, s', []⟩ := by
      rw [htokens]
      exact (State.feed_append_of_ok hhead).trans (State.feed_cons_of_failed hfailed)
    exact compile_of_feed_error herror

/-! ## A number in a text -/

/-- Between two texts that are read with one number, a number that does not fit is at fault. -/
theorem compile_overflow {doc₀ : Document}
    (h₀ : ⟨.number, n₀.digits, .behind before.toList⟩ ∈ (Tokens.ofText (before ++ n₀.text ++ after)).list)
    (hread : compile settings (before ++ n₀.text ++ after) = .ok doc₀) (h : Integer.signedBound ≤ n.value) :
    compile settings (before ++ n.text ++ after) =
      .error ⟨.numericOverflow n.digits, .behind before.toList⟩ := by
  obtain ⟨hends, used, ws, hexchange⟩ := Hex.Numeral.exists_exchange h₀
  obtain ⟨rest₀, _, htokens₀, -⟩ := hexchange (n₀.covers hends) (n₀.meets n₀)
  obtain ⟨rest, _, htokens, -⟩ := hexchange (n.covers hends) (n₀.meets n)
  obtain ⟨s', hfeed, -⟩ := feed_of_compile_ok hread
  rw [htokens₀] at hfeed
  obtain ⟨s, hused, hfeed⟩ := State.feed_append_eq_ok_iff.mp hfeed
  obtain ⟨s₁, hstep, -⟩ := State.feed_cons_eq_ok_iff.mp hfeed
  obtain ⟨ctx, hctx, hroom⟩ := State.forValue_of_number rfl hstep
  obtain ⟨s₂, hfailed⟩ := State.step_of_overflow (p := .behind before.toList) hctx hroom h
  have herror : (State.start [] .zero).feed settings.toLimits (Tokens.ofText (before ++ n.text ++ after)).list =
      .error ⟨⟨.numericOverflow n.digits, .behind before.toList⟩, s₂, rest⟩ := by
    rw [htokens, State.feed_append_of_ok hused]
    exact State.feed_cons_of_failed hfailed
  exact compile_of_feed_error herror

/-- Between two texts that are read with one number, whatever is all of a value in one word is read, and the
documents that come of it differ in nothing but its value. -/
theorem exists_compile_fill {doc₀ : Document}
    (h₀ : ⟨.number, n₀.digits, .behind before.toList⟩ ∈ (Tokens.ofText (before ++ n₀.text ++ after)).list)
    (hread : compile settings (before ++ n₀.text ++ after) = .ok doc₀) :
    ∃ (gap : String) (doc : Document), ∀ {w : Word} {v : Value} {lexeme : String}, Denotes w v →
      w.Covers lexeme.toList after.toList → Meets n₀.text.toList lexeme.toList →
      compile settings (before ++ lexeme ++ after) = .ok (doc.fill gap v) := by
  obtain ⟨hends, used, ws, hexchange⟩ := Hex.Numeral.exists_exchange h₀
  have hfits : Denotes (.number, n₀.digits) (.number n₀.value) := by
    apply denotes_of_lt
    by_contra hle
    have herror := compile_overflow h₀ hread (Nat.le_of_not_lt hle)
    rw [hread] at herror
    exact nomatch herror
  -- Behind the new word the tokens are at other places, but places have no say.
  have hplaces {w : Word} {lexeme : String} (hcovers : w.Covers lexeme.toList after.toList)
      (hmeets : Meets n₀.text.toList lexeme.toList) (doc : Document) :
      compile settings (before ++ lexeme ++ after) = .ok doc ↔
        (State.start [] .zero).conclude settings.toLimits
          ⟨used.map (Token.relocate fun _ => .start) ++
            ⟨w.1, w.2, .start⟩ :: ws.map fun w => ⟨w.1, w.2, .start⟩, .start⟩ = .ok doc := by
    obtain ⟨rest, finish, htokens, hrest⟩ := hexchange hcovers hmeets
    have hconclude := conclude_ofText_relocate (fun _ => .start) settings (before ++ lexeme ++ after)
    have hrow : (Tokens.ofText (before ++ lexeme ++ after)).relocate (fun _ => .start) =
        ⟨used.map (Token.relocate fun _ => .start) ++
          ⟨w.1, w.2, .start⟩ :: ws.map fun w => ⟨w.1, w.2, .start⟩, .start⟩ := by
      rw [htokens, Tokens.relocate, List.map_append, List.map_cons, ← hrest, List.map_map]
      rfl
    rw [hrow] at hconclude
    rw [hconclude]
    cases compile settings (before ++ lexeme ++ after) <;> simp [Except.mapError]
  have hread₀ := (hplaces (n₀.covers hends) (n₀.meets n₀) doc₀).mp hread
  obtain ⟨gap, doc, hfill⟩ := exists_conclude_fill hfits hread₀
  exact ⟨gap, doc, fun hdenotes hcovers hmeets => (hplaces hcovers hmeets _).mpr (hfill hdenotes)⟩

/-! ## All numbers, everywhere -/

/-- A number that fits is printed in decimal, and one that does not is a fault at its zero. This holds of an entry
by itself, and of every place of a text where a number stands, if the text is converted with some number there:
all numbers that fit are printed into the gaps of one text, those in which a string is printed that is quoted in
the same place. What is printed of a number is worth the number. -/
theorem convert_numeral (settings : Settings) :
    (1 ≤ settings.maxNodes → ∀ (n : Hex.Numeral) (blanks : String), (∀ b ∈ blanks.toList, isBlank b = true) →
      (n.value < Integer.signedBound → convert settings ("k = " ++ n.text ++ blanks) =
        .ok ("\x7b\n  \"k\": " ++ String.ofList (Decimal.digits n.value) ++ "\n\x7d")) ∧
      (Integer.signedBound ≤ n.value → convert settings ("k = " ++ n.text ++ blanks) =
        .error ⟨.numericOverflow n.digits, ⟨1, 5⟩⟩)) ∧
    (∀ (before after : String) (n₀ : Hex.Numeral) (text₀ : String),
      ⟨.number, n₀.digits, .behind before.toList⟩ ∈ (Tokens.ofText (before ++ n₀.text ++ after)).list →
      convert settings (before ++ n₀.text ++ after) = .ok text₀ →
      (∀ n : Hex.Numeral, Integer.signedBound ≤ n.value → convert settings (before ++ n.text ++ after) =
        .error ⟨.numericOverflow n.digits, .behind before.toList⟩) ∧
      ∃ stencil : Stencil,
        (∀ n : Hex.Numeral, n.value < Integer.signedBound → convert settings (before ++ n.text ++ after) =
          .ok (String.ofList (stencil.fill (Decimal.digits n.value)))) ∧
        ∀ s : String, '"' ∉ s.toList → convert settings (before ++ ("\"" ++ s ++ "\"") ++ after) =
          .ok (String.ofList (stencil.fill ((Value.ofString s).layout settings.quoting 0)))) ∧
    ∀ n : Hex.Numeral, Decimal.value (Decimal.digits n.value) = n.value := by
  refine ⟨fun hroom n blanks hblanks => convert_entry hroom n hblanks, ?_, fun n => Decimal.value_digits n.value⟩
  intro before after n₀ text₀ h₀ hconvert
  obtain ⟨doc₀, hread, -⟩ := convert_eq_ok_iff.mp hconvert
  obtain ⟨hends, -⟩ := Hex.Numeral.exists_exchange h₀
  obtain ⟨gap, doc, hfill⟩ := exists_compile_fill h₀ hread
  obtain ⟨stencil, hstencil⟩ := doc.exists_stencil settings.quoting gap
  refine ⟨fun n hlarge => convert_eq_error_iff.mpr (compile_overflow h₀ hread hlarge), stencil, ?_, ?_⟩
  · intro n hsmall
    rw [convert_of_compile (hfill (denotes_of_lt hsmall) (n.covers hends) (n₀.meets n)),
      hstencil _ (.number n.value)]
    rfl
  · intro s hs
    have htext : ("\"" ++ s ++ "\"").toList = '"' :: (s.toList ++ ['"']) := by simp
    have hcovers : Word.Covers (.text, s) ("\"" ++ s ++ "\"").toList after.toList := by
      rw [htext]
      exact covers_quoted_of_not_mem hs _
    have hmeets : Meets n₀.text.toList ("\"" ++ s ++ "\"").toList := by
      rw [htext]
      exact .inr rfl
    rw [convert_of_compile (hfill (.string s) hcovers hmeets), hstencil _ (Value.scalar_ofString s)]

/-- An instance: the greatest number that fits, behind leading zeros, and the next in an array that is a constant,
where the limits have room for the two references to it. -/
theorem convert_numeral_shared :
    convert ⟨⟨1, 4⟩, true⟩ ("k = " ++ "0X007fffffffffffffff" ++ "\n") =
      .ok "\x7b\n  \"k\": 9223372036854775807\n\x7d" ∧
    convert ⟨⟨1, 4⟩, true⟩ ("global N = #(" ++ "0x1" ++ ") k = ?[N] l = ?[N]") =
      .ok "\x7b\n  \"k\": [1],\n  \"l\": [1]\n\x7d" ∧
    convert ⟨⟨1, 4⟩, true⟩ ("global N = #(" ++ "0x8000000000000000" ++ ") k = ?[N] l = ?[N]") =
      .error ⟨.numericOverflow "8000000000000000", ⟨1, 14⟩⟩ := by
  let one : Hex.Numeral := ⟨'x', "1", .inl rfl, by decide, List.all_eq_true.mp rfl⟩
  let greatest : Hex.Numeral := ⟨'X', "007fffffffffffffff", .inr rfl, by decide, List.all_eq_true.mp rfl⟩
  let large : Hex.Numeral := ⟨'x', "8000000000000000", .inl rfl, by decide, List.all_eq_true.mp rfl⟩
  have hone : one.text = "0x1" := by decide
  have hgreatest : greatest.text = "0X007fffffffffffffff" := by decide
  have hlarge : large.text = "0x8000000000000000" := by decide
  obtain ⟨hentry, hplace, -⟩ := convert_numeral ⟨⟨1, 4⟩, true⟩
  obtain ⟨hfits, -⟩ := hentry (by decide) greatest "\n" (List.all_eq_true.mp rfl)
  have hentry := hfits (by decide)
  rw [hgreatest] at hentry
  have hread : convert ⟨⟨1, 4⟩, true⟩ ("global N = #(" ++ "0x1" ++ ") k = ?[N] l = ?[N]") =
      .ok "\x7b\n  \"k\": [1],\n  \"l\": [1]\n\x7d" := by decide +kernel
  obtain ⟨hoverflow, -⟩ := hplace "global N = #(" ") k = ?[N] l = ?[N]" one _
    (by rw [hone]; decide +kernel) (by rw [hone]; exact hread)
  have hfault := hoverflow large (by decide)
  rw [hlarge] at hfault
  exact ⟨hentry.trans (by decide +kernel), hread, hfault.trans (by decide +kernel)⟩

end HexConfig
