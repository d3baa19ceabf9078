import HexConfig.Layout
import HexConfig.Proofs.Json.Decoder

/-!
# What is printed is JSON

The layout of a value is a row of characters that the grammar derives for the value's structured view
(`isText_print`), whatever the value holds if strings are encoded, and if no string in it holds a quote
where they are copied as they are. The indentation is nothing but blanks between marks.

So what is printed stands for the structured view and for nothing else (`isText_print_iff`), the reader
of JSON texts gives it back, and two values printed alike are one value (`print_inj`). With encoded
strings all of this holds of every value (`print_encoded_isText_iff`).
-/

namespace HexConfig

/-! ## Numbers -/

namespace Decimal

theorem isDigit_ofDigit {n : Nat} (h : n < 10) : (ofDigit n).isDigit = true := by
  match n, h with
  | 0, _ | 1, _ | 2, _ | 3, _ | 4, _ | 5, _ | 6, _ | 7, _ | 8, _ | 9, _ => rfl

theorem ofDigit_ne_zero {n : Nat} (h : n < 10) (hpos : 0 < n) : ofDigit n ≠ '0' := by
  intro hzero
  have hdigit := digit_ofDigit h
  rw [hzero] at hdigit
  exact Nat.ne_of_lt hpos hdigit

/-- The digits of a number are digits, and there is at least one. -/
theorem digits_digits (n : Nat) : Json.Digits (digits n) := by
  induction n using digits.induct with
  | case1 n h =>
    rw [digits, if_pos h]
    exact ⟨List.cons_ne_nil _ _, List.forall_mem_singleton.mpr (isDigit_ofDigit h)⟩
  | case2 n h ih =>
    rw [digits, if_neg h]
    have hlast : (ofDigit (n % 10)).isDigit = true := isDigit_ofDigit (Nat.mod_lt n (by decide))
    exact ⟨List.append_ne_nil_of_left_ne_nil ih.1 _,
      List.forall_mem_append.mpr ⟨ih.2, List.forall_mem_singleton.mpr hlast⟩⟩

/-- Only zero is written with a leading zero. -/
theorem head?_digits_ne {n : Nat} (hpos : 0 < n) : (digits n).head? ≠ some '0' := by
  induction n using digits.induct with
  | case1 n h =>
    rw [digits, if_pos h]
    exact fun hhead => ofDigit_ne_zero h hpos (Option.some.inj hhead)
  | case2 n h ih =>
    rw [digits, if_neg h, List.head?_append_of_ne_nil _ (digits_digits (n / 10)).1]
    exact ih (by omega)

/-- The digits of a number are the whole part of one: no zero in front. -/
theorem whole_digits (n : Nat) : Json.Whole (digits n) := by
  refine ⟨digits_digits n, fun hhead => ?_⟩
  obtain rfl : n = 0 := Nat.eq_zero_of_not_pos fun hpos => head?_digits_ne hpos hhead
  rw [digits]
  rfl

/-- The digits of a number are the number behind the sign. -/
theorem magnitude_digits (sign : Int) (n : Nat) :
    Json.Magnitude sign (digits n) (.number (sign * n) 0) := by
  have h : Json.Magnitude sign (digits n ++ ([] ++ [])) _ := .parts (whole_digits n) .absent .absent
  simpa [value_digits] using h

/-- A whole number is written as a JSON number. -/
theorem numeral_ofInt (n : Int) : Json.Numeral (ofInt n) (.number n 0) := by
  cases n with
  | ofNat n =>
    have h := Json.Numeral.positive (magnitude_digits 1 n)
    rw [Int.one_mul] at h
    exact h
  | negSucc n =>
    have h := Json.Numeral.negative (magnitude_digits (-1) (n + 1))
    rw [Int.neg_one_mul] at h
    exact h

end Decimal

/-! ## Strings -/

namespace Quoting

/-- A text that a reader of the quoting finds the end of. -/
def Carries : Quoting → String → Prop
  | encoded, _ => True
  | verbatim, s => '"' ∉ s.toList

/-- The two digits of a control character are the character's number. -/
theorem unit?_control : ∀ n < 32, Json.unit? '0' '0' (Hex.ofDigit (n / 16)) (Hex.ofDigit (n % 16)) =
    some n := by decide

/-- What a character of a text is encoded as: an escape of one letter, one of four digits, or
itself. -/
theorem encodeChar_cases (c : Char) :
    (∃ e, Json.escaped? e = some c ∧ encodeChar c = ['\\', e]) ∨
      (c.toNat < 0x20 ∧ encodeChar c =
        ['\\', 'u', '0', '0', Hex.ofDigit (c.toNat / 16), Hex.ofDigit (c.toNat % 16)]) ∨
      (c ≠ '"' ∧ c ≠ '\\' ∧ 0x20 ≤ c.toNat ∧ encodeChar c = [c]) := by
  by_cases hshort : c = '"' ∨ c = '\\' ∨ c = '\x08' ∨ c = '\x0c' ∨ c = '\n' ∨ c = '\r' ∨ c = '\t'
  · rcases hshort with rfl | rfl | rfl | rfl | rfl | rfl | rfl <;> exact .inl ⟨_, rfl, rfl⟩
  · simp only [not_or] at hshort
    by_cases hcontrol : c.toNat < 0x20
    · exact .inr (.inl ⟨hcontrol, by simp [encodeChar, hshort, hcontrol]⟩)
    · exact .inr (.inr ⟨hshort.1, hshort.2.1, Nat.le_of_not_lt hcontrol,
        by simp [encodeChar, hshort, hcontrol]⟩)

/-- One character of a text, encoded. -/
theorem encodes_encodeChar (c : Char) {cs s : List Char} (h : Json.Encodes cs s) :
    Json.Encodes (encodeChar c ++ cs) (c :: s) := by
  rcases encodeChar_cases c with ⟨e, he, hc⟩ | ⟨hcontrol, hc⟩ | ⟨hquote, hback, hplain, hc⟩
  · rw [hc]
    exact .letter he h
  · have hhigh : Json.isHighSurrogate c.toNat = false := by
      simp only [Json.isHighSurrogate, Bool.and_eq_false_iff, decide_eq_false_iff_not]
      omega
    have hlow : Json.isLowSurrogate c.toNat = false := by
      simp only [Json.isLowSurrogate, Bool.and_eq_false_iff, decide_eq_false_iff_not]
      omega
    have hunit := Json.Encodes.unit (unit?_control c.toNat hcontrol) hhigh hlow h
    rw [Char.ofNat_toNat] at hunit
    rw [hc]
    exact hunit
  · rw [hc]
    exact .plain hquote hback hplain h

/-- What a row of characters is encoded as encodes it. -/
theorem encodes_flatMap (cs : List Char) : Json.Encodes (cs.flatMap encodeChar) cs := by
  induction cs with
  | nil => exact .nil
  | cons c cs ih => exact encodes_encodeChar c ih

/-- What stands between the quotes stands for the text. -/
theorem inside_inside {q : Quoting} {s : String} (h : q.Carries s) :
    Json.Inside q (q.inside s.toList) s.toList := by
  cases q with
  | encoded => exact encodes_flatMap s.toList
  | verbatim => exact ⟨rfl, h⟩

end Quoting

/-! ## Values -/

namespace Value

mutual

/-- Every string in a value: its texts, and the names in its mappings. -/
def strings : Value → List String
  | .number _ => []
  | .text s => [s]
  | .boolean _ => []
  | .sequence items => stringsOfItems items
  | .mapping entries => stringsOfEntries entries
termination_by structural v => v

def stringsOfItems : List Value → List String
  | [] => []
  | v :: vs => strings v ++ stringsOfItems vs
termination_by structural vs => vs

def stringsOfEntries : List (String × Value) → List String
  | [] => []
  | (k, v) :: es => k :: (strings v ++ stringsOfEntries es)
termination_by structural es => es

end

end Value

/-- Every string in a document. -/
def Document.strings (d : Document) : List String := d.toValue.strings

/-- A margin is blank. -/
theorem blank_margin (indent : Nat) : Json.Blank (margin indent) := by
  intro b hb
  rw [List.eq_of_mem_replicate hb]
  rfl

theorem blank_newline_margin (indent : Nat) : Json.Blank ('\n' :: margin indent) :=
  List.forall_mem_cons.mpr ⟨rfl, blank_margin indent⟩

namespace Value

variable {q : Quoting}

/-- A name with its value, on a line of its own. -/
theorem derives_entry {k : String} {j : Json} {bs cs ds : List Char} (hbs : Json.Blank bs)
    (hk : q.Carries k) (h : Json.Derives q (.value j) cs) (hds : Json.Blank ds) :
    Json.Derives q (.member (k, j)) (bs ++ (q.quote k ++ ':' :: ' ' :: (cs ++ ds))) := by
  have hmember := Json.Derives.member hbs (Quoting.inside_inside hk) Json.blank_nil
    (.spaced Json.blank_space h hds)
  rw [String.ofList_toList] at hmember
  simpa [Quoting.quote] using hmember

mutual

/-- The layout of a value is derived for its structured view. -/
theorem derives_layout : ∀ (v : Value) (indent : Nat), (∀ s ∈ v.strings, q.Carries s) →
    Json.Derives q (.value v.toJson) (v.layout q indent)
  | .number n, _, _ => .number (Decimal.numeral_ofInt n)
  | .boolean true, _, _ => .yes
  | .boolean false, _, _ => .no
  | .text s, _, h => by
    have hstring := Json.Derives.string (Quoting.inside_inside (h s List.mem_cons_self))
    rwa [String.ofList_toList] at hstring
  | .sequence [], _, _ => .emptyArray Json.blank_nil
  | .sequence (v :: vs), _, h =>
    .array (derives_layoutItems (v :: vs) (List.cons_ne_nil v vs) Json.blank_nil h)
  | .mapping [], _, _ => .emptyObject Json.blank_nil
  | .mapping (e :: es), indent, h => by
    have hmembers := derives_layoutEntries (e :: es) (indent + 1) (List.cons_ne_nil e es)
      Json.blank_newline (blank_newline_margin indent) h
    have hobject := Json.Derives.object hmembers
    simpa [layout, toJson] using hobject

/-- Items on one line, with blanks in front. -/
theorem derives_layoutItems : ∀ (vs : List Value) {bs : List Char}, vs ≠ [] → Json.Blank bs →
    (∀ s ∈ stringsOfItems vs, q.Carries s) →
    Json.Derives q (.items (toJsonItems vs)) (bs ++ layoutItems q vs)
  | [], _, hne, _, _ => absurd rfl hne
  | [v], bs, _, hbs, h => by
    have hv := derives_layout v 0 fun s hs => h s (List.mem_append_left _ hs)
    have hitem := Json.Derives.spaced hbs hv Json.blank_nil
    rw [List.append_nil] at hitem
    exact .lastItem hitem
  | v :: w :: vs, bs, _, hbs, h => by
    have hv := derives_layout v 0 fun s hs => h s (List.mem_append_left _ hs)
    have hmore := derives_layoutItems (w :: vs) (List.cons_ne_nil w vs) Json.blank_space
      fun s hs => h s (List.mem_append_right _ hs)
    have hitems := Json.Derives.moreItems (.spaced hbs hv Json.blank_nil) hmore
    simpa [layoutItems, toJsonItems] using hitems

/-- Entries on lines of their own, with blanks in front and behind. -/
theorem derives_layoutEntries : ∀ (es : List (String × Value)) (indent : Nat) {bs ds : List Char},
    es ≠ [] → Json.Blank bs → Json.Blank ds → (∀ s ∈ stringsOfEntries es, q.Carries s) →
    Json.Derives q (.members (toJsonMembers es)) (bs ++ (layoutEntries q indent es ++ ds))
  | [], _, _, _, hne, _, _, _ => absurd rfl hne
  | [(k, v)], indent, bs, ds, _, hbs, hds, h => by
    obtain ⟨hk, hrest⟩ := List.forall_mem_cons.mp h
    have hv := derives_layout v indent fun s hs => hrest s (List.mem_append_left _ hs)
    have hentry := derives_entry (hbs.append (blank_margin indent)) hk hv hds
    have hmembers := Json.Derives.lastMember hentry
    simpa [layoutEntries, toJsonMembers] using hmembers
  | (k, v) :: e :: es, indent, bs, ds, _, hbs, hds, h => by
    obtain ⟨hk, hrest⟩ := List.forall_mem_cons.mp h
    have hv := derives_layout v indent fun s hs => hrest s (List.mem_append_left _ hs)
    have hmore := derives_layoutEntries (e :: es) indent (List.cons_ne_nil e es)
      Json.blank_newline hds fun s hs => hrest s (List.mem_append_right _ hs)
    have hentry := derives_entry (hbs.append (blank_margin indent)) hk hv Json.blank_nil
    have hmembers := Json.Derives.moreMembers hentry hmore
    simpa [layoutEntries, toJsonMembers] using hmembers

end

/-- What is printed is a JSON text for the structured view. -/
theorem isText_print {v : Value} (h : ∀ s ∈ v.strings, q.Carries s) :
    Json.IsText q (v.print q) v.toJson := by
  rw [Json.IsText, print_eq, String.toList_ofList]
  exact (derives_layout v 0 h).item

theorem toJsonItems_eq_map (vs : List Value) : toJsonItems vs = vs.map toJson := by
  induction vs with
  | nil => rfl
  | cons v vs ih => rw [toJsonItems, ih, List.map_cons]

theorem toJsonMembers_eq_map (es : List (String × Value)) :
    toJsonMembers es = es.map fun e => (e.1, e.2.toJson) := by
  induction es with
  | nil => rfl
  | cons e es ih => rw [toJsonMembers, ih, List.map_cons]

mutual

/-- Values with one structured view are one value. -/
theorem toJson_inj : ∀ {v w : Value}, v.toJson = w.toJson → v = w
  | .number _, w, h => by cases w <;> simp_all [toJson]
  | .text _, w, h => by cases w <;> simp_all [toJson]
  | .boolean _, w, h => by cases w <;> simp_all [toJson]
  | .sequence vs, w, h => by
    cases w with
    | sequence ws => rw [toJsonItems_inj (Json.array.inj h)]
    | _ => exact nomatch h
  | .mapping es, w, h => by
    cases w with
    | mapping fs => rw [toJsonMembers_inj (Json.object.inj h)]
    | _ => exact nomatch h

theorem toJsonItems_inj : ∀ {vs ws : List Value}, toJsonItems vs = toJsonItems ws → vs = ws
  | [], [], _ => rfl
  | v :: vs, w :: ws, h => by
    obtain ⟨hv, hvs⟩ := List.cons.inj h
    rw [toJson_inj hv, toJsonItems_inj hvs]

theorem toJsonMembers_inj : ∀ {es fs : List (String × Value)},
    toJsonMembers es = toJsonMembers fs → es = fs
  | [], [], _ => rfl
  | (k, v) :: es, (l, w) :: fs, h => by
    obtain ⟨he, hes⟩ := List.cons.inj h
    obtain ⟨rfl, hv⟩ := Prod.mk.inj he
    rw [toJson_inj hv, toJsonMembers_inj hes]

end

/-! ## Reading back -/

/-- What is printed is read back as what it stands for, if its strings are carried. -/
theorem parse?_print {v : Value} (h : ∀ s ∈ v.strings, q.Carries s) :
    Json.parse? q (v.print q) = some v.toJson :=
  Json.parse?_of_isText (isText_print h)

/-- What is printed stands for the structured view, and for nothing else. -/
theorem isText_print_iff {v : Value} (h : ∀ s ∈ v.strings, q.Carries s) {j : Json} :
    Json.IsText q (v.print q) j ↔ j = v.toJson := by
  constructor
  · intro htext
    have hread := Json.parse?_of_isText htext
    rw [parse?_print h] at hread
    exact (Option.some.inj hread).symm
  · rintro rfl
    exact isText_print h

/-- Values printed alike are one value. -/
theorem print_inj {v w : Value} (hv : ∀ s ∈ v.strings, q.Carries s)
    (hw : ∀ s ∈ w.strings, q.Carries s) (h : v.print q = w.print q) : v = w := by
  have hread := parse?_print hv
  rw [h, parse?_print hw] at hread
  exact (toJson_inj (Option.some.inj hread)).symm

/-- Encoded, every string is carried. -/
theorem carries_encoded (v : Value) : ∀ s ∈ v.strings, Quoting.encoded.Carries s :=
  fun _ _ => trivial

/-- With encoded strings whatever is printed is a JSON text, which stands for the structured view and
for nothing else and which the reader of JSON texts gives back, for a value and for a document; and
values printed alike are one value. -/
theorem print_encoded_isText_iff :
    (∀ (v : Value) (j : Json), Json.IsText .encoded (v.print .encoded) j ↔ j = v.toJson) ∧
      (∀ v : Value, Json.parse? .encoded (v.print .encoded) = some v.toJson) ∧
      (∀ (d : Document) (j : Json), Json.IsText .encoded (d.print .encoded) j ↔ j = d.toJson) ∧
      (∀ d : Document, Json.parse? .encoded (d.print .encoded) = some d.toJson) ∧
      ∀ v w : Value, v.print .encoded = w.print .encoded ↔ v = w := by
  refine ⟨?_, ?_, ?_, ?_, ?_⟩
  · intro v j
    exact isText_print_iff v.carries_encoded
  · intro v
    exact parse?_print v.carries_encoded
  · intro d j
    exact isText_print_iff d.toValue.carries_encoded
  · intro d
    exact parse?_print d.toValue.carries_encoded
  · intro v w
    exact ⟨print_inj v.carries_encoded w.carries_encoded, congrArg (print .encoded)⟩

end Value

end HexConfig
