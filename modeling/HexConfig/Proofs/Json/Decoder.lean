import HexConfig.Proofs.Characters
import HexConfig.Proofs.Json.Grammar
import Mathlib.Data.List.DropRight

/-!
# The reader reads every JSON text

Whatever row of characters the grammar derives for a value, `Json.parse?` reads as that value
(`parse?_of_isText`). So it is a reader of JSON texts in the sense of RFC 8259, and no text is derived
for two values.

Each part of the reader takes as much as it can, so each statement here is about a row with something
behind it that the part cannot take: no digit behind digits, no digit, point or exponent behind a
number, a comma or a closing mark behind a value with its blanks. The reader's fuel is measured by the
characters ahead, two for each: one for the row of items or members, one for the value in it.
-/

namespace HexConfig.Json

variable {q : Quoting} {cs ds s rest : List Char} {j : Json} {fuel : Nat}

/-! ## Blanks -/

/-- Blanks in front are skipped. -/
theorem skipBlanks_append (h : Blank ds) (cs : List Char) :
    skipBlanks (ds ++ cs) = skipBlanks cs :=
  List.dropWhile_append_of_pos h

/-- Nothing is skipped in front of a character that is no blank. -/
theorem skipBlanks_cons {c : Char} (h : isBlank c = false) (cs : List Char) :
    skipBlanks (c :: cs) = c :: cs :=
  List.dropWhile_cons_of_neg (by rw [h]; exact Bool.false_ne_true)

theorem skipBlanks_skipBlanks (cs : List Char) : skipBlanks (skipBlanks cs) = skipBlanks cs :=
  List.dropWhile_idempotent _ _

/-! ## Strings -/

/-- A character that needs no escape is read as itself. -/
theorem encodedString?_plain {c : Char} (hquote : c ≠ '"') (hback : c ≠ '\\')
    (hcontrol : 0x20 ≤ c.toNat) (h : encodedString? cs = some (s, rest)) :
    encodedString? (c :: cs) = some (c :: s, rest) := by
  rw [encodedString?.eq_def]
  split <;> simp_all

/-- A backslash and a letter are read as the character the letter stands for. -/
theorem encodedString?_letter {e c : Char} (he : escaped? e = some c)
    (h : encodedString? cs = some (s, rest)) :
    encodedString? ('\\' :: e :: cs) = some (c :: s, rest) := by
  have hu : e ≠ 'u' := by
    rintro rfl
    exact nomatch he
  rw [encodedString?.eq_def]
  split
  case h_6 hother heq =>
    obtain ⟨rfl, rfl⟩ := List.cons.inj heq
    exact absurd rfl (hother e cs rfl)
  all_goals simp_all

/-- A code unit that is no surrogate is read as the character of its number. -/
theorem encodedString?_unit {a b c d : Char} {n : Nat} (hn : unit? a b c d = some n)
    (hhigh : isHighSurrogate n = false) (hlow : isLowSurrogate n = false)
    (h : encodedString? cs = some (s, rest)) :
    encodedString? ('\\' :: 'u' :: a :: b :: c :: d :: cs) = some (Char.ofNat n :: s, rest) := by
  rw [encodedString?.eq_def]
  split
  case h_5 hother heq =>
    obtain ⟨-, heq⟩ := List.cons.inj heq
    obtain ⟨rfl, rfl⟩ := List.cons.inj heq
    exact absurd rfl (hother a b c d cs rfl)
  case h_6 hother heq =>
    obtain ⟨rfl, rfl⟩ := List.cons.inj heq
    exact absurd rfl (hother 'u' _ rfl)
  all_goals simp_all

/-- Two surrogates, the high one first, are read as one character above the sixteen-bit ones. -/
theorem encodedString?_pair {a b c d e f g i : Char} {n m : Nat} (hn : unit? a b c d = some n)
    (hhigh : isHighSurrogate n = true) (hm : unit? e f g i = some m)
    (hlow : isLowSurrogate m = true) (h : encodedString? cs = some (s, rest)) :
    encodedString? ('\\' :: 'u' :: a :: b :: c :: d :: '\\' :: 'u' :: e :: f :: g :: i :: cs) =
      some (Char.ofNat (0x10000 + 0x400 * (n - 0xd800) + (m - 0xdc00)) :: s, rest) := by
  rw [encodedString?.eq_def]
  simp [hn, hhigh, hm, hlow, h]

/-- A string is read to its closing quote as whatever it encodes. -/
theorem encodedString?_of_encodes (h : Encodes cs s) (rest : List Char) :
    encodedString? (cs ++ '"' :: rest) = some (s, rest) := by
  induction h with
  | nil => rfl
  | plain hquote hback hcontrol _ ih => exact encodedString?_plain hquote hback hcontrol ih
  | letter he _ ih => exact encodedString?_letter he ih
  | unit hn hhigh hlow _ ih => exact encodedString?_unit hn hhigh hlow ih
  | pair hn hhigh hm hlow _ ih => exact encodedString?_pair hn hhigh hm hlow ih

/-- Characters without a quote are read to the closing quote as they stand. -/
theorem verbatimString?_of_notMem (h : '"' ∉ cs) (rest : List Char) :
    verbatimString? (cs ++ '"' :: rest) = some (cs, rest) := by
  have hcs : ∀ c ∈ cs, (c != '"') = true := by
    intro c hc
    rw [bne_iff_ne]
    rintro rfl
    exact h hc
  have hends : HexConfig.Ends (· != '"') ('"' :: rest) := ends_cons (by decide) rest
  obtain ⟨htake, hdrop⟩ := run_append_of_all hcs hends
  rw [verbatimString?, htake, hdrop]

/-- A string is read up to the quote that closes it. -/
theorem string?_of_inside (h : Inside q cs s) (rest : List Char) :
    string? q (cs ++ '"' :: rest) = some (s, rest) := by
  cases q with
  | encoded => exact encodedString?_of_encodes h rest
  | verbatim =>
    obtain ⟨rfl, hquote⟩ := h
    exact verbatimString?_of_notMem hquote rest

/-! ## Numbers -/

/-- A run of digits is read whole if no digit follows it. -/
theorem digits?_of_digits (h : Digits ds) (hrest : ∀ c ∈ rest.head?, c.isDigit = false) :
    digits? (ds ++ rest) = some (ds, rest) := by
  obtain ⟨htake, hdrop⟩ := run_append_of_all h.2 hrest
  rw [digits?, htake, hdrop, if_neg (by simpa using h.1)]

/-- The whole part of a number is read whole if no digit follows it. -/
theorem whole?_of_whole (h : Whole ds) (hrest : ∀ c ∈ rest.head?, c.isDigit = false) :
    whole? (ds ++ rest) = some (ds, rest) := by
  obtain ⟨hdigits, hzero⟩ := h
  have hno : ¬(ds.head? = some '0' ∧ ds.length ≠ 1) := fun ⟨hhead, hlength⟩ =>
    hlength (hzero hhead)
  simp only [whole?, digits?_of_digits hdigits hrest, Option.bind_eq_bind, Option.bind_some,
    if_neg hno]

/-- A fraction, or none, is read whole if neither a digit nor a point follows it. -/
theorem fraction?_of_fraction {frac : List Char} (h : Fraction frac ds)
    (hrest : ∀ c ∈ rest.head?, c.isDigit = false ∧ c ≠ '.') :
    fraction? (frac ++ rest) = some (ds, rest) := by
  cases h with
  | present hdigits => exact digits?_of_digits hdigits fun c hc => (hrest c hc).1
  | absent =>
    rw [List.nil_append, fraction?.eq_def]
    split
    · next cs => exact absurd rfl (hrest '.' rfl).2
    · rfl

/-- An exponent, or none, is read whole if nothing follows that could go on with it. -/
theorem exponent?_of_exponent {exp : List Char} {e : Int} (h : Exponent exp e)
    (hrest : ∀ c ∈ rest.head?, c.isDigit = false ∧ c ≠ 'e' ∧ c ≠ 'E') :
    exponent? (exp ++ rest) = some (e, rest) := by
  have hdigit : ∀ c ∈ rest.head?, c.isDigit = false := fun c hc => (hrest c hc).1
  cases h with
  | absent =>
    rw [List.nil_append, exponent?.eq_def]
    split <;> simp_all
  | plus hmark hdigits =>
    rcases hmark with rfl | rfl <;> simp [exponent?, digits?_of_digits hdigits hdigit]
  | minus hmark hdigits =>
    rcases hmark with rfl | rfl <;> simp [exponent?, digits?_of_digits hdigits hdigit]
  | @plain mark ds hmark hdigits =>
    obtain ⟨d, ds, rfl⟩ := List.exists_cons_of_ne_nil hdigits.1
    have hd : d.isDigit = true := hdigits.isDigit_head
    have hplus : d ≠ '+' := by
      rintro rfl
      exact absurd hd (by decide)
    have hminus : d ≠ '-' := by
      rintro rfl
      exact absurd hd (by decide)
    have hread := digits?_of_digits hdigits hdigit
    rw [List.cons_append] at hread
    rcases hmark with rfl | rfl <;> simp [exponent?, hread, hplus, hminus]

/-- Nothing that a number could go on with stands ahead. -/
def Ends (rest : List Char) : Prop :=
  ∀ c ∈ rest.head?, c.isDigit = false ∧ c ≠ '.' ∧ c ≠ 'e' ∧ c ≠ 'E'

/-- Behind the whole part and the fraction of a number stands no digit and no point. -/
theorem Ends.exponent_append {exp : List Char} {e : Int} (hrest : Ends rest) (h : Exponent exp e) :
    ∀ c ∈ (exp ++ rest).head?, c.isDigit = false ∧ c ≠ '.' := by
  cases h with
  | absent => exact fun c hc => ⟨(hrest c hc).1, (hrest c hc).2.1⟩
  | plain hmark _ | plus hmark _ | minus hmark _ =>
    intro c hc
    obtain rfl := Option.some.inj hc
    rcases hmark with rfl | rfl <;> decide

/-- Behind the whole part of a number stands no digit. -/
theorem Ends.fraction_append {frac fs exp : List Char} {e : Int} (hrest : Ends rest)
    (hfrac : Fraction frac fs) (hexp : Exponent exp e) :
    ∀ c ∈ (frac ++ (exp ++ rest)).head?, c.isDigit = false := by
  cases hfrac with
  | absent => exact fun c hc => (hrest.exponent_append hexp c hc).1
  | present _ =>
    intro c hc
    obtain rfl := Option.some.inj hc
    decide

/-- A number without its sign is read whole if it ends where it does. -/
theorem magnitude?_of_magnitude {sign : Int} (h : Magnitude sign cs j) (hrest : Ends rest) :
    magnitude? sign (cs ++ rest) = some (j, rest) := by
  cases h with
  | @parts ds frac fs exp e hwhole hfrac hexp =>
    have hread := whole?_of_whole hwhole (hrest.fraction_append hfrac hexp)
    have hread' := fraction?_of_fraction hfrac (hrest.exponent_append hexp)
    have hread'' := exponent?_of_exponent hexp fun c hc =>
      ⟨(hrest c hc).1, (hrest c hc).2.2.1, (hrest c hc).2.2.2⟩
    rw [List.append_assoc, List.append_assoc]
    simp [magnitude?, hread, hread', hread'']

/-- A number starts with a digit, behind its sign or without one. -/
theorem Magnitude.head_isDigit {sign : Int} (h : Magnitude sign cs j) :
    ∃ d ds, cs = d :: ds ∧ d.isDigit = true := by
  cases h with
  | parts hwhole _ _ =>
    obtain ⟨d, ds, rfl⟩ := List.exists_cons_of_ne_nil hwhole.1.1
    exact ⟨d, _, rfl, hwhole.1.isDigit_head⟩

/-- A number is read whole, as what it denotes, if it ends where it does. -/
theorem number?_of_numeral (h : Numeral cs j) (hrest : Ends rest) :
    number? (cs ++ rest) = some (j, rest) := by
  cases h with
  | negative h => exact magnitude?_of_magnitude h hrest
  | positive h =>
    obtain ⟨d, ds, rfl, hd⟩ := h.head_isDigit
    rw [number?.eq_def]
    split
    · next heq =>
      obtain ⟨rfl, -⟩ := List.cons.inj heq
      exact absurd hd (by decide)
    · exact magnitude?_of_magnitude h hrest

/-! ## Values -/

/-- Blanks in front of a value are skipped. -/
theorem value?_skipBlanks (q : Quoting) (fuel : Nat) (cs : List Char) :
    value? q fuel (skipBlanks cs) = value? q fuel cs := by
  cases fuel with
  | zero => rfl
  | succ fuel => rw [value?, value?, skipBlanks_skipBlanks]

/-- A value is read past the blanks in front of it. -/
theorem value?_blank_append (h : Blank ds) (q : Quoting) (fuel : Nat) (cs : List Char) :
    value? q fuel (ds ++ cs) = value? q fuel cs := by
  rw [← value?_skipBlanks, skipBlanks_append h, value?_skipBlanks]

theorem items?_skipBlanks (q : Quoting) (fuel : Nat) (cs : List Char) :
    items? q fuel (skipBlanks cs) = items? q fuel cs := by
  cases fuel with
  | zero => rfl
  | succ fuel => rw [items?, items?, value?_skipBlanks]

theorem members?_skipBlanks (q : Quoting) (fuel : Nat) (cs : List Char) :
    members? q fuel (skipBlanks cs) = members? q fuel cs := by
  cases fuel with
  | zero => rfl
  | succ fuel => rw [members?, members?, skipBlanks_skipBlanks]

/-- What closes an array starts no value. -/
theorem value?_of_close (h : skipBlanks cs = ']' :: ds) : value? q fuel cs = none := by
  cases fuel with
  | zero => rfl
  | succ fuel =>
    rw [value?, h]
    rfl

/-- No items are read where the array is closed. -/
theorem items?_of_close (h : skipBlanks cs = ']' :: ds) : items? q fuel cs = none := by
  cases fuel with
  | zero => rfl
  | succ fuel =>
    rw [items?, value?_of_close h]
    rfl

/-- No members are read where the object is closed. -/
theorem members?_of_close (h : skipBlanks cs = '}' :: ds) : members? q fuel cs = none := by
  cases fuel with
  | zero => rfl
  | succ fuel =>
    rw [members?, h]
    rfl

/-- What starts like a number is read as one. -/
theorem value?_of_number {c : Char} (hc : c = '-' ∨ c.isDigit = true) :
    value? q (fuel + 1) (c :: cs) = number? (c :: cs) := by
  have hblank : isBlank c = false := by
    rw [Bool.eq_false_iff]
    intro h
    have h : c = ' ' ∨ c = '\t' ∨ c = '\n' ∨ c = '\r' := by simpa [isBlank, or_assoc] using h
    rcases h with rfl | rfl | rfl | rfl <;> exact absurd hc (by decide)
  rw [value?, skipBlanks_cons hblank]
  split <;> simp_all

/-- Behind a quote the reading is that of a string. -/
theorem value?_quote (q : Quoting) (fuel : Nat) (cs : List Char) :
    value? q (fuel + 1) ('"' :: cs) =
      (string? q cs).map fun (s, rest) => (.string (String.ofList s), rest) := by
  rw [value?]
  rfl

/-- Behind a bracket that is not closed at once the reading is that of items. -/
theorem value?_bracket (h : ∀ ds, skipBlanks cs ≠ ']' :: ds) :
    value? q (fuel + 1) ('[' :: cs) = (items? q fuel cs).map fun (js, rest) => (.array js, rest) := by
  rw [value?, skipBlanks_cons (by decide)]
  simp only [items?_skipBlanks]

/-- Behind a brace that is not closed at once the reading is that of members. -/
theorem value?_brace (h : ∀ ds, skipBlanks cs ≠ '}' :: ds) :
    value? q (fuel + 1) ('{' :: cs) =
      (members? q fuel cs).map fun (ms, rest) => (.object ms, rest) := by
  rw [value?, skipBlanks_cons (by decide)]
  simp only [members?_skipBlanks]

/-- A comma or a closing mark stands ahead, or nothing. -/
def Stops (rest : List Char) : Prop := ∀ c ∈ rest.head?, c = ',' ∨ c = ']' ∨ c = '}'

/-- Behind a value with its blanks nothing goes on with the value. -/
theorem Stops.ends_append (h : Stops rest) (hds : Blank ds) : Ends (ds ++ rest) := by
  intro c hc
  cases ds with
  | nil => rcases h c hc with rfl | rfl | rfl <;> decide
  | cons d ds =>
    obtain rfl : d = c := Option.some.inj hc
    have hd : d = ' ' ∨ d = '\t' ∨ d = '\n' ∨ d = '\r' := by
      simpa [isBlank, or_assoc] using hds d List.mem_cons_self
    rcases hd with rfl | rfl | rfl | rfl <;> decide

/-- What the reader makes of a row of characters. -/
def Reads (q : Quoting) : Part → List Char → Prop
  | .value j, cs => ∀ fuel rest, 2 * cs.length ≤ fuel → Ends rest →
      value? q fuel (cs ++ rest) = some (j, rest)
  | .item j, cs => ∀ fuel rest, 2 * cs.length ≤ fuel → Stops rest →
      ∃ ds, Blank ds ∧ value? q fuel (cs ++ rest) = some (j, ds ++ rest)
  | .items js, cs => ∀ fuel rest, 2 * cs.length < fuel →
      items? q fuel (cs ++ ']' :: rest) = some (js, rest)
  | .member m, cs => ∀ fuel rest, 2 * cs.length ≤ fuel →
      members? q (fuel + 1) (cs ++ '}' :: rest) = some ([m], rest) ∧
        members? q (fuel + 1) (cs ++ ',' :: rest) =
          (members? q fuel rest).map fun (ms, rest) => (m :: ms, rest)
  | .members ms, cs => ∀ fuel rest, 2 * cs.length < fuel →
      members? q fuel (cs ++ '}' :: rest) = some (ms, rest)

/-- A number is read as what it denotes. -/
theorem reads_number (h : Numeral cs j) : Reads q (.value j) cs := by
  intro fuel rest hfuel hrest
  have hread := number?_of_numeral h hrest
  obtain ⟨c, ds, rfl, hc⟩ : ∃ c ds, cs = c :: ds ∧ (c = '-' ∨ c.isDigit = true) := by
    cases h with
    | negative _ => exact ⟨'-', _, rfl, .inl rfl⟩
    | positive h =>
      obtain ⟨d, ds, rfl, hd⟩ := h.head_isDigit
      exact ⟨d, ds, rfl, .inr hd⟩
  obtain ⟨fuel, rfl⟩ : ∃ n, fuel = n + 1 := Nat.exists_eq_add_one.mpr (by grind)
  rw [List.cons_append, value?_of_number hc]
  exact hread

/-- A string between its quotes is read as what stands inside. -/
theorem reads_string (h : Inside q cs s) :
    Reads q (.value (.string (String.ofList s))) ('"' :: (cs ++ ['"'])) := by
  intro fuel rest hfuel _
  obtain ⟨fuel, rfl⟩ : ∃ n, fuel = n + 1 := Nat.exists_eq_add_one.mpr (by grind)
  rw [List.cons_append, List.append_assoc, value?_quote]
  simp [string?_of_inside h]

/-- Items between brackets are read as their array. -/
theorem reads_array {js : List Json} (h : Reads q (.items js) cs) :
    Reads q (.value (.array js)) ('[' :: (cs ++ [']'])) := by
  intro fuel rest hfuel _
  rw [List.length_cons, List.length_append, List.length_singleton] at hfuel
  obtain ⟨fuel, rfl⟩ : ∃ n, fuel = n + 1 := Nat.exists_eq_add_one.mpr (by omega)
  have hitems : items? q fuel (cs ++ ']' :: rest) = some (js, rest) := h fuel rest (by omega)
  have hopen : ∀ ds, skipBlanks (cs ++ ']' :: rest) ≠ ']' :: ds := by
    intro ds hclose
    rw [items?_of_close hclose] at hitems
    exact nomatch hitems
  rw [List.cons_append, List.append_assoc, List.singleton_append, value?_bracket hopen, hitems]
  rfl

theorem reads_object {ms : List (String × Json)} (h : Reads q (.members ms) cs) :
    Reads q (.value (.object ms)) ('{' :: (cs ++ ['}'])) := by
  intro fuel rest hfuel _
  rw [List.length_cons, List.length_append, List.length_singleton] at hfuel
  obtain ⟨fuel, rfl⟩ : ∃ n, fuel = n + 1 := Nat.exists_eq_add_one.mpr (by omega)
  have hmembers : members? q fuel (cs ++ '}' :: rest) = some (ms, rest) := h fuel rest (by omega)
  have hopen : ∀ ds, skipBlanks (cs ++ '}' :: rest) ≠ '}' :: ds := by
    intro ds hclose
    rw [members?_of_close hclose] at hmembers
    exact nomatch hmembers
  rw [List.cons_append, List.append_assoc, List.singleton_append, value?_brace hopen, hmembers]
  rfl

theorem reads_spaced {bs : List Char} (hbs : Blank bs) (h : Reads q (.value j) cs)
    (hds : Blank ds) : Reads q (.item j) (bs ++ (cs ++ ds)) := by
  intro fuel rest hfuel hrest
  rw [List.length_append, List.length_append] at hfuel
  have hvalue : value? q fuel (cs ++ (ds ++ rest)) = some (j, ds ++ rest) :=
    h fuel _ (by omega) (hrest.ends_append hds)
  refine ⟨ds, hds, ?_⟩
  rw [List.append_assoc, List.append_assoc, value?_blank_append hbs, hvalue]

theorem reads_lastItem (h : Reads q (.item j) cs) : Reads q (.items [j]) cs := by
  intro fuel rest hfuel
  obtain ⟨fuel, rfl⟩ : ∃ n, fuel = n + 1 := Nat.exists_eq_add_one.mpr (by omega)
  obtain ⟨ds, hds, hvalue⟩ := h fuel (']' :: rest) (by omega) (by simp [Stops])
  simp [items?, hvalue, skipBlanks_append hds, skipBlanks_cons (show isBlank ']' = false by decide)]

theorem reads_moreItems {js : List Json} (h : Reads q (.item j) cs) (hs : Reads q (.items js) ds) :
    Reads q (.items (j :: js)) (cs ++ ',' :: ds) := by
  intro fuel rest hfuel
  rw [List.length_append, List.length_cons] at hfuel
  obtain ⟨fuel, rfl⟩ : ∃ n, fuel = n + 1 := Nat.exists_eq_add_one.mpr (by omega)
  obtain ⟨bs, hbs, hvalue⟩ := h fuel (',' :: (ds ++ ']' :: rest)) (by omega) (by simp [Stops])
  have hitems : items? q fuel (ds ++ ']' :: rest) = some (js, rest) := hs fuel rest (by omega)
  simp [items?, hvalue, skipBlanks_append hbs, skipBlanks_cons (show isBlank ',' = false by decide),
    hitems]

theorem reads_member {k bs ks : List Char} (hbs : Blank bs) (hk : Inside q ks k) (hds : Blank ds)
    (h : Reads q (.item j) cs) :
    Reads q (.member (String.ofList k, j)) (bs ++ '"' :: (ks ++ '"' :: (ds ++ ':' :: cs))) := by
  intro fuel rest hfuel
  have hlength : 2 * cs.length ≤ fuel := by
    simp only [List.length_append, List.length_cons] at hfuel
    omega
  constructor
  · obtain ⟨es, hes, hvalue⟩ := h fuel ('}' :: rest) hlength (by simp [Stops])
    simp [members?, skipBlanks_append hbs, string?_of_inside hk, skipBlanks_append hds, hvalue,
      skipBlanks_append hes, skipBlanks_cons (show isBlank '"' = false by decide),
      skipBlanks_cons (show isBlank ':' = false by decide),
      skipBlanks_cons (show isBlank '}' = false by decide)]
  · obtain ⟨es, hes, hvalue⟩ := h fuel (',' :: rest) hlength (by simp [Stops])
    simp [members?, skipBlanks_append hbs, string?_of_inside hk, skipBlanks_append hds, hvalue,
      skipBlanks_append hes, skipBlanks_cons (show isBlank '"' = false by decide),
      skipBlanks_cons (show isBlank ':' = false by decide),
      skipBlanks_cons (show isBlank ',' = false by decide)]

theorem reads_lastMember {m : String × Json} (h : Reads q (.member m) cs) :
    Reads q (.members [m]) cs := by
  intro fuel rest hfuel
  obtain ⟨fuel, rfl⟩ : ∃ n, fuel = n + 1 := Nat.exists_eq_add_one.mpr (by omega)
  exact (h fuel rest (by omega)).1

theorem reads_moreMembers {m : String × Json} {ms : List (String × Json)}
    (h : Reads q (.member m) cs) (hs : Reads q (.members ms) ds) :
    Reads q (.members (m :: ms)) (cs ++ ',' :: ds) := by
  intro fuel rest hfuel
  rw [List.length_append, List.length_cons] at hfuel
  obtain ⟨fuel, rfl⟩ : ∃ n, fuel = n + 1 := Nat.exists_eq_add_one.mpr (by omega)
  have hmembers : members? q fuel (ds ++ '}' :: rest) = some (ms, rest) := hs fuel rest (by omega)
  rw [List.append_assoc, List.cons_append, (h fuel (ds ++ '}' :: rest) (by omega)).2, hmembers]
  rfl

theorem reads_emptyArray (h : Blank ds) : Reads q (.value (.array [])) ('[' :: (ds ++ [']'])) := by
  intro fuel rest hfuel _
  obtain ⟨fuel, rfl⟩ : ∃ n, fuel = n + 1 := Nat.exists_eq_add_one.mpr (by grind)
  simp [value?, skipBlanks_append h, skipBlanks_cons (show isBlank '[' = false by decide),
    skipBlanks_cons (show isBlank ']' = false by decide)]

theorem reads_emptyObject (h : Blank ds) : Reads q (.value (.object [])) ('{' :: (ds ++ ['}'])) := by
  intro fuel rest hfuel _
  obtain ⟨fuel, rfl⟩ : ∃ n, fuel = n + 1 := Nat.exists_eq_add_one.mpr (by grind)
  simp [value?, skipBlanks_append h, skipBlanks_cons (show isBlank '{' = false by decide),
    skipBlanks_cons (show isBlank '}' = false by decide)]

/-- The reader makes of a row what the grammar derives it for. -/
theorem Derives.reads {part : Part} (h : Derives q part cs) : Reads q part cs := by
  induction h with
  | null | yes | no =>
    intro fuel rest hfuel _
    obtain ⟨fuel, rfl⟩ : ∃ n, fuel = n + 1 := Nat.exists_eq_add_one.mpr (by grind)
    simp [value?, skipBlanks, isBlank]
  | number h => exact reads_number h
  | string h => exact reads_string h
  | emptyArray h => exact reads_emptyArray h
  | array _ ih => exact reads_array ih
  | emptyObject h => exact reads_emptyObject h
  | object _ ih => exact reads_object ih
  | spaced hbs _ hds ih => exact reads_spaced hbs ih hds
  | lastItem _ ih => exact reads_lastItem ih
  | moreItems _ _ ih ihs => exact reads_moreItems ih ihs
  | member hbs hk hds _ ih => exact reads_member hbs hk hds ih
  | lastMember _ ih => exact reads_lastMember ih
  | moreMembers _ _ ih ihs => exact reads_moreMembers ih ihs

/-- A text that the grammar derives for a value is read as that value, all of it. -/
theorem parse?_of_isText {text : String} (h : IsText q text j) : parse? q text = some j := by
  have hfuel : 2 * text.toList.length ≤ 2 * text.length + 1 := by
    rw [String.length_toList]
    omega
  obtain ⟨ds, hds, hread⟩ := Derives.reads h (2 * text.length + 1) [] hfuel (by simp [Stops])
  rw [List.append_nil, List.append_nil] at hread
  have hrest : skipBlanks ds = [] := by
    rw [← List.append_nil ds, skipBlanks_append hds]
    rfl
  simp [parse?, hread, hrest]

end HexConfig.Json
