import HexConfig.Proofs.Json.Printed

/-!
# Walking through a JSON text

What can be said of a place in a JSON text from the characters before it, without reading the text: whether
the place is in a string, and which braces and brackets are open there. Braces and brackets in a string are
characters like any other, and a quote in a string closes it unless a backslash stands in front of it.

The layout of a value with encoded strings is balanced: a walk that comes to it outside all strings goes on
behind it as it came (`Walk.along_layout`). So what a walk meets in a layout is known part by part, and what is
said of it has to be proved of strings, of numbers and of the marks alone.
-/

namespace HexConfig

namespace Json

/-- A mark that something stands in. -/
inductive Mark where
  | brace
  | bracket
  deriving DecidableEq

/-- Where a place is with regard to strings. -/
inductive Zone where
  /-- Outside all strings. -/
  | plain
  /-- In a string. -/
  | string
  /-- In a string, behind the backslash of an escape. -/
  | escape
  deriving DecidableEq

/-- What is known of a place in a text from the characters before it. -/
structure Walk where
  zone : Zone
  /-- The marks that are open, the innermost first. -/
  opened : List Mark
  deriving DecidableEq

namespace Walk

/-- At the start of a text. -/
def start : Walk := ⟨.plain, []⟩

/-- Behind one more character. -/
def step (w : Walk) (c : Char) : Walk :=
  match w.zone with
  | .plain =>
    if c = '"' then { w with zone := .string }
    else if c = '{' then { w with opened := .brace :: w.opened }
    else if c = '[' then { w with opened := .bracket :: w.opened }
    else if c = '}' ∨ c = ']' then { w with opened := w.opened.tail }
    else w
  | .string =>
    if c = '"' then { w with zone := .plain }
    else if c = '\\' then { w with zone := .escape }
    else w
  | .escape => { w with zone := .string }

/-- Behind a row of characters. -/
def along (w : Walk) (cs : List Char) : Walk := cs.foldl step w

variable {c : Char} {cs ds : List Char} {marks : List Mark}

theorem along_cons (w : Walk) (c : Char) (cs : List Char) : w.along (c :: cs) = (w.step c).along cs := rfl

theorem along_append (w : Walk) (cs ds : List Char) : w.along (cs ++ ds) = (w.along cs).along ds :=
  List.foldl_append

/-- A character that makes no difference outside strings. -/
def Idle (c : Char) : Prop := c ∉ ['"', '{', '[', '}', ']']

instance : DecidablePred Idle := fun c => inferInstanceAs (Decidable (c ∉ _))

theorem step_idle (hc : Idle c) : step ⟨.plain, marks⟩ c = ⟨.plain, marks⟩ := by
  simp only [Idle, List.mem_cons, List.not_mem_nil, or_false, not_or] at hc
  simp [step, hc]

theorem along_idle (hcs : ∀ c ∈ cs, Idle c) : along ⟨.plain, marks⟩ cs = ⟨.plain, marks⟩ := by
  induction cs with
  | nil => rfl
  | cons c cs ih =>
    obtain ⟨hc, hcs⟩ := List.forall_mem_cons.mp hcs
    rw [along_cons, step_idle hc, ih hcs]

/-- What is balanced is balanced between braces, -/
theorem along_braces (hcs : along ⟨.plain, .brace :: marks⟩ cs = ⟨.plain, .brace :: marks⟩) :
    along ⟨.plain, marks⟩ ('{' :: (cs ++ ['}'])) = ⟨.plain, marks⟩ := by
  rw [along_cons, along_append]
  show along (along ⟨.plain, .brace :: marks⟩ cs) ['}'] = _
  rw [hcs]
  rfl

/-- and between brackets. -/
theorem along_brackets (hcs : along ⟨.plain, .bracket :: marks⟩ cs = ⟨.plain, .bracket :: marks⟩) :
    along ⟨.plain, marks⟩ ('[' :: (cs ++ [']'])) = ⟨.plain, marks⟩ := by
  rw [along_cons, along_append]
  show along (along ⟨.plain, .bracket :: marks⟩ cs) [']'] = _
  rw [hcs]
  rfl

/-! ## Strings -/

/-- In a string, a character that neither closes it nor starts an escape. -/
theorem step_string (hquote : c ≠ '"') (hback : c ≠ '\\') :
    step ⟨.string, marks⟩ c = ⟨.string, marks⟩ := by
  simp [step, hquote, hback]

/-- A digit of an escape is such a character. -/
theorem step_ofDigit {n : Nat} (h : n < 16) :
    step ⟨.string, marks⟩ (Hex.ofDigit n) = ⟨.string, marks⟩ := by
  have hdigit : ∀ n < 16, Hex.ofDigit n ≠ '"' ∧ Hex.ofDigit n ≠ '\\' := by decide
  obtain ⟨hquote, hback⟩ := hdigit n h
  exact step_string hquote hback

/-- Whatever a character is encoded as, the string goes on behind it. -/
theorem along_encodeChar (c : Char) : along ⟨.string, marks⟩ (Quoting.encodeChar c) = ⟨.string, marks⟩ := by
  rcases Quoting.encodeChar_cases c with ⟨e, -, hc⟩ | ⟨hcontrol, hc⟩ | ⟨hquote, hback, -, hc⟩
  · rw [hc]
    rfl
  · rw [hc]
    show along ⟨.string, marks⟩ [Hex.ofDigit (c.toNat / 16), Hex.ofDigit (c.toNat % 16)] = _
    rw [along_cons, step_ofDigit (by omega), along_cons, step_ofDigit (by omega)]
    rfl
  · rw [hc, along_cons, step_string hquote hback]
    rfl

/-- A string is balanced. -/
theorem along_quote (s : String) : along ⟨.plain, marks⟩ (Quoting.encoded.quote s) = ⟨.plain, marks⟩ := by
  have hinside : along ⟨.string, marks⟩ (s.toList.flatMap Quoting.encodeChar) = ⟨.string, marks⟩ := by
    induction s.toList with
    | nil => rfl
    | cons c cs ih => rw [List.flatMap_cons, along_append, along_encodeChar, ih]
  rw [Quoting.quote, along_cons, along_append]
  show along (along ⟨.string, marks⟩ (s.toList.flatMap Quoting.encodeChar)) ['"'] = _
  rw [hinside]
  rfl

end Walk

end Json

/-! ## Values -/

/-- The characters of a number. -/
theorem Decimal.mem_ofInt {n : Int} {c : Char} (h : c ∈ ofInt n) : c = '-' ∨ c.isDigit = true := by
  cases n with
  | ofNat n => exact .inr ((digits_digits n).2 c h)
  | negSucc n =>
    rcases List.mem_cons.mp h with rfl | h
    · exact .inl rfl
    · exact .inr ((digits_digits (n + 1)).2 c h)

namespace Json.Walk

open Value

variable {marks : List Mark}

theorem idle_of_mem_ofInt {n : Int} {c : Char} (h : c ∈ Decimal.ofInt n) : Idle c := by
  rcases Decimal.mem_ofInt h with rfl | hdigit
  · decide
  · intro hmem
    simp only [List.mem_cons, List.not_mem_nil, or_false] at hmem
    rcases hmem with rfl | rfl | rfl | rfl | rfl <;> exact absurd hdigit (by decide)

theorem along_margin (indent : Nat) : along ⟨.plain, marks⟩ (margin indent) = ⟨.plain, marks⟩ := by
  apply along_idle
  intro c hc
  rw [List.eq_of_mem_replicate hc]
  decide

/-- A row of blanks and separators in front makes no difference, -/
theorem along_idle_append {cs : List Char} (hcs : ∀ c ∈ cs, Idle c) (ds : List Char) :
    along ⟨.plain, marks⟩ (cs ++ ds) = along ⟨.plain, marks⟩ ds := by
  rw [along_append, along_idle hcs]

/-- nor does the name of an entry. -/
theorem along_name_append (indent : Nat) (k : String) (cs : List Char) :
    along ⟨.plain, marks⟩ (margin indent ++ (Quoting.encoded.quote k ++ ':' :: ' ' :: cs)) =
      along ⟨.plain, marks⟩ cs := by
  have hcolon : ∀ c ∈ [':', ' '], Idle c := by simp [Idle]
  rw [along_append, along_margin, along_append, along_quote]
  exact along_idle_append hcolon cs

mutual

/-- The layout of a value is balanced. -/
theorem along_layout : ∀ (v : Value) (indent : Nat) (marks : List Mark),
    along ⟨.plain, marks⟩ (v.layout .encoded indent) = ⟨.plain, marks⟩
  | .number _, _, _ => along_idle fun _ => idle_of_mem_ofInt
  | .text s, _, _ => along_quote s
  | .boolean true, _, _ => along_idle (show ∀ c ∈ "true".toList, Idle c by simp [Idle])
  | .boolean false, _, _ => along_idle (show ∀ c ∈ "false".toList, Idle c by simp [Idle])
  | .sequence items, _, marks => along_brackets (along_layoutItems items _)
  | .mapping [], _, _ => rfl
  | .mapping (e :: es), indent, marks => by
    have hinside : along ⟨.plain, .brace :: marks⟩
        ('\n' :: (layoutEntries .encoded (indent + 1) (e :: es) ++ '\n' :: margin indent)) =
        ⟨.plain, .brace :: marks⟩ := by
      rw [along_cons, step_idle (by decide), along_append, along_layoutEntries (e :: es), along_cons,
        step_idle (by decide), along_margin]
    simpa [layout] using along_braces hinside

/-- Items on one line are. -/
theorem along_layoutItems : ∀ (vs : List Value) (marks : List Mark),
    along ⟨.plain, marks⟩ (layoutItems .encoded vs) = ⟨.plain, marks⟩
  | [], _ => rfl
  | [v], marks => along_layout v 0 marks
  | v :: w :: vs, marks => by
    have hcomma : ∀ c ∈ [',', ' '], Idle c := by simp [Idle]
    rw [layoutItems, along_append, along_layout v]
    exact (along_idle_append hcomma _).trans (along_layoutItems (w :: vs) marks)

/-- Entries on lines of their own are. -/
theorem along_layoutEntries : ∀ (es : List (String × Value)) (indent : Nat) (marks : List Mark),
    along ⟨.plain, marks⟩ (layoutEntries .encoded indent es) = ⟨.plain, marks⟩
  | [], _, _ => rfl
  | [(k, v)], indent, marks => by rw [layoutEntries, along_name_append, along_layout v]
  | (k, v) :: e :: es, indent, marks => by
    have hline : ∀ c ∈ [',', '\n'], Idle c := by simp [Idle]
    rw [layoutEntries, along_name_append, along_append, along_layout v]
    exact (along_idle_append hline _).trans (along_layoutEntries (e :: es) indent marks)

end

end Json.Walk

end HexConfig
