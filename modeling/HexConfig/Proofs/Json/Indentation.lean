import HexConfig.Proofs.Json.Walk

/-!
# How lines are indented

The printer counts the mappings it is in and starts again from nothing inside a sequence. Of that count nothing
is written down, but it can be found again in the text: it is the number of braces that are open within the
innermost open bracket (`Json.Walk.braces`). Behind every line feed stand two spaces for each of them, one pair
less in front of a closing brace, and then no further space; and a line feed stands directly within a brace, never
within a bracket and never in a string (`Value.print_encoded_indented`).

So a sequence is broken over lines only by an object in it that holds something (`Value.not_mem_layout_iff`), and
its text is the same wherever it stands: that of its items, each as it is printed at the margin.
-/

namespace HexConfig

namespace Json.Walk

/-- How many braces are open within the innermost open bracket, or altogether where no bracket is open. -/
def braces (w : Walk) : Nat := (w.opened.takeWhile (· = .brace)).length

/-- A line may end here, outside strings and directly within a brace, and `after` starts the next as it has to:
with two spaces for each open brace, but for the one that is closed there, and no further space. -/
structure Indents (w : Walk) (after : List Char) : Prop where
  zone : w.zone = .plain
  within : w.opened.head? = some .brace
  spaces : ∃ c rest, c ≠ ' ' ∧
    after = List.replicate (2 * if c = '}' then w.braces - 1 else w.braces) ' ' ++ c :: rest

/-- Every line feed ahead ends a line where one may end, with the next line as it has to be. -/
def Lined (w : Walk) (cs : List Char) : Prop :=
  ∀ before after, cs = before ++ '\n' :: after → (w.along before).Indents after

variable {w : Walk} {c : Char} {cs ds : List Char} {marks : List Mark} {indent : Nat}

theorem Indents.append (h : w.Indents cs) (ds : List Char) : w.Indents (cs ++ ds) where
  zone := h.zone
  within := h.within
  spaces := by
    obtain ⟨c, rest, hc, hcs⟩ := h.spaces
    exact ⟨c, rest ++ ds, hc, by rw [hcs, List.append_assoc, List.cons_append]⟩

/-- Without a line feed there is nothing to indent. -/
theorem lined_of_not_mem (h : '\n' ∉ cs) : w.Lined cs := by
  rintro before after rfl
  exact absurd (List.mem_append_right before List.mem_cons_self) h

/-- A row and what stands behind it are indented one after the other. -/
theorem Lined.append (hcs : w.Lined cs) (hds : (w.along cs).Lined ds) : w.Lined (cs ++ ds) := by
  intro before after hsplit
  rcases List.append_eq_append_iff.mp hsplit with ⟨gap, rfl, hline⟩ | ⟨gap, hline, hrest⟩
  · rw [along_append]
    exact hds gap after hline
  · cases gap with
    | nil =>
      rw [List.append_nil] at hline
      rw [← hline]
      exact hds [] after hrest.symm
    | cons c gap =>
      obtain ⟨rfl, rfl⟩ := List.cons.inj hrest
      exact (hcs before gap hline).append ds

theorem Lined.cons (hcs : (w.step c).Lined cs) (hc : c ≠ '\n') : w.Lined (c :: cs) := by
  have hline : w.Lined [c] := lined_of_not_mem fun h => hc (List.mem_singleton.mp h).symm
  exact hline.append hcs

/-- A line ends, and the next is in order. -/
theorem Lined.newline (h : Indents ⟨.plain, marks⟩ cs) (hcs : Lined ⟨.plain, marks⟩ cs) :
    Lined ⟨.plain, marks⟩ ('\n' :: cs) := by
  intro before after hsplit
  cases before with
  | nil =>
    obtain ⟨-, rfl⟩ := List.cons.inj hsplit
    exact h
  | cons c before =>
    obtain ⟨rfl, hrest⟩ := List.cons.inj hsplit
    exact hcs before after hrest

theorem braces_brace (marks : List Mark) :
    braces ⟨.plain, .brace :: marks⟩ = braces ⟨.plain, marks⟩ + 1 := rfl

theorem braces_bracket (marks : List Mark) : braces ⟨.plain, .bracket :: marks⟩ = 0 := rfl

/-- In a brace, a line that something starts on. -/
theorem indents_margin (hbraces : braces ⟨.plain, .brace :: marks⟩ = indent) (hspace : c ≠ ' ')
    (hclose : c ≠ '}') (rest : List Char) :
    Indents ⟨.plain, .brace :: marks⟩ (margin indent ++ c :: rest) :=
  ⟨rfl, rfl, c, rest, hspace, by rw [if_neg hclose, hbraces, margin]⟩

/-- In a brace, the line that the brace is closed on. -/
theorem indents_margin_close (hbraces : braces ⟨.plain, marks⟩ = indent) (rest : List Char) :
    Indents ⟨.plain, .brace :: marks⟩ (margin indent ++ '}' :: rest) :=
  ⟨rfl, rfl, '}', rest, by decide, by rw [if_pos rfl, braces_brace, hbraces, margin, Nat.add_sub_cancel]⟩

end Json.Walk

/-! ## Parts without line feeds -/

/-- There is no line feed in a margin. -/
theorem not_mem_margin (indent : Nat) : '\n' ∉ margin indent := by
  intro h
  exact absurd (List.eq_of_mem_replicate h) (by decide)

/-- There is no line feed in a number. -/
theorem Decimal.not_mem_ofInt (n : Int) : '\n' ∉ ofInt n := by
  intro h
  exact absurd (mem_ofInt h) (by decide)

namespace Quoting

/-- There is no line feed in an encoded character. -/
theorem not_mem_encodeChar (c : Char) : '\n' ∉ encodeChar c := by
  rcases encodeChar_cases c with ⟨e, he, hc⟩ | ⟨hcontrol, hc⟩ | ⟨-, -, hplain, hc⟩
  · rw [hc]
    have hline : e ≠ '\n' := by
      rintro rfl
      exact nomatch he
    simp [hline.symm]
  · have hdigit : ∀ n < 16, '\n' ≠ Hex.ofDigit n := by decide
    have hhigh := hdigit (c.toNat / 16) (by omega)
    have hlow := hdigit (c.toNat % 16) (by omega)
    rw [hc]
    simp [hhigh, hlow]
  · rw [hc]
    intro h
    rw [← List.mem_singleton.mp h] at hplain
    exact absurd hplain (by decide)

/-- A string with its quotes is on one line. -/
theorem not_mem_quote_encoded (s : String) : '\n' ∉ encoded.quote s := by
  have hinside : '\n' ∉ s.toList.flatMap encodeChar := by
    intro h
    obtain ⟨c, -, hc⟩ := List.mem_flatMap.mp h
    exact not_mem_encodeChar c hc
  simpa [quote, inside] using hinside

end Quoting

/-! ## Values -/

namespace Value

open Json Json.Walk

variable {marks : List Mark} {indent : Nat}

/-- A row of entries starts with the margin and a name. -/
theorem layoutEntries_eq_margin_append (q : Quoting) (indent : Nat) (e : String × Value)
    (es : List (String × Value)) : ∃ rest, layoutEntries q indent (e :: es) = margin indent ++ '"' :: rest := by
  obtain ⟨k, v⟩ := e
  cases es with
  | nil => exact ⟨_, rfl⟩
  | cons e es => exact ⟨_, rfl⟩

/-- The line that a row of entries starts is in order. -/
theorem indents_layoutEntries (hbraces : braces ⟨.plain, .brace :: marks⟩ = indent) (e : String × Value)
    (es : List (String × Value)) (rest : List Char) :
    Indents ⟨.plain, .brace :: marks⟩ (layoutEntries .encoded indent (e :: es) ++ rest) := by
  obtain ⟨more, hmore⟩ := layoutEntries_eq_margin_append .encoded indent e es
  rw [hmore]
  exact (indents_margin hbraces (by decide) (by decide) more).append rest

theorem lined_name_append (indent : Nat) (k : String) {cs : List Char} (h : Lined ⟨.plain, marks⟩ cs) :
    Lined ⟨.plain, marks⟩ (margin indent ++ (Quoting.encoded.quote k ++ ':' :: ' ' :: cs)) := by
  have hcs : Lined (along ⟨.plain, marks⟩ [':', ' ']) cs := by
    rwa [along_idle (by simp [Idle])]
  refine .append (lined_of_not_mem (not_mem_margin indent)) ?_
  rw [along_margin]
  refine .append (lined_of_not_mem (Quoting.not_mem_quote_encoded k)) ?_
  rw [along_quote]
  have hcolon : Lined ⟨.plain, marks⟩ [':', ' '] := lined_of_not_mem (by decide)
  exact hcolon.append hcs

mutual

/-- The layout of a value has its lines in order where as many braces are open as the layout takes there to be. -/
theorem lined_layout : ∀ (v : Value) {indent : Nat} {marks : List Mark},
    braces ⟨.plain, marks⟩ = indent → Lined ⟨.plain, marks⟩ (v.layout .encoded indent)
  | .number n, _, _, _ => lined_of_not_mem (Decimal.not_mem_ofInt n)
  | .text s, _, _, _ => lined_of_not_mem (Quoting.not_mem_quote_encoded s)
  | .boolean true, _, _, _ => lined_of_not_mem (show '\n' ∉ "true".toList by decide)
  | .boolean false, _, _, _ => lined_of_not_mem (show '\n' ∉ "false".toList by decide)
  | .sequence items, _, marks, _ => by
    have hitems := lined_layoutItems items (braces_bracket marks)
    exact .cons (hitems.append (lined_of_not_mem (by decide))) (by decide)
  | .mapping [], _, _, _ => lined_of_not_mem (show '\n' ∉ ['{', '}'] by decide)
  | .mapping (e :: es), indent, marks, hbraces => by
    have hinside : braces ⟨.plain, .brace :: marks⟩ = indent + 1 := congrArg (· + 1) hbraces
    have hclose : Lined ⟨.plain, .brace :: marks⟩ (margin indent ++ ['}']) :=
      lined_of_not_mem fun h => by
        rcases List.mem_append.mp h with h | h
        · exact not_mem_margin indent h
        · exact absurd (List.mem_singleton.mp h) (by decide)
    have hentries := lined_layoutEntries (e :: es) hinside
    refine .cons (.newline (indents_layoutEntries hinside e es _) (hentries.append ?_)) (by decide)
    rw [along_layoutEntries]
    exact .newline (indents_margin_close hbraces []) hclose

theorem lined_layoutItems : ∀ (vs : List Value) {marks : List Mark},
    braces ⟨.plain, marks⟩ = 0 → Lined ⟨.plain, marks⟩ (layoutItems .encoded vs)
  | [], _, _ => lined_of_not_mem List.not_mem_nil
  | [v], _, hbraces => lined_layout v hbraces
  | v :: w :: vs, marks, hbraces => by
    have hvs := lined_layoutItems (w :: vs) hbraces
    refine (lined_layout v hbraces).append ?_
    rw [along_layout]
    exact .cons (.cons hvs (by decide)) (by decide)

theorem lined_layoutEntries : ∀ (es : List (String × Value)) {indent : Nat} {marks : List Mark},
    braces ⟨.plain, .brace :: marks⟩ = indent →
      Lined ⟨.plain, .brace :: marks⟩ (layoutEntries .encoded indent es)
  | [], _, _, _ => lined_of_not_mem List.not_mem_nil
  | [(k, v)], indent, _, hbraces => lined_name_append indent k (lined_layout v hbraces)
  | (k, v) :: e :: es, indent, marks, hbraces => by
    have hes := lined_layoutEntries (e :: es) hbraces
    have hline := indents_layoutEntries hbraces e es []
    rw [List.append_nil] at hline
    refine lined_name_append indent k ((lined_layout v hbraces).append ?_)
    rw [along_layout]
    exact .cons (.newline hline hes) (by decide)

end

/-! ## One line -/

/-- No object in the value holds anything. -/
inductive Flat : Value → Prop
  | number (n : Int) : Flat (.number n)
  | text (s : String) : Flat (.text s)
  | boolean (b : Bool) : Flat (.boolean b)
  | sequence {items : List Value} : (∀ v ∈ items, Flat v) → Flat (.sequence items)
  | mapping : Flat (.mapping [])

/-- An array is flat exactly if its items are. -/
theorem flat_sequence_iff {items : List Value} : (Value.sequence items).Flat ↔ ∀ v ∈ items, v.Flat := by
  constructor
  · rintro (_ | _ | _ | h)
    exact h
  · exact .sequence

mutual

/-- A value is printed on one line exactly if no object in it holds anything. -/
theorem not_mem_layout_iff : ∀ (v : Value) (indent : Nat), '\n' ∉ v.layout .encoded indent ↔ v.Flat
  | .number n, _ => iff_of_true (Decimal.not_mem_ofInt n) (.number n)
  | .text s, _ => iff_of_true (Quoting.not_mem_quote_encoded s) (.text s)
  | .boolean true, _ => iff_of_true (show '\n' ∉ "true".toList by decide) (.boolean true)
  | .boolean false, _ => iff_of_true (show '\n' ∉ "false".toList by decide) (.boolean false)
  | .sequence items, _ => by
    rw [flat_sequence_iff, ← not_mem_layoutItems_iff items]
    simp [layout]
  | .mapping [], _ => iff_of_true (show '\n' ∉ ['{', '}'] by decide) .mapping
  | .mapping (e :: es), indent => by
    refine iff_of_false (fun h => h ?_) nofun
    exact List.mem_cons_of_mem _ List.mem_cons_self

theorem not_mem_layoutItems_iff : ∀ vs : List Value,
    '\n' ∉ layoutItems .encoded vs ↔ ∀ v ∈ vs, v.Flat
  | [] => iff_of_true List.not_mem_nil nofun
  | [v] => by
    rw [List.forall_mem_singleton]
    exact not_mem_layout_iff v 0
  | v :: w :: vs => by
    rw [List.forall_mem_cons, ← not_mem_layout_iff v 0, ← not_mem_layoutItems_iff (w :: vs)]
    simp [layoutItems]

end

/-- Items on one line are their layouts at the margin, with a comma and a space between any two. -/
theorem layoutItems_eq_intercalate (q : Quoting) : ∀ vs : List Value,
    layoutItems q vs = [',', ' '].intercalate (vs.map (layout q 0))
  | [] => rfl
  | [v] => by simp [layoutItems, List.intercalate]
  | v :: w :: vs => by
    rw [layoutItems, layoutItems_eq_intercalate q (w :: vs)]
    simp [List.intercalate]

/-- What is printed with encoded strings has its lines in order. A line feed stands outside strings and directly
within a brace, never directly within a bracket; and the line behind it has two spaces for each brace that is open
within the innermost open bracket, but for the one that it closes, and no further space. A value is on one line
exactly if no object in it holds anything. The text of a sequence is the same wherever the sequence stands: the
texts of its items, each as it is printed by itself at the margin. -/
theorem print_encoded_indented :
    (∀ (v : Value) (before after : List Char), (v.print .encoded).toList = before ++ '\n' :: after →
      (Json.Walk.start.along before).Indents after) ∧
      (∀ (v : Value) (indent : Nat), '\n' ∉ v.layout .encoded indent ↔ v.Flat) ∧
      ∀ (items : List Value) (indent : Nat), (Value.sequence items).layout .encoded indent =
        '[' :: ([',', ' '].intercalate (items.map fun v => (v.print .encoded).toList) ++ [']']) := by
  have hprint (v : Value) : (v.print .encoded).toList = v.layout .encoded 0 := by
    rw [print_eq, String.toList_ofList]
  refine ⟨?_, not_mem_layout_iff, ?_⟩
  · intro v before after hsplit
    have hlined : Lined ⟨.plain, []⟩ (v.layout .encoded 0) := lined_layout v rfl
    rw [hprint] at hsplit
    exact hlined before after hsplit
  · intro items indent
    rw [layout, layoutItems_eq_intercalate]
    simp only [hprint]

/-- An instance: an object in an array in an object, with braces in its name. The line that starts within the
inner object is two spaces in, and that on which it is closed is not indented. -/
theorem print_encoded_indented_restart :
    ((Value.mapping [("a", .sequence [.mapping [("\x7b\x7b[", .number 1)]])]).print .encoded).toList =
      "\x7b\n  \"a\": [\x7b".toList ++ '\n' :: "  \"\x7b\x7b[\": 1\n\x7d]\n\x7d".toList ∧
    Json.Walk.start.along "\x7b\n  \"a\": [\x7b".toList = ⟨.plain, [.brace, .bracket, .brace]⟩ ∧
    (⟨.plain, [.brace, .bracket, .brace]⟩ : Json.Walk).Indents "  \"\x7b\x7b[\": 1\n\x7d]\n\x7d".toList := by
  obtain ⟨hlines, -, -⟩ := print_encoded_indented
  have htext : ((Value.mapping [("a", .sequence [.mapping [("\x7b\x7b[", .number 1)]])]).print
      .encoded).toList =
      "\x7b\n  \"a\": [\x7b".toList ++ '\n' :: "  \"\x7b\x7b[\": 1\n\x7d]\n\x7d".toList := by
    decide +kernel
  exact ⟨htext, by decide, hlines _ _ _ htext⟩

end Value

end HexConfig
