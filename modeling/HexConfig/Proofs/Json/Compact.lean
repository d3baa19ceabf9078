import HexConfig.Proofs.Entries
import HexConfig.Proofs.Json.Walk

/-!
# The layout without its blanks

A value is printed in two ways that know nothing of each other: laid out over lines, and as the compact text
of its structured view. They differ in blanks alone. What is left of the layout when every space and every line
feed outside the strings is taken out is the compact text (`Value.unspaced_print_encoded`), with the same names
in the same order.

Which blanks are outside the strings is found by a walk along the text. Since the layout of a value is balanced,
what is taken out of one part does not depend on the parts before it, and the two traversals of the value go
along with each other.
-/

namespace HexConfig

namespace Json

/-- What is ahead without the spaces and the line feeds that are outside strings. -/
def Walk.unspaced (w : Walk) : List Char → List Char
  | [] => []
  | c :: cs =>
    if w.zone = .plain ∧ (c = ' ' ∨ c = '\n') then (w.step c).unspaced cs
    else c :: (w.step c).unspaced cs

/-- A text without the spaces and the line feeds that are outside its strings. -/
def unspaced (text : String) : String := String.ofList (Walk.start.unspaced text.toList)

namespace Walk

variable {w : Walk} {c : Char} {cs ds : List Char} {marks : List Mark}

theorem unspaced_append (w : Walk) (cs ds : List Char) :
    w.unspaced (cs ++ ds) = w.unspaced cs ++ (w.along cs).unspaced ds := by
  induction cs generalizing w with
  | nil => rfl
  | cons c cs ih =>
    rw [List.cons_append, unspaced, unspaced, ih, along_cons]
    split
    · rfl
    · rfl

/-- Outside strings blanks are taken out, -/
theorem unspaced_blanks_append (hcs : ∀ c ∈ cs, c = ' ' ∨ c = '\n') (ds : List Char) :
    unspaced ⟨.plain, marks⟩ (cs ++ ds) = unspaced ⟨.plain, marks⟩ ds := by
  induction cs with
  | nil => rfl
  | cons c cs ih =>
    obtain ⟨hc, hcs⟩ := List.forall_mem_cons.mp hcs
    have hidle : Idle c := by rcases hc with rfl | rfl <;> decide
    rw [List.cons_append, unspaced, if_pos ⟨rfl, hc⟩, step_idle hidle, ih hcs]

/-- and everything else is left. -/
theorem unspaced_cons (hspace : c ≠ ' ') (hline : c ≠ '\n') (w : Walk) (cs : List Char) :
    w.unspaced (c :: cs) = c :: (w.step c).unspaced cs := by
  rw [unspaced, if_neg]
  rintro ⟨-, hc⟩
  exact hc.elim hspace hline

/-- In strings everything is left. -/
theorem unspaced_cons_of_zone (hzone : w.zone ≠ .plain) (c : Char) (cs : List Char) :
    w.unspaced (c :: cs) = c :: (w.step c).unspaced cs := by
  rw [unspaced, if_neg]
  exact fun h => hzone h.1

theorem unspaced_idle (hcs : ∀ c ∈ cs, Idle c ∧ c ≠ ' ' ∧ c ≠ '\n') :
    unspaced ⟨.plain, marks⟩ cs = cs := by
  induction cs with
  | nil => rfl
  | cons c cs ih =>
    obtain ⟨⟨hidle, hc⟩, hcs⟩ := List.forall_mem_cons.mp hcs
    rw [unspaced_cons hc.1 hc.2, step_idle hidle, ih hcs]

/-- A character of a string is left, whatever it is encoded as. -/
theorem unspaced_encodeChar (c : Char) :
    unspaced ⟨.string, marks⟩ (Quoting.encodeChar c) = Quoting.encodeChar c := by
  have hstring : (⟨.string, marks⟩ : Walk).zone ≠ .plain := Zone.noConfusion
  rcases Quoting.encodeChar_cases c with ⟨e, -, hc⟩ | ⟨hcontrol, hc⟩ | ⟨hquote, hback, -, hc⟩
  · rw [hc, unspaced_cons_of_zone hstring]
    rfl
  · rw [hc]
    show '\\' :: 'u' :: '0' :: '0' :: unspaced ⟨.string, marks⟩ [_, _] = _
    rw [unspaced_cons_of_zone hstring, step_ofDigit (by omega), unspaced_cons_of_zone hstring]
    rfl
  · rw [hc, unspaced_cons_of_zone hstring]
    rfl

/-- A string is left as it is. -/
theorem unspaced_quote (s : String) :
    unspaced ⟨.plain, marks⟩ (Quoting.encoded.quote s) = Quoting.encoded.quote s := by
  have hinside (cs : List Char) : unspaced ⟨.string, marks⟩ (cs.flatMap Quoting.encodeChar ++ ['"']) =
      cs.flatMap Quoting.encodeChar ++ ['"'] := by
    induction cs with
    | nil => rfl
    | cons c cs ih =>
      rw [List.flatMap_cons, List.append_assoc, unspaced_append, unspaced_encodeChar, along_encodeChar, ih]
  rw [Quoting.quote, unspaced_cons (by decide) (by decide)]
  exact congrArg ('"' :: ·) (hinside s.toList)

/-- Brackets are left, with what is left between them. -/
theorem unspaced_brackets (cs : List Char)
    (hcs : along ⟨.plain, .bracket :: marks⟩ cs = ⟨.plain, .bracket :: marks⟩) :
    unspaced ⟨.plain, marks⟩ ('[' :: (cs ++ [']'])) =
      '[' :: (unspaced ⟨.plain, .bracket :: marks⟩ cs ++ [']']) := by
  rw [unspaced_cons (by decide) (by decide)]
  show '[' :: unspaced ⟨.plain, .bracket :: marks⟩ (cs ++ [']']) = _
  rw [unspaced_append, hcs]
  rfl

end Walk

end Json

/-! ## Values -/

namespace Value

open Json Json.Walk

variable {marks : List Mark}

theorem compact_number (n : Int) : (Json.number n 0).compact = Decimal.ofInt n :=
  List.append_nil _

/-- A number holds no blanks. -/
theorem unspaced_ofInt (n : Int) : unspaced ⟨.plain, marks⟩ (Decimal.ofInt n) = Decimal.ofInt n := by
  apply unspaced_idle
  intro c hc
  refine ⟨idle_of_mem_ofInt hc, ?_, ?_⟩
  · rintro rfl
    exact absurd (Decimal.mem_ofInt hc) (by decide)
  · rintro rfl
    exact absurd (Decimal.mem_ofInt hc) (by decide)

/-- Of the name of an entry the blanks around it are taken out. -/
theorem unspaced_name_append (indent : Nat) (k : String) (cs : List Char) :
    unspaced ⟨.plain, marks⟩ (margin indent ++ (Quoting.encoded.quote k ++ ':' :: ' ' :: cs)) =
      Quoting.encoded.quote k ++ ':' :: unspaced ⟨.plain, marks⟩ cs := by
  have hmargin : ∀ c ∈ margin indent, c = ' ' ∨ c = '\n' := fun c hc => .inl (List.eq_of_mem_replicate hc)
  rw [unspaced_blanks_append hmargin, unspaced_append, unspaced_quote, along_quote,
    unspaced_cons (by decide) (by decide)]
  rfl

mutual

/-- The layout of a value without its blanks is the compact text of the structured view. -/
theorem unspaced_layout : ∀ (v : Value) (indent : Nat) (marks : List Mark),
    unspaced ⟨.plain, marks⟩ (v.layout .encoded indent) = v.toJson.compact
  | .number n, _, _ => (unspaced_ofInt n).trans (compact_number n).symm
  | .text s, _, _ => unspaced_quote s
  | .boolean true, _, _ =>
    unspaced_idle (show ∀ c ∈ "true".toList, Idle c ∧ c ≠ ' ' ∧ c ≠ '\n' by simp [Idle])
  | .boolean false, _, _ =>
    unspaced_idle (show ∀ c ∈ "false".toList, Idle c ∧ c ≠ ' ' ∧ c ≠ '\n' by simp [Idle])
  | .sequence items, _, marks => by
    have hitems := unspaced_brackets _ (along_layoutItems items (.bracket :: marks))
    rw [unspaced_layoutItems items] at hitems
    exact hitems
  | .mapping [], _, _ => rfl
  | .mapping (e :: es), indent, marks => by
    have hentries := unspaced_layoutEntries (e :: es) (indent + 1) (.brace :: marks)
    have hclosed := along_layoutEntries (e :: es) (indent + 1) (.brace :: marks)
    have hmargin : ∀ c ∈ '\n' :: margin indent, c = ' ' ∨ c = '\n' :=
      List.forall_mem_cons.mpr ⟨.inr rfl, fun c hc => .inl (List.eq_of_mem_replicate hc)⟩
    rw [layout, unspaced_cons (by decide) (by decide)]
    show '{' :: unspaced ⟨.plain, .brace :: marks⟩ (layoutEntries _ _ _ ++ ('\n' :: margin indent ++ ['}'])) = _
    rw [unspaced_append, hentries, hclosed, unspaced_blanks_append hmargin]
    rfl

theorem unspaced_layoutItems : ∀ (vs : List Value) (marks : List Mark),
    unspaced ⟨.plain, marks⟩ (layoutItems .encoded vs) = compactItems (toJsonItems vs)
  | [], _ => rfl
  | [v], marks => unspaced_layout v 0 marks
  | v :: w :: vs, marks => by
    rw [layoutItems, unspaced_append, unspaced_layout v, along_layout v, unspaced_cons (by decide) (by decide)]
    exact congrArg (v.toJson.compact ++ ',' :: ·) (unspaced_layoutItems (w :: vs) marks)

theorem unspaced_layoutEntries : ∀ (es : List (String × Value)) (indent : Nat) (marks : List Mark),
    unspaced ⟨.plain, marks⟩ (layoutEntries .encoded indent es) = compactMembers (toJsonMembers es)
  | [], _, _ => rfl
  | [(k, v)], indent, marks => by
    rw [layoutEntries, unspaced_name_append, unspaced_layout v]
    rfl
  | (k, v) :: e :: es, indent, marks => by
    rw [layoutEntries, unspaced_name_append, unspaced_append, unspaced_layout v, along_layout v,
      unspaced_cons (by decide) (by decide)]
    exact congrArg (fun cs => Quoting.encoded.quote k ++ ':' :: (v.toJson.compact ++ ',' :: cs))
      (unspaced_layoutEntries (e :: es) indent marks)

end

theorem unspaced_print (v : Value) : Json.unspaced (v.print .encoded) = v.toJson.toText := by
  rw [Json.unspaced, print_eq, String.toList_ofList, start, unspaced_layout]
  rfl

/-- Members put into an ordered map one by one, in the order of the entries that they stand for, stay in that
order. -/
theorem ofList_toJsonMembers {es : Entries Value} (h : es.Sorted) :
    Entries.ofList (toJsonMembers es) = toJsonMembers es := by
  apply Entries.ofList_of_perm _ (.refl _)
  rw [toJsonMembers_eq_map]
  exact List.pairwise_map.mpr h

theorem keys_toJsonMembers (es : Entries Value) : Entries.keys (toJsonMembers es) = es.keys := by
  rw [toJsonMembers_eq_map, Entries.keys, List.map_map]
  rfl

/-- What is printed of a value or of a document with encoded strings is, without the spaces and the line feeds
outside the strings, the compact text of the structured view. Of every mapping, at whatever level, the structured
view has the names in the order in which the mapping has them, and an ordered map of the members has them in that
order too. -/
theorem unspaced_print_encoded :
    (∀ v : Value, Json.unspaced (v.print .encoded) = v.toJson.toText) ∧
      (∀ d : Document, Json.unspaced (d.print .encoded) = d.toJson.toText) ∧
      ∀ es : Entries Value, es.Sorted →
        Entries.keys (toJsonMembers es) = es.keys ∧
          Entries.ofList (toJsonMembers es) = toJsonMembers es := by
  refine ⟨unspaced_print, ?_, ?_⟩
  · intro d
    exact unspaced_print d.toValue
  · intro es hsorted
    exact ⟨keys_toJsonMembers es, ofList_toJsonMembers hsorted⟩

/-- An instance: blanks, a quote and marks in a string, which stay, next to an object that was laid out over
lines. -/
theorem unspaced_print_encoded_marks :
    Json.unspaced ((Value.mapping [("a", .sequence [.text "\" ]\n\\", .mapping [("b", .number (-1))]]),
        ("c d", .mapping [])]).print .encoded) =
      "\x7b\"a\":[\"\\\" ]\\n\\\\\",\x7b\"b\":-1\x7d],\"c d\":\x7b\x7d\x7d" ∧
    Entries.Sorted [("a", Value.number 1), ("c d", .mapping [])] ∧
    Entries.ofList (toJsonMembers [("a", Value.number 1), ("c d", .mapping [])]) =
      toJsonMembers [("a", Value.number 1), ("c d", .mapping [])] := by
  obtain ⟨hvalue, -, hmembers⟩ := unspaced_print_encoded
  have hsorted : Entries.Sorted [("a", Value.number 1), ("c d", .mapping [])] :=
    List.pairwise_pair.mpr (show "a" < "c d" by decide)
  exact ⟨(hvalue _).trans (by decide +kernel), hsorted, (hmembers _ hsorted).2⟩

end Value

end HexConfig
