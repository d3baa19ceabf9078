import HexConfig.Proofs.Json.Printed

/-!
# When encoding strings changes nothing

The two ways of printing differ in the strings alone. A character stands for itself in an encoded string unless
it is a quote, a backslash or a control character, and what it becomes otherwise is longer than it is. So the
layout with encoded strings is longer than the one with strings copied as they are, by exactly what all the
strings of the value have to be escaped (`Value.length_layout`): nothing that is gained in one string is lost in
another, and the two texts are the same only if there is nothing to escape in any of them
(`Value.print_encoded_eq_iff`).
-/

namespace HexConfig

namespace Quoting

/-- A character that stands for itself in an encoded string. -/
def Bare (c : Char) : Prop := c ≠ '"' ∧ c ≠ '\\' ∧ 0x20 ≤ c.toNat

variable {c : Char} {s : String}

/-- A bare character is encoded as itself. -/
theorem encodeChar_of_bare (h : Bare c) : encodeChar c = [c] := by
  obtain ⟨hquote, hback, hplain⟩ := h
  have hne (d : Char) (hd : d.toNat < 0x20) : c ≠ d := by
    rintro rfl
    exact absurd hd (Nat.not_lt_of_le hplain)
  simp [encodeChar, hquote, hback, hne '\x08' (by decide), hne '\x0c' (by decide), hne '\n' (by decide),
    hne '\r' (by decide), hne '\t' (by decide), Nat.not_lt_of_le hplain]

/-- What a character that does not stand for itself becomes is longer. -/
theorem bare_or_lt_length_encodeChar (c : Char) : Bare c ∨ 1 < (encodeChar c).length := by
  rcases encodeChar_cases c with ⟨e, -, hc⟩ | ⟨-, hc⟩ | ⟨hquote, hback, hplain, -⟩
  · exact .inr (by simp [hc])
  · exact .inr (by simp [hc])
  · exact .inl ⟨hquote, hback, hplain⟩

/-- How many characters the encoding of a row of characters adds to it. -/
def surplusIn : List Char → Nat
  | [] => 0
  | c :: cs => ((encodeChar c).length - 1) + surplusIn cs

/-- How many characters the encoding of a text adds to it. -/
def surplus (s : String) : Nat := surplusIn s.toList

/-- Nothing is added exactly if every character stands for itself. -/
theorem surplusIn_eq_zero_iff {cs : List Char} : surplusIn cs = 0 ↔ ∀ c ∈ cs, Bare c := by
  induction cs with
  | nil => exact iff_of_true rfl (List.forall_mem_nil _)
  | cons c cs ih =>
    rw [surplusIn, Nat.add_eq_zero_iff, ih, List.forall_mem_cons]
    refine and_congr_left fun _ => ⟨fun h => ?_, fun h => ?_⟩
    · exact (bare_or_lt_length_encodeChar c).resolve_right (by omega)
    · rw [encodeChar_of_bare h]
      rfl

/-- An encoded row is longer by what the encoding adds to it. -/
theorem length_flatMap_encodeChar (cs : List Char) :
    (cs.flatMap encodeChar).length = cs.length + surplusIn cs := by
  induction cs with
  | nil => rfl
  | cons c cs ih =>
    have hpos : 1 ≤ (encodeChar c).length := by
      rcases bare_or_lt_length_encodeChar c with h | h
      · rw [encodeChar_of_bare h]
        exact Nat.le_refl 1
      · exact Nat.le_of_lt h
    rw [List.flatMap_cons, List.length_append, ih, List.length_cons, surplusIn]
    omega

/-- An encoded string is longer by as much than one that is copied as it is. -/
theorem length_quote_encoded (s : String) :
    (encoded.quote s).length = (verbatim.quote s).length + surplus s := by
  have hlength := length_flatMap_encodeChar s.toList
  simp only [quote, inside, surplus, List.length_cons, List.length_append, List.length_nil]
  omega

/-- A string of bare characters is encoded as it is. -/
theorem quote_encoded_of_bare (h : ∀ c ∈ s.toList, Bare c) : encoded.quote s = verbatim.quote s := by
  have hinside : s.toList.flatMap encodeChar = s.toList := by
    rw [List.flatMap_congr fun c hc => encodeChar_of_bare (h c hc), List.flatMap_singleton']
  simp only [quote, inside, hinside]

end Quoting

namespace Value

variable {q q' : Quoting}

mutual

/-- A value is laid out by what its strings are between their quotes. -/
theorem layout_congr : ∀ (v : Value) (indent : Nat), (∀ s ∈ v.strings, q.quote s = q'.quote s) →
    v.layout q indent = v.layout q' indent
  | .number _, _, _ => rfl
  | .text s, _, h => h s List.mem_cons_self
  | .boolean _, _, _ => rfl
  | .sequence items, _, h => by rw [layout, layout, layoutItems_congr items h]
  | .mapping [], _, _ => rfl
  | .mapping (e :: es), indent, h => by rw [layout, layout, layoutEntries_congr (e :: es) (indent + 1) h]

theorem layoutItems_congr : ∀ vs : List Value, (∀ s ∈ stringsOfItems vs, q.quote s = q'.quote s) →
    layoutItems q vs = layoutItems q' vs
  | [], _ => rfl
  | [v], h => layout_congr v 0 fun s hs => h s (List.mem_append_left _ hs)
  | v :: w :: vs, h => by
    obtain ⟨hv, hvs⟩ := List.forall_mem_append.mp h
    rw [layoutItems, layoutItems, layout_congr v 0 hv, layoutItems_congr (w :: vs) hvs]

theorem layoutEntries_congr : ∀ (es : List (String × Value)) (indent : Nat),
    (∀ s ∈ stringsOfEntries es, q.quote s = q'.quote s) → layoutEntries q indent es = layoutEntries q' indent es
  | [], _, _ => rfl
  | [(k, v)], indent, h => by
    obtain ⟨hk, h⟩ := List.forall_mem_cons.mp h
    rw [layoutEntries, layoutEntries, hk, layout_congr v indent fun s hs => h s (List.mem_append_left _ hs)]
  | (k, v) :: e :: es, indent, h => by
    obtain ⟨hk, h⟩ := List.forall_mem_cons.mp h
    obtain ⟨hv, hes⟩ := List.forall_mem_append.mp h
    rw [layoutEntries, layoutEntries, hk, layout_congr v indent hv, layoutEntries_congr (e :: es) indent hes]

end

/-- What the encoding of some strings adds to them altogether. -/
def surplusOf : List String → Nat
  | [] => 0
  | s :: ss => Quoting.surplus s + surplusOf ss

/-- What is added to strings adds up. -/
theorem surplusOf_append (ss ss' : List String) : surplusOf (ss ++ ss') = surplusOf ss + surplusOf ss' := by
  induction ss with
  | nil => rw [List.nil_append, surplusOf, Nat.zero_add]
  | cons s ss ih => rw [List.cons_append, surplusOf, surplusOf, ih, Nat.add_assoc]

/-- Nothing is added exactly if every character stands for itself. -/
theorem surplusOf_eq_zero_iff {ss : List String} :
    surplusOf ss = 0 ↔ ∀ s ∈ ss, ∀ c ∈ s.toList, Quoting.Bare c := by
  induction ss with
  | nil => exact iff_of_true rfl (List.forall_mem_nil _)
  | cons s ss ih =>
    rw [surplusOf, Nat.add_eq_zero_iff, ih, List.forall_mem_cons, Quoting.surplus, Quoting.surplusIn_eq_zero_iff]

mutual

/-- With encoded strings a layout is longer by what the encoding adds to the strings. -/
theorem length_layout : ∀ (v : Value) (indent : Nat),
    (v.layout .encoded indent).length = (v.layout .verbatim indent).length + surplusOf v.strings
  | .number _, _ => rfl
  | .text s, _ => Quoting.length_quote_encoded s
  | .boolean _, _ => rfl
  | .sequence items, _ => by
    have hitems := length_layoutItems items
    simp only [layout, strings, List.length_cons, List.length_append, List.length_nil]
    omega
  | .mapping [], _ => rfl
  | .mapping (e :: es), indent => by
    have hentries := length_layoutEntries (e :: es) (indent + 1)
    simp only [layout, strings, List.length_cons, List.length_append, List.length_nil]
    omega

theorem length_layoutItems : ∀ vs : List Value,
    (layoutItems .encoded vs).length = (layoutItems .verbatim vs).length + surplusOf (stringsOfItems vs)
  | [] => rfl
  | [v] => by
    rw [stringsOfItems, surplusOf_append]
    exact length_layout v 0
  | v :: w :: vs => by
    have hv := length_layout v 0
    have hvs := length_layoutItems (w :: vs)
    rw [stringsOfItems, surplusOf_append]
    simp only [layoutItems, List.length_cons, List.length_append]
    omega

theorem length_layoutEntries : ∀ (es : List (String × Value)) (indent : Nat),
    (layoutEntries .encoded indent es).length =
      (layoutEntries .verbatim indent es).length + surplusOf (stringsOfEntries es)
  | [], _ => rfl
  | [(k, v)], indent => by
    have hk := Quoting.length_quote_encoded k
    have hv := length_layout v indent
    rw [stringsOfEntries, stringsOfEntries, List.append_nil, surplusOf]
    simp only [layoutEntries, List.length_cons, List.length_append]
    omega
  | (k, v) :: e :: es, indent => by
    have hk := Quoting.length_quote_encoded k
    have hv := length_layout v indent
    have hes := length_layoutEntries (e :: es) indent
    rw [stringsOfEntries, surplusOf, surplusOf_append]
    simp only [layoutEntries, List.length_cons, List.length_append]
    omega

end

/-- Both ways of printing give the same text exactly if every character of every string stands for itself. -/
theorem print_encoded_eq_iff (v : Value) :
    v.print .encoded = v.print .verbatim ↔ ∀ s ∈ v.strings, ∀ c ∈ s.toList, Quoting.Bare c := by
  rw [print_eq, print_eq, String.ofList_inj]
  constructor
  · intro h
    have hlength := length_layout v 0
    rw [h] at hlength
    exact surplusOf_eq_zero_iff.mp (by omega)
  · intro h
    exact layout_congr v 0 fun s hs => Quoting.quote_encoded_of_bare (h s hs)

end Value

end HexConfig
