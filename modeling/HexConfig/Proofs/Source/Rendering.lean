import HexConfig.Proofs.Reader.Image
import HexConfig.Proofs.Source.Expansion
import HexConfig.Proofs.Token.Laid
import HexConfig.Proofs.Value.Measure
import Mathlib.Data.Nat.Digits.Defs

/-!
# Writing values out

A value can be written as a term in many ways: a number by its hexadecimal digits, in either letter case
and with any zeros in front, and the entries of a mapping in any order (`Term.Renders`). A document is
written entry by entry, in any order as well (`Document.Rendered`).

Whichever way that is done, the term means the value if the value can be written at all
(`value?_of_renders`), and it is as deep and counts as much as the value does: nothing is replaced in a
mapping whose names are written once each.
-/

namespace HexConfig

/-! ## Digits -/

namespace Hex

/-- Letter case makes no difference to a digit. -/
theorem digit_toLower (c : Char) : digit c.toLower = digit c ∧ isDigit c.toLower = isDigit c := by
  have hupper : ∀ n < 91, 65 ≤ n → digit (Char.ofNat n).toLower = digit (Char.ofNat n) ∧
      isDigit (Char.ofNat n).toLower = isDigit (Char.ofNat n) := by decide
  by_cases h : c.val ≥ 'A'.val ∧ c.val ≤ 'Z'.val
  · have hc := hupper c.toNat (Nat.lt_succ_of_le h.2) h.1
    rwa [Char.ofNat_toNat] at hc
  · have hsame : c.toLower = c := dif_neg h
    rw [hsame]
    exact ⟨rfl, rfl⟩

theorem digit_digitChar {n : Nat} (h : n < 16) :
    digit n.digitChar = n ∧ isDigit n.digitChar = true := by
  have hall : ∀ n < 16, digit n.digitChar = n ∧ isDigit n.digitChar = true := by decide
  exact hall n h

/-- One more digit behind the others. -/
theorem value_concat (cs : List Char) (c : Char) : value (cs ++ [c]) = 16 * value cs + digit c := by
  rw [value, List.foldl_append]
  rfl

/-- The digits of a number are digits, and worth that number. -/
theorem value_toDigits (n : Nat) :
    value (Nat.toDigits 16 n) = n ∧ ∀ c ∈ Nat.toDigits 16 n, isDigit c = true := by
  induction n using Nat.strongRecOn with
  | ind n ih =>
    rcases Nat.lt_or_ge n 16 with h | h
    · obtain ⟨hdigit, hisDigit⟩ := digit_digitChar h
      rw [Nat.toDigits_of_lt_base h]
      refine ⟨?_, List.forall_mem_singleton.mpr hisDigit⟩
      rw [← List.nil_append [n.digitChar], value_concat, hdigit]
      exact Nat.zero_add n
    · obtain ⟨hvalue, hall⟩ := ih (n / 16) (by omega)
      obtain ⟨hdigit, hisDigit⟩ := digit_digitChar (Nat.mod_lt n (by decide : 16 > 0))
      rw [Nat.toDigits_of_base_le (by decide) h]
      refine ⟨?_, List.forall_mem_append.mpr ⟨hall, List.forall_mem_singleton.mpr hisDigit⟩⟩
      rw [value_concat, hvalue, hdigit, Nat.div_add_mod]

/-- Zeros in front are worth nothing. -/
theorem value_zeros_append (zeros : Nat) (cs : List Char) :
    value (List.replicate zeros '0' ++ cs) = value cs := by
  induction zeros with
  | zero => rfl
  | succ n ih =>
    rw [List.replicate_succ, List.cons_append, ← ih]
    rfl

/-- Letter case makes no difference to what digits are worth. -/
theorem value_map_toLower (cs : List Char) : value (cs.map Char.toLower) = value cs := by
  rw [value, List.foldl_map, value]
  simp only [digit_toLower]

/-- Digits that write a number in either letter case, with any zeros in front. -/
def Writes (digits : String) (n : Nat) : Prop :=
  ∃ zeros, digits.toList.map Char.toLower = List.replicate zeros '0' ++ Nat.toDigits 16 n

variable {digits : String} {n : Nat}

/-- Digits that write a number are worth it. -/
theorem Writes.value (h : Writes digits n) : Hex.value digits.toList = n := by
  obtain ⟨zeros, h⟩ := h
  rw [← value_map_toLower, h, value_zeros_append, (value_toDigits n).1]

/-- Whatever writes a number consists of digits. -/
theorem Writes.isDigit (h : Writes digits n) : ∀ c ∈ digits.toList, Hex.isDigit c = true := by
  obtain ⟨zeros, h⟩ := h
  intro c hc
  have hlower : c.toLower ∈ digits.toList.map Char.toLower := List.mem_map_of_mem hc
  rw [h] at hlower
  rw [← (digit_toLower c).2]
  rcases List.mem_append.mp hlower with hzero | hdigit
  · rw [(List.mem_replicate.mp hzero).2]
    rfl
  · exact (value_toDigits n).2 _ hdigit

/-- There is no number that no digit writes. -/
theorem Writes.ne_empty (h : Writes digits n) : digits ≠ "" := by
  rintro rfl
  obtain ⟨zeros, h⟩ := h
  exact Nat.toDigits_ne_nil (List.append_eq_nil_iff.mp h.symm).2

end Hex

/-! ## Values -/

mutual

/-- The term writes the value out. -/
inductive Term.Renders : Term → Value → Prop
  | number {digits : String} {n : Nat} : Hex.Writes digits n → Renders (.number digits) (.number n)
  | text (s : String) : Renders (.string s) (.text s)
  | boolean (b : Bool) : Renders (.string (if b then "true" else "false")) (.boolean b)
  | array {items : List Term} {vs : List Value} : Term.RenderItems items vs →
      Renders (.array items) (.sequence vs)
  | object {fs : List (String × Term)} {order es : List (String × Value)} : order.Perm es →
      Term.RenderEntries fs order → Renders (.object fs) (.mapping es)

/-- The terms write the items out, one each. -/
inductive Term.RenderItems : List Term → List Value → Prop
  | nil : RenderItems [] []
  | cons {t : Term} {v : Value} {ts : List Term} {vs : List Value} : Term.Renders t v →
      Term.RenderItems ts vs → RenderItems (t :: ts) (v :: vs)

/-- The entries are written out, one by one and in this order. -/
inductive Term.RenderEntries : List (String × Term) → List (String × Value) → Prop
  | nil : RenderEntries [] []
  | cons {k : String} {t : Term} {v : Value} {fs : List (String × Term)}
      {es : List (String × Value)} : Term.Renders t v → Term.RenderEntries fs es →
      RenderEntries ((k, t) :: fs) ((k, v) :: es)

end

/-- The program writes the document out, entry by entry. -/
def Document.Rendered (d : Document) (p : Program) : Prop :=
  ∃ order fs, order.Perm d.entries ∧ Term.RenderEntries fs order ∧
    p = fs.map fun f => Declaration.entry f.1 f.2

namespace Term

/-- Digits that write a number in the range of numbers mean it. -/
theorem numberOf?_of_writes {digits : String} {n : Nat} (h : Hex.Writes digits n)
    (hn : n < Integer.signedBound) : numberOf? digits = some (n : Int) := by
  rw [numberOf?, if_neg h.ne_empty, h.value, if_pos hn]

/-- The word of a boolean is read as the boolean. -/
theorem ofString_boolean (b : Bool) :
    Value.ofString (if b then "true" else "false") = .boolean b := by
  cases b
  · rfl
  · rfl

mutual

/-- A term that writes a value out means it. -/
theorem value?_of_renders : ∀ {t : Term} {v : Value}, t.Renders v → v.Writable →
    t.value? = some v
  | .number _, _, .number hdigits, hv => by
    cases hv with
    | number hn => rw [value?, numberOf?_of_writes hdigits hn, Option.map_some]
  | .string _, _, .text s, hv => by
    cases hv with
    | text _ htrue hfalse => rw [value?, Value.ofString, if_neg htrue, if_neg hfalse]
  | .string _, _, .boolean b, _ => by rw [value?, ofString_boolean]
  | .array items, _, .array hitems, hv => by
    cases hv with
    | sequence hvs => exact value?_array_eq_some.mpr ⟨_, itemsOf?_of_renders hitems hvs, rfl⟩
  | .object fs, _, .object hperm hfs, hv => by
    cases hv with
    | mapping hsorted _ hvs =>
      have hvs' := fun e he => hvs e (hperm.subset he)
      refine value?_object_eq_some.mpr ⟨_, entriesOf?_of_renders hfs hvs' [], ?_⟩
      exact congrArg _ (Entries.ofList_of_perm hsorted hperm)

theorem itemsOf?_of_renders : ∀ {ts : List Term} {vs : List Value}, RenderItems ts vs →
    (∀ v ∈ vs, v.Writable) → itemsOf? ts = some vs
  | [], _, .nil, _ => rfl
  | t :: ts, _, .cons ht hts, hvs => by
    obtain ⟨hv, hvs⟩ := List.forall_mem_cons.mp hvs
    exact itemsOf?_cons_eq_some.mpr
      ⟨_, _, value?_of_renders ht hv, itemsOf?_of_renders hts hvs, rfl⟩

theorem entriesOf?_of_renders : ∀ {fs : List (String × Term)} {es : List (String × Value)},
    RenderEntries fs es → (∀ e ∈ es, e.2.Writable) → ∀ before : Entries Value,
      entriesOf? before fs = some (es.foldl (fun es e => Entries.write e.1 e.2 es) before)
  | [], _, .nil, _, _ => rfl
  | (k, t) :: fs, _, .cons ht hfs, hvs, before => by
    obtain ⟨hv, hvs⟩ := List.forall_mem_cons.mp hvs
    exact entriesOf?_cons_eq_some.mpr
      ⟨_, value?_of_renders ht hv, entriesOf?_of_renders hfs hvs _⟩

end

/-! ## Measures -/

mutual

/-- What writes a value out is as deep as the value, and counts as much. -/
theorem measure_of_renders : ∀ {t : Term} {v : Value}, t.Renders v →
    t.nest = v.nesting ∧ t.cost = v.nodes
  | .number _, _, .number _ => ⟨rfl, rfl⟩
  | .string _, _, .text _ => ⟨rfl, rfl⟩
  | .string _, _, .boolean _ => ⟨rfl, rfl⟩
  | .array items, _, .array hitems => by
    obtain ⟨hnest, hcost⟩ := measure_of_renderItems hitems
    exact ⟨congrArg (· + 1) hnest, congrArg (· + 1) hcost⟩
  | .object fs, _, .object hperm hfs => by
    obtain ⟨hnest, hcost⟩ := measure_of_renderEntries hfs
    exact ⟨congrArg (· + 1) (hnest.trans (Value.nestingOfEntries_perm hperm)),
      congrArg (· + 1) (hcost.trans (Value.nodesOfEntries_perm hperm))⟩

theorem measure_of_renderItems : ∀ {ts : List Term} {vs : List Value}, RenderItems ts vs →
    nestOfItems ts = Value.nestingOfItems vs ∧ costOfItems ts = Value.nodesOfItems vs
  | [], _, .nil => ⟨rfl, rfl⟩
  | t :: ts, _, .cons ht hts => by
    obtain ⟨hnest, hcost⟩ := measure_of_renders ht
    obtain ⟨hnest', hcost'⟩ := measure_of_renderItems hts
    rw [nestOfItems, costOfItems, hnest, hcost, hnest', hcost']
    exact ⟨rfl, rfl⟩

theorem measure_of_renderEntries : ∀ {fs : List (String × Term)} {es : List (String × Value)},
    RenderEntries fs es →
      nestOfEntries fs = Value.nestingOfEntries es ∧ costOfEntries fs = Value.nodesOfEntries es
  | [], _, .nil => ⟨rfl, rfl⟩
  | (k, t) :: fs, _, .cons ht hfs => by
    obtain ⟨hnest, hcost⟩ := measure_of_renders ht
    obtain ⟨hnest', hcost'⟩ := measure_of_renderEntries hfs
    rw [nestOfEntries, costOfEntries, hnest, hcost, hnest', hcost']
    exact ⟨rfl, rfl⟩

end

/-! ## Words -/

/-- A sign is a word that texts have. -/
theorem occurs_sign {kind : Token.Kind} {s : String} (h : kind.sign? = some s)
    (hkind : kind ≠ .global) : Word.Occurs (kind, s) :=
  ⟨_, [], .sign h hkind⟩

mutual

/-- The words that write out a value that can be written are words that texts have. -/
theorem occurs_of_renders : ∀ {t : Term} {v : Value}, t.Renders v → v.Writable →
    ∀ w ∈ t.words, w.Occurs
  | .number _, _, .number hdigits, _ =>
    List.forall_mem_singleton.mpr (Word.Proper.occurs hdigits.isDigit nofun)
  | .string _, _, .text s, hv => by
    cases hv with
    | text hquote => exact List.forall_mem_singleton.mpr (Word.Proper.occurs hquote nofun)
  | .string _, _, .boolean b, _ => by
    have hquote : '"' ∉ (if b then "true" else "false").toList := by cases b <;> decide
    exact List.forall_mem_singleton.mpr (Word.Proper.occurs hquote nofun)
  | .array items, _, .array hitems, hv => by
    cases hv with
    | sequence hvs =>
      have hclose : Word.Occurs (.rightParen, ")") := occurs_sign rfl nofun
      have hinside := List.forall_mem_append.mpr
        ⟨occurs_of_renderItems hitems hvs, List.forall_mem_singleton.mpr hclose⟩
      exact List.forall_mem_cons.mpr ⟨occurs_sign rfl nofun,
        List.forall_mem_cons.mpr ⟨occurs_sign rfl nofun, hinside⟩⟩
  | .object fs, _, .object hperm hfs, hv => by
    cases hv with
    | mapping _ hnames hvs =>
      have hentries := occurs_of_renderEntries hfs (fun e he => hnames e (hperm.subset he))
        fun e he => hvs e (hperm.subset he)
      have hclose : Word.Occurs (.rightBrace, "\x7d") := occurs_sign rfl nofun
      have hinside := List.forall_mem_append.mpr
        ⟨hentries, List.forall_mem_singleton.mpr hclose⟩
      exact List.forall_mem_cons.mpr ⟨occurs_sign rfl nofun, hinside⟩

theorem occurs_of_renderItems : ∀ {ts : List Term} {vs : List Value}, RenderItems ts vs →
    (∀ v ∈ vs, v.Writable) → ∀ w ∈ wordsOfItems ts, w.Occurs
  | [], _, .nil, _ => fun _ h => absurd h List.not_mem_nil
  | t :: ts, _, .cons ht hts, hvs => by
    obtain ⟨hv, hvs⟩ := List.forall_mem_cons.mp hvs
    exact List.forall_mem_append.mpr ⟨occurs_of_renders ht hv, occurs_of_renderItems hts hvs⟩

theorem occurs_of_renderEntries : ∀ {fs : List (String × Term)} {es : List (String × Value)},
    RenderEntries fs es → (∀ e ∈ es, IsName e.1) → (∀ e ∈ es, e.2.Writable) →
      ∀ w ∈ wordsOfEntries fs, w.Occurs
  | [], _, .nil, _, _ => fun _ h => absurd h List.not_mem_nil
  | (k, t) :: fs, _, .cons ht hfs, hnames, hvs => by
    obtain ⟨hk, hnames⟩ := List.forall_mem_cons.mp hnames
    obtain ⟨hv, hvs⟩ := List.forall_mem_cons.mp hvs
    have hrest := List.forall_mem_append.mpr
      ⟨occurs_of_renders ht hv, occurs_of_renderEntries hfs hnames hvs⟩
    exact List.forall_mem_cons.mpr ⟨Word.Proper.occurs hk nofun,
      List.forall_mem_cons.mpr ⟨occurs_sign rfl nofun, hrest⟩⟩

end

end Term

end HexConfig
