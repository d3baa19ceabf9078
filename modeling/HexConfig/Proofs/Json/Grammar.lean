import HexConfig.Json.Parse

/-!
# The grammar of JSON texts

What RFC 8259 calls a JSON text, as derivations of rows of characters, with the value that each row
stands for and no reader in sight. `Json.IsText` is the top of it: a value with blanks around.

The grammar is given for either kind of quoting. With `Quoting.encoded` it is that of the RFC. With
`Quoting.verbatim` only strings differ: between two quotes stand any characters but a quote, and each
of them stands for itself.

A number stands for its digits, those behind the point among them, times a power of ten. An escape
that names half of a surrogate pair stands for no character, so the rows that hold one alone are not
derived; the RFC leaves open what becomes of them.
-/

namespace HexConfig.Json

/-- Blanks and nothing else. -/
def Blank (bs : List Char) : Prop := ∀ b ∈ bs, isBlank b = true

/-- Decimal digits, at least one. -/
def Digits (ds : List Char) : Prop := ds ≠ [] ∧ ∀ d ∈ ds, d.isDigit = true

/-! ## Strings -/

/-- The characters inside an encoded string, and the text they stand for. -/
inductive Encodes : List Char → List Char → Prop
  | nil : Encodes [] []
  | plain {c : Char} {cs s : List Char} : c ≠ '"' → c ≠ '\\' → 0x20 ≤ c.toNat → Encodes cs s →
      Encodes (c :: cs) (c :: s)
  | letter {e c : Char} {cs s : List Char} : escaped? e = some c → Encodes cs s →
      Encodes ('\\' :: e :: cs) (c :: s)
  | unit {a b c d : Char} {n : Nat} {cs s : List Char} : unit? a b c d = some n →
      isHighSurrogate n = false → isLowSurrogate n = false → Encodes cs s →
      Encodes ('\\' :: 'u' :: a :: b :: c :: d :: cs) (Char.ofNat n :: s)
  | pair {a b c d e f g h : Char} {n m : Nat} {cs s : List Char} : unit? a b c d = some n →
      isHighSurrogate n = true → unit? e f g h = some m → isLowSurrogate m = true →
      Encodes cs s →
      Encodes ('\\' :: 'u' :: a :: b :: c :: d :: '\\' :: 'u' :: e :: f :: g :: h :: cs)
        (Char.ofNat (0x10000 + 0x400 * (n - 0xd800) + (m - 0xdc00)) :: s)

/-- The characters between two quotes, and the text they stand for. -/
def Inside : Quoting → List Char → List Char → Prop
  | .encoded, cs, s => Encodes cs s
  | .verbatim, cs, s => cs = s ∧ '"' ∉ cs

/-! ## Numbers -/

/-- The whole part of a number: one digit, or more of which the first is not zero. -/
def Whole (ds : List Char) : Prop := Digits ds ∧ (ds.head? = some '0' → ds.length = 1)

/-- The fraction of a number, by its digits; there may be none. -/
inductive Fraction : List Char → List Char → Prop
  | absent : Fraction [] []
  | present {ds : List Char} : Digits ds → Fraction ('.' :: ds) ds

/-- The exponent of a number, by the power of ten; there may be none. -/
inductive Exponent : List Char → Int → Prop
  | absent : Exponent [] 0
  | plain {mark : Char} {ds : List Char} : mark = 'e' ∨ mark = 'E' → Digits ds →
      Exponent (mark :: ds) (Decimal.value ds)
  | plus {mark : Char} {ds : List Char} : mark = 'e' ∨ mark = 'E' → Digits ds →
      Exponent (mark :: '+' :: ds) (Decimal.value ds)
  | minus {mark : Char} {ds : List Char} : mark = 'e' ∨ mark = 'E' → Digits ds →
      Exponent (mark :: '-' :: ds) (-(Decimal.value ds : Int))

/-- A number behind its sign, which is part of `sign`. -/
inductive Magnitude (sign : Int) : List Char → Json → Prop
  | parts {ds frac fs exp : List Char} {e : Int} : Whole ds → Fraction frac fs → Exponent exp e →
      Magnitude sign (ds ++ (frac ++ exp)) (.number (sign * Decimal.value (ds ++ fs)) (e - fs.length))

/-- A number. -/
inductive Numeral : List Char → Json → Prop
  | negative {cs : List Char} {j : Json} : Magnitude (-1) cs j → Numeral ('-' :: cs) j
  | positive {cs : List Char} {j : Json} : Magnitude 1 cs j → Numeral cs j

/-! ## Values -/

/-- What a row of characters can be part of a text as. -/
inductive Part where
  /-- A value. -/
  | value (j : Json)
  /-- A value with blanks around it. -/
  | item (j : Json)
  /-- Values with commas between them, at least one. -/
  | items (js : List Json)
  /-- A name with a value, and blanks around both. -/
  | member (m : String × Json)
  /-- Names with values and commas between them, at least one. -/
  | members (ms : List (String × Json))

/-- The rows of characters that the grammar derives. -/
inductive Derives (q : Quoting) : Part → List Char → Prop
  | null : Derives q (.value .null) ['n', 'u', 'l', 'l']
  | yes : Derives q (.value (.boolean true)) ['t', 'r', 'u', 'e']
  | no : Derives q (.value (.boolean false)) ['f', 'a', 'l', 's', 'e']
  | number {cs : List Char} {j : Json} : Numeral cs j → Derives q (.value j) cs
  | string {cs s : List Char} : Inside q cs s →
      Derives q (.value (.string (String.ofList s))) ('"' :: (cs ++ ['"']))
  | emptyArray {bs : List Char} : Blank bs → Derives q (.value (.array [])) ('[' :: (bs ++ [']']))
  | array {js : List Json} {cs : List Char} : Derives q (.items js) cs →
      Derives q (.value (.array js)) ('[' :: (cs ++ [']']))
  | emptyObject {bs : List Char} : Blank bs → Derives q (.value (.object [])) ('{' :: (bs ++ ['}']))
  | object {ms : List (String × Json)} {cs : List Char} : Derives q (.members ms) cs →
      Derives q (.value (.object ms)) ('{' :: (cs ++ ['}']))
  | spaced {j : Json} {bs cs ds : List Char} : Blank bs → Derives q (.value j) cs → Blank ds →
      Derives q (.item j) (bs ++ (cs ++ ds))
  | lastItem {j : Json} {cs : List Char} : Derives q (.item j) cs → Derives q (.items [j]) cs
  | moreItems {j : Json} {js : List Json} {cs ds : List Char} : Derives q (.item j) cs →
      Derives q (.items js) ds → Derives q (.items (j :: js)) (cs ++ ',' :: ds)
  | member {j : Json} {k bs ks ds cs : List Char} : Blank bs → Inside q ks k → Blank ds →
      Derives q (.item j) cs →
      Derives q (.member (String.ofList k, j)) (bs ++ '"' :: (ks ++ '"' :: (ds ++ ':' :: cs)))
  | lastMember {m : String × Json} {cs : List Char} : Derives q (.member m) cs →
      Derives q (.members [m]) cs
  | moreMembers {m : String × Json} {ms : List (String × Json)} {cs ds : List Char} :
      Derives q (.member m) cs → Derives q (.members ms) ds →
      Derives q (.members (m :: ms)) (cs ++ ',' :: ds)

/-- The text is a JSON text, and stands for the value. -/
def IsText (q : Quoting) (text : String) (j : Json) : Prop := Derives q (.item j) text.toList

/-! ## Small facts -/

theorem blank_nil : Blank [] := fun _ h => absurd h List.not_mem_nil

theorem blank_space : Blank [' '] := List.forall_mem_singleton.mpr rfl

theorem blank_newline : Blank ['\n'] := List.forall_mem_singleton.mpr rfl

theorem Blank.append {bs cs : List Char} (hbs : Blank bs) (hcs : Blank cs) : Blank (bs ++ cs) :=
  List.forall_mem_append.mpr ⟨hbs, hcs⟩

theorem Digits.isDigit_head {d : Char} {ds : List Char} (h : Digits (d :: ds)) :
    d.isDigit = true := h.2 d List.mem_cons_self

/-- A value alone is a value with no blanks around it. -/
theorem Derives.item {q : Quoting} {j : Json} {cs : List Char} (h : Derives q (.value j) cs) :
    Derives q (.item j) cs := by
  have hspaced := Derives.spaced blank_nil h blank_nil
  rwa [List.nil_append, List.append_nil] at hspaced

end HexConfig.Json
