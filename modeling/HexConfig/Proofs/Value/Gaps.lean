import HexConfig.Layout
import HexConfig.Proofs.Document

/-!
# Values with gaps

A text that is used for nothing else can mark the places where another value belongs. `Value.fill` puts that
value there, and what was made around the marks stays as it was: in a container every value is filled by itself
(`Value.fillItems_eq`, `Value.fillEntries_eq`).

What is printed of a value with gaps is a text with gaps (`Stencil`). If what belongs there is printed alike
wherever it stands, a number or a string for instance, then one stencil serves for all that can be put there
(`Value.exists_stencil`).
-/

namespace HexConfig

namespace Value

variable (gap : String) (w : Value)

mutual

/-- The value with `w` in place of each text `gap`. -/
def fill : Value → Value
  | .number n => .number n
  | .text s => if s = gap then w else .text s
  | .boolean b => .boolean b
  | .sequence items => .sequence (fillItems items)
  | .mapping entries => .mapping (fillEntries entries)
termination_by structural v => v

def fillItems : List Value → List Value
  | [] => []
  | v :: vs => fill v :: fillItems vs
termination_by structural vs => vs

def fillEntries : List (String × Value) → List (String × Value)
  | [] => []
  | (k, v) :: es => (k, fill v) :: fillEntries es
termination_by structural es => es

end

theorem fill_text (s : String) : fill gap w (text s) = if s = gap then w else text s := rfl

/-- Items are filled one by one. -/
theorem fillItems_eq (vs : List Value) : fillItems gap w vs = vs.map (fill gap w) := by
  induction vs with
  | nil => rfl
  | cons v vs ih => rw [fillItems, ih, List.map_cons]

/-- Entries are filled one by one, under their names. -/
theorem fillEntries_eq (es : Entries Value) : fillEntries gap w es = es.mapValues (fill gap w) := by
  induction es with
  | nil => rfl
  | cons e es ih => rw [fillEntries, ih]; rfl

end Value

namespace Document

/-- The document with `w` in place of each text `gap`. -/
def fill (gap : String) (w : Value) (d : Document) : Document := d.mapValues (Value.fill gap w)

/-- Filling a document is filling the value it is printed as. -/
theorem toValue_fill (gap : String) (w : Value) (d : Document) :
    (d.fill gap w).toValue = Value.fill gap w d.toValue :=
  congrArg Value.mapping (Value.fillEntries_eq gap w d.entries).symm

end Document

/-! ## Texts with gaps -/

/-- A text with gaps. -/
abbrev Stencil := List (Option Char)

/-- The text with `cs` in each gap. -/
def Stencil.fill (cs : List Char) (st : Stencil) : List Char :=
  st.flatMap fun c => c.elim cs ([·])

namespace Stencil

variable (cs : List Char)

theorem fill_gap : fill cs [none] = cs := List.append_nil cs

/-- A text without gaps is left as it is. -/
theorem fill_plain (ds : List Char) : fill cs (ds.map some) = ds := by
  induction ds with
  | nil => rfl
  | cons d ds ih => exact congrArg (d :: ·) ih

/-- Stencils side by side are filled side by side. -/
theorem fill_append (st st' : Stencil) : fill cs (st ++ st') = fill cs st ++ fill cs st' :=
  List.flatMap_append

end Stencil

namespace Value

/-- A value that is no container. -/
inductive Scalar : Value → Prop
  | number (n : Int) : Scalar (.number n)
  | text (s : String) : Scalar (.text s)
  | boolean (b : Bool) : Scalar (.boolean b)

variable {w : Value} {q : Quoting}

/-- The value of a string is one. -/
theorem scalar_ofString (s : String) : (ofString s).Scalar := by
  unfold ofString
  split
  · exact .boolean true
  · split
    · exact .boolean false
    · exact .text s

/-- What is no container is printed alike everywhere. -/
theorem Scalar.layout (h : w.Scalar) (indent : Nat) : w.layout q indent = w.layout q 0 := by
  cases h <;> rfl

/-- What is printed has the text of what is put into the gaps in the same places, whatever it is. -/
def Draws (q : Quoting) (st : Stencil) (text : Value → List Char) : Prop :=
  ∀ w : Value, w.Scalar → text w = st.fill (w.layout q 0)

/-- Characters without a gap draw themselves, whatever is put in. -/
theorem draws_plain (cs : List Char) : Draws q (cs.map some) fun _ => cs := by
  intro w _
  rw [Stencil.fill_plain]

/-- Stencils side by side draw what the two draw, side by side. -/
theorem Draws.append {st st' : Stencil} {text text' : Value → List Char} (h : Draws q st text)
    (h' : Draws q st' text') : Draws q (st ++ st') fun w => text w ++ text' w := by
  intro w hw
  rw [Stencil.fill_append, ← h w hw, ← h' w hw]

/-- A text in front of what is printed. -/
theorem Draws.prepend {st : Stencil} {text : Value → List Char} (cs : List Char) (h : Draws q st text) :
    Draws q (cs.map some ++ st) fun w => cs ++ text w :=
  (draws_plain cs).append h

variable (q) (gap : String)

mutual

/-- One text with gaps is printed of a value, whatever is put into its gaps. -/
theorem exists_stencil : ∀ (v : Value) (indent : Nat),
    ∃ st, Draws q st fun w => (fill gap w v).layout q indent
  | .number n, _ => ⟨_, draws_plain (Decimal.ofInt n)⟩
  | .text s, indent => by
    by_cases hs : s = gap
    · refine ⟨[none], fun w hw => ?_⟩
      show (fill gap w (text s)).layout q indent = _
      rw [fill_text, if_pos hs, hw.layout, Stencil.fill_gap]
    · refine ⟨(q.quote s).map some, fun w hw => ?_⟩
      show (fill gap w (text s)).layout q indent = _
      rw [fill_text, if_neg hs, Stencil.fill_plain, layout]
  | .boolean b, _ => ⟨_, draws_plain (if b then "true" else "false").toList⟩
  | .sequence items, _ => by
    obtain ⟨st, hst⟩ := exists_stencilOfItems items
    exact ⟨_, (hst.append (draws_plain [']'])).prepend ['[']⟩
  | .mapping [], _ => ⟨_, draws_plain ['\x7b', '\x7d']⟩
  | .mapping (e :: es), indent => by
    obtain ⟨st, hst⟩ := exists_stencilOfEntries (e :: es) (indent + 1)
    exact ⟨_, (hst.append (draws_plain ('\n' :: (margin indent ++ ['\x7d'])))).prepend ['\x7b', '\n']⟩

theorem exists_stencilOfItems : ∀ vs : List Value,
    ∃ st, Draws q st fun w => layoutItems q (fillItems gap w vs)
  | [] => ⟨_, draws_plain []⟩
  | [v] => exists_stencil v 0
  | v :: u :: vs => by
    obtain ⟨st, hst⟩ := exists_stencil v 0
    obtain ⟨st', hst'⟩ := exists_stencilOfItems (u :: vs)
    exact ⟨_, hst.append (hst'.prepend [',', ' '])⟩

theorem exists_stencilOfEntries : ∀ (es : List (String × Value)) (indent : Nat),
    ∃ st, Draws q st fun w => layoutEntries q indent (fillEntries gap w es)
  | [], _ => ⟨_, draws_plain []⟩
  | [(k, v)], indent => by
    obtain ⟨st, hst⟩ := exists_stencil v indent
    exact ⟨_, ((hst.prepend [':', ' ']).prepend (q.quote k)).prepend (margin indent)⟩
  | (k, v) :: e :: es, indent => by
    obtain ⟨st, hst⟩ := exists_stencil v indent
    obtain ⟨st', hst'⟩ := exists_stencilOfEntries (e :: es) indent
    exact ⟨_, (((hst.append (hst'.prepend [',', '\n'])).prepend [':', ' ']).prepend (q.quote k)).prepend
      (margin indent)⟩

end

end Value

/-- One text with gaps is printed of a document, whatever is put into its gaps. -/
theorem Document.exists_stencil (q : Quoting) (gap : String) (d : Document) :
    ∃ st : Stencil, ∀ w : Value, w.Scalar →
      (d.fill gap w).print q = String.ofList (st.fill (w.layout q 0)) := by
  obtain ⟨st, hst⟩ := d.toValue.exists_stencil q gap 0
  refine ⟨st, fun w hw => ?_⟩
  rw [print, Value.print_eq, toValue_fill]
  exact congrArg String.ofList (hst w hw)

end HexConfig
