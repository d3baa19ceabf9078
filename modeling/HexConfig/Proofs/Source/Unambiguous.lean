import HexConfig.Source

/-!
# The words of a program determine it

A program is read off its words in one way only: `Program.words` is injective. So the tree of a text
may be spoken of as *the* tree of it, and whatever is said of one program with the words of a text is
said of every program with those words.

What carries the proof is that a value tells by its first word which kind of value it is, and by
itself where it ends. So each statement here is about words with anything behind them: if two values
start the same row, they are the same value and leave the same rest.
-/

namespace HexConfig

namespace Term

/-- A value has a first word, and it closes nothing. -/
theorem words_eq_cons (t : Term) :
    ∃ w ws, t.words = w :: ws ∧ w.1 ≠ .rightParen ∧ w.1 ≠ .rightBrace := by
  cases t with
  | number digits => exact ⟨(.number, digits), [], rfl, nofun, nofun⟩
  | string s => exact ⟨(.text, s), [], rfl, nofun, nofun⟩
  | array items => exact ⟨(.hash, "#"), _, rfl, nofun, nofun⟩
  | object entries => exact ⟨(.leftBrace, "\x7b"), _, rfl, nofun, nofun⟩
  | reference name => exact ⟨(.question, "?"), _, rfl, nofun, nofun⟩

/-- A value has words. -/
theorem words_ne_nil (t : Term) : t.words ≠ [] := by
  obtain ⟨w, ws, hw, -, -⟩ := t.words_eq_cons
  rw [hw]
  exact List.cons_ne_nil w ws

/-- A row that starts with a value does not start with the end of an array. -/
theorem words_append_ne_rightParen (t : Term) (r r' : List Word) :
    t.words ++ r ≠ (.rightParen, ")") :: r' := by
  obtain ⟨w, ws, hw, hparen, -⟩ := t.words_eq_cons
  intro h
  rw [hw, List.cons_append] at h
  exact hparen (congrArg Prod.fst (List.cons.inj h).1)

mutual

/-- Two values that start the same row are one value, and leave the same rest. -/
theorem words_append_inj : ∀ (t t' : Term) {r r' : List Word},
    t.words ++ r = t'.words ++ r' → t = t' ∧ r = r'
  | .number digits, t', r, r', h => by cases t' <;> simp_all [words]
  | .string s, t', r, r', h => by cases t' <;> simp_all [words]
  | .reference name, t', r, r', h => by cases t' <;> simp_all [words]
  | .array items, t', r, r', h => by
    cases t' with
    | array items' =>
      simp only [words, List.cons_append, List.append_assoc, List.cons.injEq, true_and,
        List.nil_append] at h
      obtain ⟨rfl, hr⟩ := wordsOfItems_append_inj items items' h
      exact ⟨rfl, hr⟩
    | _ => simp [words] at h
  | .object entries, t', r, r', h => by
    cases t' with
    | object entries' =>
      simp only [words, List.cons_append, List.append_assoc, List.cons.injEq, true_and,
        List.nil_append] at h
      obtain ⟨rfl, hr⟩ := wordsOfEntries_append_inj entries entries' h
      exact ⟨rfl, hr⟩
    | _ => simp [words] at h

/-- The items of an array end at its closing parenthesis. -/
theorem wordsOfItems_append_inj : ∀ (ts ts' : List Term) {r r' : List Word},
    wordsOfItems ts ++ (.rightParen, ")") :: r = wordsOfItems ts' ++ (.rightParen, ")") :: r' →
      ts = ts' ∧ r = r'
  | [], [], r, r', h => ⟨rfl, (List.cons.inj h).2⟩
  | [], t' :: ts', r, r', h => by
    rw [wordsOfItems, wordsOfItems, List.append_assoc] at h
    exact absurd h.symm (t'.words_append_ne_rightParen _ _)
  | t :: ts, [], r, r', h => by
    rw [wordsOfItems, wordsOfItems, List.append_assoc] at h
    exact absurd h (t.words_append_ne_rightParen _ _)
  | t :: ts, t' :: ts', r, r', h => by
    rw [wordsOfItems, wordsOfItems, List.append_assoc, List.append_assoc] at h
    obtain ⟨rfl, hrest⟩ := words_append_inj t t' h
    obtain ⟨rfl, hr⟩ := wordsOfItems_append_inj ts ts' hrest
    exact ⟨rfl, hr⟩

/-- The entries of an object end at its closing brace. -/
theorem wordsOfEntries_append_inj : ∀ (es es' : List (String × Term)) {r r' : List Word},
    wordsOfEntries es ++ (.rightBrace, "\x7d") :: r =
        wordsOfEntries es' ++ (.rightBrace, "\x7d") :: r' →
      es = es' ∧ r = r'
  | [], [], r, r', h => ⟨rfl, (List.cons.inj h).2⟩
  | [], (k', t') :: es', r, r', h => by simp [wordsOfEntries] at h
  | (k, t) :: es, [], r, r', h => by simp [wordsOfEntries] at h
  | (k, t) :: es, (k', t') :: es', r, r', h => by
    simp only [wordsOfEntries, List.cons_append, List.append_assoc, List.cons.injEq,
      Prod.mk.injEq, true_and] at h
    obtain ⟨rfl, h⟩ := h
    obtain ⟨rfl, hrest⟩ := words_append_inj t t' h
    obtain ⟨rfl, hr⟩ := wordsOfEntries_append_inj es es' hrest
    exact ⟨rfl, hr⟩

end

/-- The words of items side by side. -/
theorem wordsOfItems_append (ts ts' : List Term) :
    wordsOfItems (ts ++ ts') = wordsOfItems ts ++ wordsOfItems ts' := by
  induction ts with
  | nil => rfl
  | cons t ts ih => rw [List.cons_append, wordsOfItems, ih, wordsOfItems, List.append_assoc]

/-- The words of entries side by side. -/
theorem wordsOfEntries_append (es es' : List (String × Term)) :
    wordsOfEntries (es ++ es') = wordsOfEntries es ++ wordsOfEntries es' := by
  induction es with
  | nil => rfl
  | cons e es ih =>
    obtain ⟨k, t⟩ := e
    rw [List.cons_append, wordsOfEntries, ih, wordsOfEntries, List.cons_append, List.cons_append,
      List.append_assoc]

end Term

namespace Declaration

/-- A declaration has words. -/
theorem words_ne_nil (d : Declaration) : d.words ≠ [] := by
  cases d with
  | global name t => exact List.cons_ne_nil _ _
  | entry key t => exact List.cons_ne_nil _ _
  | block entries => exact (Term.object entries).words_ne_nil

/-- Two declarations that start the same row are one declaration, and leave the same rest. -/
theorem words_append_inj (d d' : Declaration) {r r' : List Word}
    (h : d.words ++ r = d'.words ++ r') : d = d' ∧ r = r' := by
  cases d with
  | global name t =>
    cases d' with
    | global name' t' =>
      simp only [words, List.cons_append, List.cons.injEq, Prod.mk.injEq, true_and] at h
      obtain ⟨rfl, hrest⟩ := h
      obtain ⟨rfl, hr⟩ := t.words_append_inj t' hrest
      exact ⟨rfl, hr⟩
    | _ => simp [words, Term.words] at h
  | entry key t =>
    cases d' with
    | entry key' t' =>
      simp only [words, List.cons_append, List.cons.injEq, Prod.mk.injEq, true_and] at h
      obtain ⟨rfl, hrest⟩ := h
      obtain ⟨rfl, hr⟩ := t.words_append_inj t' hrest
      exact ⟨rfl, hr⟩
    | _ => simp [words, Term.words] at h
  | block entries =>
    cases d' with
    | block entries' =>
      obtain ⟨heq, hr⟩ := (Term.object entries).words_append_inj (.object entries') h
      exact ⟨congrArg block (Term.object.inj heq), hr⟩
    | _ => simp [words, Term.words] at h

end Declaration

namespace Program

@[simp]
theorem words_nil : words [] = [] := rfl

@[simp]
theorem words_cons (d : Declaration) (p : Program) : words (d :: p) = d.words ++ words p := rfl

theorem words_append (p q : Program) : words (p ++ q) = words p ++ words q :=
  List.flatMap_append

/-- The words of a program determine it. -/
theorem words_injective {p p' : Program} (h : p.words = p'.words) : p = p' := by
  induction p generalizing p' with
  | nil =>
    cases p' with
    | nil => rfl
    | cons d' p' =>
      exact absurd (List.append_eq_nil_iff.mp h.symm).1 d'.words_ne_nil
  | cons d p ih =>
    cases p' with
    | nil => exact absurd (List.append_eq_nil_iff.mp h).1 d.words_ne_nil
    | cons d' p' =>
      obtain ⟨rfl, hrest⟩ := d.words_append_inj d' h
      rw [ih hrest]

end Program

end HexConfig
