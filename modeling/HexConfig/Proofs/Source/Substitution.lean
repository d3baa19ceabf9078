import HexConfig.Proofs.Source.Expansion
import HexConfig.Proofs.Source.Grammar
import HexConfig.Proofs.Token.Spelling

/-!
# References written out in the text

`Program.expand?` writes references out in a tree. `Program.writeOut` does it in the text itself: every
`?[N]` is taken out, and the value of the latest constant `N` declared before it is written in its
place, word by word with blanks around; where that value had references of its own, they are written
out already. All else stays as it is, layout and constants included.

The text that comes of it spells the tree that comes of `Program.expand?` (`Program.words_writeOut`).
-/

namespace HexConfig

/-! ## Segments -/

/-- A part of a source text. -/
inductive Segment where
  /-- A token that stays. -/
  | kept (w : Word)
  /-- A reference, and the term that is written in its place. -/
  | spliced (name : String) (u : Term)

namespace Segment

/-- The words of a segment as it stands. -/
def before : Segment → List Word
  | kept w => [w]
  | spliced name _ => (Term.reference name).words

/-- The words of a segment with the reference written out. -/
def after : Segment → List Word
  | kept w => [w]
  | spliced _ u => u.words

end Segment

namespace Term

mutual

/-- The segments of a value, by the constants known. A reference to nothing stands for itself. -/
def segments (known : Entries Term) : Term → List Segment
  | .number digits => [.kept (.number, digits)]
  | .string s => [.kept (.text, s)]
  | .array items =>
    .kept (.hash, "#") :: .kept (.leftParen, "(") ::
      (segmentsOfItems known items ++ [.kept (.rightParen, ")")])
  | .object entries =>
    .kept (.leftBrace, "\x7b") :: (segmentsOfEntries known entries ++ [.kept (.rightBrace, "\x7d")])
  | .reference name => [.spliced name ((known.find? name).getD (.reference name))]
termination_by structural t => t

def segmentsOfItems (known : Entries Term) : List Term → List Segment
  | [] => []
  | t :: ts => segments known t ++ segmentsOfItems known ts
termination_by structural ts => ts

def segmentsOfEntries (known : Entries Term) : List (String × Term) → List Segment
  | [] => []
  | (k, t) :: es =>
    .kept (.identifier, k) :: .kept (.equals, "=") :: (segments known t ++ segmentsOfEntries known es)
termination_by structural es => es

end

mutual

/-- The segments of a value spell its words. -/
theorem before_segments (known : Entries Term) : ∀ t : Term,
    (t.segments known).flatMap Segment.before = t.words
  | .number _ => rfl
  | .string _ => rfl
  | .reference _ => rfl
  | .array items => by
    simp [segments, words, Segment.before, before_segmentsOfItems known items]
  | .object entries => by
    simp [segments, words, Segment.before, before_segmentsOfEntries known entries]

theorem before_segmentsOfItems (known : Entries Term) : ∀ ts : List Term,
    (segmentsOfItems known ts).flatMap Segment.before = wordsOfItems ts
  | [] => rfl
  | t :: ts => by
    rw [segmentsOfItems, List.flatMap_append, before_segments known t,
      before_segmentsOfItems known ts, wordsOfItems]

theorem before_segmentsOfEntries (known : Entries Term) : ∀ es : List (String × Term),
    (segmentsOfEntries known es).flatMap Segment.before = wordsOfEntries es
  | [] => rfl
  | (k, t) :: es => by
    simp [segmentsOfEntries, wordsOfEntries, Segment.before, before_segments known t,
      before_segmentsOfEntries known es]

end

mutual

/-- With the references written out they spell the words of what the value is written out to. -/
theorem after_segments {known : Entries Term} : ∀ {t u : Term}, t.expand? known = some u →
    (t.segments known).flatMap Segment.after = u.words
  | .number _, _, h => by cases h; rfl
  | .string _, _, h => by cases h; rfl
  | .reference name, u, h => by
    have h : known.find? name = some u := h
    simp [segments, Segment.after, h]
  | .array items, _, h => by
    obtain ⟨us, hus, rfl⟩ := expand?_array_eq_some.mp h
    simp [segments, words, Segment.after, after_segmentsOfItems hus]
  | .object entries, _, h => by
    obtain ⟨us, hus, rfl⟩ := expand?_object_eq_some.mp h
    simp [segments, words, Segment.after, after_segmentsOfEntries hus]

theorem after_segmentsOfItems {known : Entries Term} : ∀ {ts us : List Term},
    expandItems? known ts = some us →
    (segmentsOfItems known ts).flatMap Segment.after = wordsOfItems us
  | [], _, h => by cases h; rfl
  | t :: ts, _, h => by
    obtain ⟨u, us, hu, hus, rfl⟩ := expandItems?_cons_eq_some.mp h
    rw [segmentsOfItems, List.flatMap_append, after_segments hu, after_segmentsOfItems hus,
      wordsOfItems]

theorem after_segmentsOfEntries {known : Entries Term} : ∀ {es us : List (String × Term)},
    expandEntries? known es = some us →
    (segmentsOfEntries known es).flatMap Segment.after = wordsOfEntries us
  | [], _, h => by cases h; rfl
  | (k, t) :: es, _, h => by
    obtain ⟨u, us, hu, hus, rfl⟩ := expandEntries?_cons_eq_some.mp h
    simp [segmentsOfEntries, wordsOfEntries, Segment.after, after_segments hu,
      after_segmentsOfEntries hus]

end

end Term

namespace Declaration

/-- The segments of a declaration. -/
def segments (known : Entries Term) : Declaration → List Segment
  | global name t =>
    .kept (.global, "global") :: .kept (.identifier, name) :: .kept (.equals, "=") ::
      t.segments known
  | entry key t => .kept (.identifier, key) :: .kept (.equals, "=") :: t.segments known
  | block entries => (Term.object entries).segments known

/-- The segments of a declaration spell its words. -/
theorem before_segments (known : Entries Term) (d : Declaration) :
    (d.segments known).flatMap Segment.before = d.words := by
  cases d <;> simp [segments, words, Segment.before, Term.before_segments]

/-- With the references written out they spell the words of what the declaration is written out to. -/
theorem after_segments {known : Entries Term} {d e : Declaration} (h : d.expand? known = some e) :
    (d.segments known).flatMap Segment.after = e.words := by
  have hterm := Term.after_segments (term_of_expand? h)
  cases d with
  | global name t =>
    obtain ⟨u, -, rfl⟩ := Option.map_eq_some_iff.mp h
    simpa [segments, words, Segment.after, term] using hterm
  | entry key t =>
    obtain ⟨u, -, rfl⟩ := Option.map_eq_some_iff.mp h
    simpa [segments, words, Segment.after, term] using hterm
  | block es =>
    obtain ⟨us, -, rfl⟩ := Option.map_eq_some_iff.mp h
    exact hterm

end Declaration

namespace Program

/-- The segments of a program, by the constants known before it. -/
def segmentsFrom (known : Entries Term) : Program → List Segment
  | [] => []
  | d :: p =>
    d.segments known ++ segmentsFrom ((d.expand? known).elim known (Declaration.declared known)) p

/-- The segments of a program spell its words. -/
theorem before_segmentsFrom (known : Entries Term) (p : Program) :
    (segmentsFrom known p).flatMap Segment.before = p.words := by
  induction p generalizing known with
  | nil => rfl
  | cons d p ih =>
    rw [segmentsFrom, List.flatMap_append, Declaration.before_segments, ih, words_cons]

/-- With the references written out they spell the words of what the program is written out to. -/
theorem after_segmentsFrom {known : Entries Term} {p q : Program}
    (h : expandFrom? known p = some q) :
    (segmentsFrom known p).flatMap Segment.after = q.words := by
  induction p generalizing known q with
  | nil =>
    cases h
    rfl
  | cons d p ih =>
    obtain ⟨e, q, he, hq, rfl⟩ := expandFrom?_cons_eq_some.mp h
    rw [segmentsFrom, List.flatMap_append, Declaration.after_segments he, he, Option.elim_some,
      ih hq, words_cons]

end Program

/-! ## Words of what is written out -/

section

variable {P : Word → Prop} {known : Entries Term}

namespace Term

/-- All words of the value have a property. -/
def AllWords (P : Word → Prop) (t : Term) : Prop := ∀ w ∈ t.words, P w

mutual

/-- Nothing is written out but words of the value and of the constants known. -/
theorem allWords_of_expand? (hknown : known.All (AllWords P)) : ∀ {t u : Term},
    t.expand? known = some u → t.AllWords P → u.AllWords P
  | .number _, _, h, ht => by cases h; exact ht
  | .string _, _, h, ht => by cases h; exact ht
  | .reference name, u, h, _ => hknown name u h
  | .array items, _, h, ht => by
    obtain ⟨us, hus, rfl⟩ := expand?_array_eq_some.mp h
    have hitems := forall_words_of_expandItems? hknown hus
    simp only [AllWords, words, List.forall_mem_cons, List.forall_mem_append] at ht ⊢
    obtain ⟨hhash, hopen, hts, hclose⟩ := ht
    exact ⟨hhash, hopen, hitems hts, hclose⟩
  | .object entries, _, h, ht => by
    obtain ⟨us, hus, rfl⟩ := expand?_object_eq_some.mp h
    have hentries := forall_words_of_expandEntries? hknown hus
    simp only [AllWords, words, List.forall_mem_cons, List.forall_mem_append] at ht ⊢
    obtain ⟨hopen, hes, hclose⟩ := ht
    exact ⟨hopen, hentries hes, hclose⟩

theorem forall_words_of_expandItems? (hknown : known.All (AllWords P)) : ∀ {ts us : List Term},
    expandItems? known ts = some us → (∀ w ∈ wordsOfItems ts, P w) → ∀ w ∈ wordsOfItems us, P w
  | [], _, h, ht => by cases h; exact ht
  | t :: ts, _, h, ht => by
    obtain ⟨u, us, hu, hus, rfl⟩ := expandItems?_cons_eq_some.mp h
    simp only [wordsOfItems, List.forall_mem_append] at ht ⊢
    exact ⟨allWords_of_expand? hknown hu ht.1, forall_words_of_expandItems? hknown hus ht.2⟩

theorem forall_words_of_expandEntries? (hknown : known.All (AllWords P)) :
    ∀ {es us : List (String × Term)}, expandEntries? known es = some us →
      (∀ w ∈ wordsOfEntries es, P w) → ∀ w ∈ wordsOfEntries us, P w
  | [], _, h, ht => by cases h; exact ht
  | (k, t) :: es, _, h, ht => by
    obtain ⟨u, us, hu, hus, rfl⟩ := expandEntries?_cons_eq_some.mp h
    simp only [wordsOfEntries, List.forall_mem_cons, List.forall_mem_append] at ht ⊢
    obtain ⟨hkey, hequals, hterm, hrest⟩ := ht
    exact ⟨hkey, hequals, allWords_of_expand? hknown hu hterm,
      forall_words_of_expandEntries? hknown hus hrest⟩

end

end Term

/-- The words of a declaration written out, and those of the constant it declares. -/
theorem Declaration.forall_words_of_expand? (hknown : known.All (Term.AllWords P))
    {d e : Declaration} (h : d.expand? known = some e) (hd : ∀ w ∈ d.words, P w) :
    (∀ w ∈ e.words, P w) ∧ (e.declared known).All (Term.AllWords P) := by
  have hterm := Term.allWords_of_expand? hknown (term_of_expand? h)
  cases d with
  | global name t =>
    obtain ⟨u, -, rfl⟩ := Option.map_eq_some_iff.mp h
    simp only [words, List.forall_mem_cons] at hd ⊢
    obtain ⟨hglobal, hname, hequals, ht⟩ := hd
    exact ⟨⟨hglobal, hname, hequals, hterm ht⟩, hknown.write (hterm ht) name⟩
  | entry key t =>
    obtain ⟨u, -, rfl⟩ := Option.map_eq_some_iff.mp h
    simp only [words, List.forall_mem_cons] at hd ⊢
    obtain ⟨hkey, hequals, ht⟩ := hd
    exact ⟨⟨hkey, hequals, hterm ht⟩, hknown⟩
  | block es =>
    obtain ⟨us, -, rfl⟩ := Option.map_eq_some_iff.mp h
    exact ⟨hterm hd, hknown⟩

/-- Nothing is written out but words of the program and of the constants known. -/
theorem Program.forall_words_of_expandFrom? (hknown : known.All (Term.AllWords P)) {p q : Program}
    (h : expandFrom? known p = some q) (hp : ∀ w ∈ p.words, P w) : ∀ w ∈ q.words, P w := by
  induction p generalizing known q with
  | nil =>
    cases h
    exact hp
  | cons d p ih =>
    obtain ⟨e, q, he, hq, rfl⟩ := expandFrom?_cons_eq_some.mp h
    rw [words_cons, List.forall_mem_append] at hp ⊢
    obtain ⟨hwords, hdeclared⟩ := Declaration.forall_words_of_expand? hknown he hp.1
    exact ⟨hwords, ih hdeclared hq hp.2⟩

end

/-! ## Texts -/

/-- The blanks ahead and the first token after them, as they are written. -/
def firstToken (cs : List Char) : List Char :=
  match cs.dropWhile isBlank with
  | [] => cs
  | c :: ds => cs.takeWhile isBlank ++ (Lexeme.cut c ds).covered

/-- What is written after the first token. -/
def afterToken (cs : List Char) : List Char :=
  match cs.dropWhile isBlank with
  | [] => []
  | c :: ds => (Lexeme.cut c ds).rest

/-- The text of segments with the references written out, from the text as it stands. -/
def render : List Segment → List Char → List Char
  | [], cs => cs
  | .kept _ :: segments, cs => firstToken cs ++ render segments (afterToken cs)
  | .spliced _ u :: segments, cs =>
    cs.takeWhile isBlank ++ ' ' :: (spellings u.words ++
      render segments (afterToken (afterToken (afterToken (afterToken cs)))))

/-- The text of a program with the references written out. -/
def Program.writeOut (p : Program) (source : String) : String :=
  String.ofList (render (segmentsFrom [] p) source.toList)

/-- The first token, when there is one. -/
theorem token_of_wordsAhead {cs : List Char} {w : Word} {ws : List Word}
    (h : wordsAhead cs = w :: ws) : ∃ c ds, cs.dropWhile isBlank = c :: ds ∧
      w = ((Lexeme.cut c ds).kind, String.ofList (Lexeme.cut c ds).text) ∧
      wordsAhead (afterToken cs) = ws := by
  cases hrest : cs.dropWhile isBlank with
  | nil =>
    rw [wordsAhead_of_nil hrest] at h
    exact nomatch h
  | cons c ds =>
    rw [wordsAhead_of_cons hrest] at h
    obtain ⟨hw, hws⟩ := List.cons.inj h
    refine ⟨c, ds, rfl, hw.symm, ?_⟩
    rw [afterToken, hrest]
    exact hws

/-- A text is its first token with the blanks before it, and what is written after that. -/
theorem firstToken_append_afterToken (cs : List Char) : firstToken cs ++ afterToken cs = cs := by
  unfold firstToken afterToken
  cases hrest : cs.dropWhile isBlank with
  | nil => exact List.append_nil cs
  | cons c ds =>
    show cs.takeWhile isBlank ++ (Lexeme.cut c ds).covered ++ (Lexeme.cut c ds).rest = cs
    rw [List.append_assoc, Lexeme.covers_cut, ← hrest, List.takeWhile_append_dropWhile]

/-- The first token is cut off again when something else that joins it is behind it. -/
theorem wordsAhead_firstToken_append {cs r : List Char} {w : Word} {ws : List Word}
    (h : wordsAhead cs = w :: ws) (hr : Joins (afterToken cs) r) :
    wordsAhead (firstToken cs ++ r) = w :: wordsAhead r := by
  obtain ⟨c, ds, hrest, rfl, -⟩ := token_of_wordsAhead h
  unfold afterToken at hr
  unfold firstToken
  rw [hrest] at hr ⊢
  obtain ⟨v, hcovered, hcut⟩ := Lexeme.cut_of_joins hr
  have hc : isBlank c = false := eq_false_of_dropWhile hrest
  have hdrop : (c :: (v ++ r)).dropWhile isBlank = c :: (v ++ r) :=
    List.dropWhile_cons_of_neg (by rw [hc]; exact Bool.false_ne_true)
  have hblanks : ∀ b ∈ cs.takeWhile isBlank, isBlank b = true := fun b hb =>
    List.mem_takeWhile_imp hb
  show wordsAhead (cs.takeWhile isBlank ++ (Lexeme.cut c ds).covered ++ r) = _
  rw [hcovered, List.append_assoc, wordsAhead_blanks_append hblanks, List.cons_append,
    wordsAhead_of_cons hdrop, hcut]

/-- What is rendered joins what stands before it as the text does. -/
theorem joins_render {segments : List Segment} {cs : List Char}
    (h : wordsAhead cs = segments.flatMap Segment.before) : Joins cs (render segments cs) := by
  cases segments with
  | nil => exact joins_refl cs
  | cons segment segments =>
    cases segment with
    | kept w =>
      obtain ⟨c, ds, hrest, -, -⟩ := token_of_wordsAhead (w := w) h
      obtain ⟨v, hcovered, -⟩ := Lexeme.cut_of_joins (joins_refl (Lexeme.cut c ds).rest)
      obtain ⟨a, as, hfirst⟩ : ∃ a as, firstToken cs = a :: as := by
        refine List.exists_cons_of_ne_nil ?_
        rw [firstToken, hrest]
        simp [hcovered]
      have hhead : cs.head? = some a := by
        rw [← firstToken_append_afterToken cs, hfirst]
        rfl
      refine .inl ?_
      rw [render, hfirst, hhead]
      rfl
    | spliced name u =>
      obtain ⟨c, ds, hrest, -, -⟩ := token_of_wordsAhead (w := (.question, "?")) h
      refine .inr ⟨fun hcs => ?_, ?_⟩
      · rw [hcs] at hrest
        exact nomatch hrest
      · rw [render]
        cases hblanks : cs.takeWhile isBlank with
        | nil => exact ⟨' ', rfl, rfl⟩
        | cons b bs =>
          have hb : b ∈ cs.takeWhile isBlank := hblanks ▸ List.mem_cons_self
          exact ⟨b, rfl, List.mem_takeWhile_imp hb⟩

/-- Rendering segments writes their references out. -/
theorem wordsAhead_render {segments : List Segment} {cs : List Char}
    (h : wordsAhead cs = segments.flatMap Segment.before)
    (hafter : ∀ w ∈ segments.flatMap Segment.after, w.Proper ∧ w.1 ≠ .invalid) :
    wordsAhead (render segments cs) = segments.flatMap Segment.after := by
  induction segments generalizing cs with
  | nil => exact h
  | cons segment segments ih =>
    rw [List.flatMap_cons, List.forall_mem_append] at hafter
    obtain ⟨hfirst, hrest⟩ := hafter
    cases segment with
    | kept w =>
      obtain ⟨c, ds, -, -, hws⟩ := token_of_wordsAhead (w := w) h
      rw [render, wordsAhead_firstToken_append (w := w) h (joins_render hws), ih hws hrest]
      rfl
    | spliced name u =>
      obtain ⟨_, _, -, -, h₁⟩ := token_of_wordsAhead (w := (.question, "?")) h
      obtain ⟨_, _, -, -, h₂⟩ := token_of_wordsAhead (w := (.leftBracket, "[")) h₁
      obtain ⟨_, _, -, -, h₃⟩ := token_of_wordsAhead (w := (.identifier, name)) h₂
      obtain ⟨_, _, -, -, h₄⟩ := token_of_wordsAhead (w := (.rightBracket, "]")) h₃
      have hblanks : ∀ b ∈ cs.takeWhile isBlank, isBlank b = true := fun b hb =>
        List.mem_takeWhile_imp hb
      have hspelled : ∀ w ∈ u.words, w.Proper ∧ w.1 ≠ .invalid := hfirst
      rw [render, wordsAhead_blanks_append hblanks, wordsAhead_space, wordsAhead_spellings hspelled,
        ih h₄ hrest]
      rfl

/-- The text with references written out spells the program with references written out. -/
theorem Program.words_writeOut {p q : Program} {source : String}
    (hwords : (Tokens.ofText source).words = p.words) (h : p.expand? = some q) :
    (Tokens.ofText (p.writeOut source)).words = q.words := by
  have hbefore : wordsAhead source.toList = (segmentsFrom [] p).flatMap Segment.before := by
    rw [before_segmentsFrom, ← hwords, words_ofText]
  have hafter := after_segmentsFrom h
  have hwords' : ∀ w ∈ q.words, w.Proper ∧ w.1 ≠ .invalid := by
    refine forall_words_of_expandFrom? Entries.all_nil h fun w hw => ⟨?_, ?_⟩
    · rw [← hwords] at hw
      exact Tokens.proper_ofText source w hw
    · intro hinvalid
      refine (Grammar.derives_program p).invalid_not_mem ?_
      rw [← hinvalid]
      exact List.mem_map_of_mem hw
  rw [words_ofText, writeOut, String.toList_ofList, wordsAhead_render hbefore (hafter ▸ hwords'),
    hafter]

end HexConfig
