import HexConfig.Proofs.Source.Refinement
import HexConfig.Proofs.Source.Unambiguous

/-!
# Entries exchanged and entries dropped

What stands for a name in an object, or in a document, is the last value that is written for it. So two entries
next to each other may change places if their names differ, and an entry may be dropped if its name is written
again further on. Either can be done anywhere in a program, in constants and in blocks as much as at the top
level: `Program.Spot` is a place among the entries of some object in a program.

The program that comes of it follows the program that there was (`Program.Exchanged.follows`,
`Program.Dropped.follows`): it makes the same document, though a constant may have become smaller.
-/

namespace HexConfig

/-! ## Places among entries -/

namespace Term

mutual

/-- A place among the entries of an object that is somewhere in a value. -/
inductive Spot where
  /-- In an item of an array. -/
  | item (before : List Term) (inner : Spot) (after : List Term)
  /-- In an object. -/
  | object (row : RowSpot)

/-- A place among some entries, or among those of an object that is somewhere in them. -/
inductive RowSpot where
  /-- Behind some of the entries and before the others. -/
  | here (before after : List (String × Term))
  /-- In the value of an entry. -/
  | field (before : List (String × Term)) (key : String) (inner : Spot) (after : List (String × Term))

end

mutual

/-- The value with these entries put in. -/
def Spot.fill (es : List (String × Term)) : Spot → Term
  | .item before inner after => .array (before ++ inner.fill es :: after)
  | .object row => .object (row.fill es)
termination_by structural s => s

def RowSpot.fill (es : List (String × Term)) : RowSpot → List (String × Term)
  | .here before after => before ++ (es ++ after)
  | .field before key inner after => before ++ (key, inner.fill es) :: after
termination_by structural r => r

end

mutual

/-- The words before the place. -/
def Spot.opening : Spot → List Word
  | .item before inner _ => (.hash, "#") :: (.leftParen, "(") :: (wordsOfItems before ++ inner.opening)
  | .object row => (.leftBrace, "\x7b") :: row.opening
termination_by structural s => s

def RowSpot.opening : RowSpot → List Word
  | .here before _ => wordsOfEntries before
  | .field before key inner _ => wordsOfEntries before ++ (.identifier, key) :: (.equals, "=") :: inner.opening
termination_by structural r => r

end

mutual

/-- The words behind the place. -/
def Spot.closing : Spot → List Word
  | .item _ inner after => inner.closing ++ (wordsOfItems after ++ [(.rightParen, ")")])
  | .object row => row.closing ++ [(.rightBrace, "\x7d")]
termination_by structural s => s

def RowSpot.closing : RowSpot → List Word
  | .here _ after => wordsOfEntries after
  | .field _ _ inner after => inner.closing ++ wordsOfEntries after
termination_by structural r => r

end

variable {es es' : List (String × Term)}

mutual

/-- The words of the entries stand between those before the place and those behind it. -/
theorem Spot.words_fill (es : List (String × Term)) : ∀ s : Spot,
    (s.fill es).words = s.opening ++ (wordsOfEntries es ++ s.closing)
  | .item before inner after => by
    simp [Spot.fill, Spot.opening, Spot.closing, words, wordsOfItems, wordsOfItems_append, inner.words_fill es]
  | .object row => by simp [Spot.fill, Spot.opening, Spot.closing, words, row.words_fill es]

theorem RowSpot.words_fill (es : List (String × Term)) : ∀ r : RowSpot,
    wordsOfEntries (r.fill es) = r.opening ++ (wordsOfEntries es ++ r.closing)
  | .here before after => by
    simp only [RowSpot.fill, RowSpot.opening, RowSpot.closing, wordsOfEntries_append]
  | .field before key inner after => by
    simp [RowSpot.fill, RowSpot.opening, RowSpot.closing, wordsOfEntries, wordsOfEntries_append,
      inner.words_fill es]

end

mutual

/-- A value follows another if it differs in some entries only, and those follow, whatever stands behind. -/
theorem Spot.follows_fill (h : ∀ after, FollowsEntries (es ++ after) (es' ++ after)) : ∀ s : Spot,
    (s.fill es).Follows (s.fill es')
  | .item before inner after =>
    (FollowsItems.append_left before (.cons (inner.follows_fill h) (.refl after))).array
  | .object row => (row.follows_fill h).object

theorem RowSpot.follows_fill (h : ∀ after, FollowsEntries (es ++ after) (es' ++ after)) : ∀ r : RowSpot,
    FollowsEntries (r.fill es) (r.fill es')
  | .here before after => .append_left before (h after)
  | .field before key inner after => .append_left before (.cons key (inner.follows_fill h) (.refl after))

end

end Term

/-- A place among the entries of an object that is somewhere in a declaration. -/
inductive Declaration.Spot where
  | global (name : String) (inner : Term.Spot)
  | entry (key : String) (inner : Term.Spot)
  | block (row : Term.RowSpot)

namespace Declaration.Spot

/-- The declaration with these entries put in. -/
def fill (es : List (String × Term)) : Spot → Declaration
  | global name inner => .global name (inner.fill es)
  | entry key inner => .entry key (inner.fill es)
  | block row => .block (row.fill es)

/-- The words before the place. -/
def opening : Spot → List Word
  | global name inner => (.global, "global") :: (.identifier, name) :: (.equals, "=") :: inner.opening
  | entry key inner => (.identifier, key) :: (.equals, "=") :: inner.opening
  | block row => (.leftBrace, "\x7b") :: row.opening

/-- The words behind the place. -/
def closing : Spot → List Word
  | global _ inner => inner.closing
  | entry _ inner => inner.closing
  | block row => row.closing ++ [(.rightBrace, "\x7d")]

/-- In a declaration the words of the entries stand between those before the place and those behind it. -/
theorem words_fill (es : List (String × Term)) (s : Spot) :
    (s.fill es).words = s.opening ++ (Term.wordsOfEntries es ++ s.closing) := by
  cases s with
  | global name inner => simp [fill, words, opening, closing, inner.words_fill es]
  | entry key inner => simp [fill, words, opening, closing, inner.words_fill es]
  | block row => simp [fill, words, Term.words, opening, closing, row.words_fill es]

/-- A declaration follows another that differs in a place where the entries do. -/
theorem follows_fill {es es' : List (String × Term)}
    (h : ∀ after, Term.FollowsEntries (es ++ after) (es' ++ after)) (s : Spot) :
    (s.fill es).Follows (s.fill es') := by
  cases s with
  | global name inner => exact .global name (inner.follows_fill h)
  | entry key inner => exact .entry key (inner.follows_fill h)
  | block row => exact .block (row.follows_fill h)

end Declaration.Spot

/-- A place among the entries of an object that is somewhere in a program. -/
structure Program.Spot where
  before : Program
  inner : Declaration.Spot
  after : Program

namespace Program.Spot

/-- The program with these entries put in. -/
def fill (es : List (String × Term)) (s : Spot) : Program := s.before ++ s.inner.fill es :: s.after

/-- The words before the place. -/
def opening (s : Spot) : List Word := s.before.words ++ s.inner.opening

/-- The words behind the place. -/
def closing (s : Spot) : List Word := s.inner.closing ++ s.after.words

/-- In a program the words of the entries stand between those before the place and those behind it. -/
theorem words_fill (es : List (String × Term)) (s : Spot) :
    (s.fill es).words = s.opening ++ (Term.wordsOfEntries es ++ s.closing) := by
  simp [fill, opening, closing, words_append, words_cons, s.inner.words_fill es]

/-- A program follows another that differs in a place where the entries do. -/
theorem follows_fill {es es' : List (String × Term)}
    (h : ∀ after, Term.FollowsEntries (es ++ after) (es' ++ after)) (s : Spot) :
    (s.fill es).Follows (s.fill es') :=
  .append_left s.before (.cons (s.inner.follows_fill h) (.refl s.after))

end Program.Spot

/-! ## Entries of an object -/

namespace Term

variable {k l : String} {es fs : List (String × Term)}

/-- Two entries next to each other may change places. -/
theorem refinesEntries_swap (hne : k ≠ l) (t u : Term) (fs : List (String × Term)) :
    RefinesEntries ((k, t) :: (l, u) :: fs) ((l, u) :: (k, t) :: fs) where
  values before after hsorted hes := by
    obtain ⟨v, hv, hes⟩ := entriesOf?_cons_eq_some.mp hes
    obtain ⟨w, hw, hes⟩ := entriesOf?_cons_eq_some.mp hes
    rw [hsorted.write_comm hne] at hes
    exact entriesOf?_cons_eq_some.mpr ⟨w, hw, entriesOf?_cons_eq_some.mpr ⟨v, hv, hes⟩⟩
  cost := Nat.le_of_eq (Nat.add_left_comm _ _ _)
  nest := Nat.le_of_eq (Nat.max_left_comm _ _ _)

/-- A write is lost if its name is written again. -/
theorem entriesOf?_of_overwritten {before after : Entries Value} {v : Value} (hkey : k ∈ fs.map Prod.fst)
    (hsorted : before.Sorted) (h : entriesOf? (before.write k v) fs = some after) :
    entriesOf? before fs = some after := by
  -- The write is carried behind the entries of other names, until its own name comes.
  induction fs generalizing before with
  | nil => exact absurd hkey List.not_mem_nil
  | cons f fs ih =>
    obtain ⟨l, u⟩ := f
    obtain ⟨w, hw, h⟩ := entriesOf?_cons_eq_some.mp h
    refine entriesOf?_cons_eq_some.mpr ⟨w, hw, ?_⟩
    by_cases hkl : k = l
    · rwa [← hkl, hsorted.write_write, hkl] at h
    · rw [hsorted.write_comm hkl] at h
      exact ih ((List.mem_cons.mp hkey).resolve_left hkl) hsorted.write h

/-- An entry may be dropped if its name is written again. -/
theorem refinesEntries_drop (hkey : k ∈ fs.map Prod.fst) (t : Term) : RefinesEntries ((k, t) :: fs) fs where
  values before after hsorted hes := by
    obtain ⟨v, -, hes⟩ := entriesOf?_cons_eq_some.mp hes
    exact entriesOf?_of_overwritten hkey hsorted hes
  cost := Nat.le_add_left _ _
  nest := Nat.le_max_right _ _

/-- Writing references out leaves the names of entries as they are. -/
theorem map_fst_of_expandEntries? {known : Entries Term} (h : expandEntries? known es = some fs) :
    fs.map Prod.fst = es.map Prod.fst := by
  induction es generalizing fs with
  | nil =>
    cases h
    rfl
  | cons e es ih =>
    obtain ⟨u, fs, -, hfs, rfl⟩ := expandEntries?_cons_eq_some.mp h
    rw [List.map_cons, List.map_cons, ih hfs]

/-- Entries follow what they are with two neighbours of different names in each other's place. -/
theorem followsEntries_swap (hne : k ≠ l) (t u : Term) (after : List (String × Term)) :
    FollowsEntries ((k, t) :: (l, u) :: after) ((l, u) :: (k, t) :: after) := by
  refine .of_same fun h => ?_
  obtain ⟨t', _, ht, hrest, rfl⟩ := expandEntries?_cons_eq_some.mp h
  obtain ⟨u', fs, hu, hfs, rfl⟩ := expandEntries?_cons_eq_some.mp hrest
  refine ⟨(l, u') :: (k, t') :: fs, ?_, refinesEntries_swap hne t' u' fs⟩
  exact expandEntries?_cons_eq_some.mpr
    ⟨u', _, hu, expandEntries?_cons_eq_some.mpr ⟨t', fs, ht, hfs, rfl⟩, rfl⟩

/-- Entries follow what they are without one whose name is written again. -/
theorem followsEntries_drop (hkey : k ∈ es.map Prod.fst) (t : Term) (after : List (String × Term)) :
    FollowsEntries ((k, t) :: (es ++ after)) (es ++ after) := by
  refine .of_same fun h => ?_
  obtain ⟨t', fs, -, hfs, rfl⟩ := expandEntries?_cons_eq_some.mp h
  refine ⟨fs, hfs, refinesEntries_drop ?_ t'⟩
  rw [map_fst_of_expandEntries? hfs, List.map_append]
  exact List.mem_append_left _ hkey

end Term

/-! ## Declarations -/

namespace Declaration

/-- The name that a declaration writes in the document. A constant writes none. -/
def key? : Declaration → Option String
  | global _ _ => none
  | entry key _ => some key
  | block _ => some Document.unnamedKey

variable {d e : Declaration} {known : Entries Term} {key : String}

/-- Writing references out leaves the name that a declaration writes as it is. -/
theorem key?_of_expand? (h : d.expand? known = some e) : e.key? = d.key? := by
  cases d with
  | global name t =>
    obtain ⟨u, -, rfl⟩ := Option.map_eq_some_iff.mp h
    rfl
  | entry key t =>
    obtain ⟨u, -, rfl⟩ := Option.map_eq_some_iff.mp h
    rfl
  | block es =>
    obtain ⟨fs, -, rfl⟩ := Option.map_eq_some_iff.mp h
    rfl

/-- What writes a name writes its value under it, stays counted, and declares nothing. -/
theorem write?_of_key? (h : e.key? = some key) (doc : Document) :
    e.write? doc = e.term.value?.map (doc.insert key) := by
  cases e with
  | global name u => exact nomatch h
  | entry key u => cases h; rfl
  | block fs => cases h; rfl

/-- What writes no name leaves the document as it is. -/
theorem write?_of_key?_eq_none (h : e.key? = none) (doc : Document) :
    e.write? doc = e.term.value?.map fun _ => doc := by
  cases e with
  | global name u => rfl
  | entry key u => exact nomatch h
  | block fs => exact nomatch h

/-- What writes a name stays counted. -/
theorem lasting_of_key? (h : e.key? = some key) : e.lasting = e.term.cost := by
  cases e with
  | global name u => exact nomatch h
  | entry key u => rfl
  | block fs => rfl

/-- What writes a name makes no constant known. -/
theorem declared_of_key? (h : e.key? = some key) (known : Entries Term) : e.declared known = known := by
  cases e with
  | global name u => exact nomatch h
  | entry key u => rfl
  | block fs => rfl

end Declaration

namespace Program

variable {d e : Declaration} {p p' q : Program} {known : Entries Term} {k l : String} {doc doc' : Document}

/-- A program that begins with a name makes a document exactly if the rest makes it of what is there with the
name written. -/
theorem foldlM_write?_cons_of_key? (h : e.key? = some k) :
    (e :: q).foldlM Declaration.write? doc = some doc' ↔
      ∃ v, e.term.value? = some v ∧ q.foldlM Declaration.write? (doc.insert k v) = some doc' := by
  rw [foldlM_write?_cons_eq_some, Declaration.write?_of_key? h]
  constructor
  · rintro ⟨_, hwrite, hdoc⟩
    obtain ⟨v, hv, rfl⟩ := Option.map_eq_some_iff.mp hwrite
    exact ⟨v, hv, hdoc⟩
  · rintro ⟨v, hv, hdoc⟩
    exact ⟨_, Option.map_eq_some_iff.mpr ⟨v, hv, rfl⟩, hdoc⟩

/-- Two declarations next to each other may change places if they write different names. -/
theorem refines_swap (hd : d.key? = some k) (he : e.key? = some l) (hne : k ≠ l) (q : Program) :
    Program.Refines (d :: e :: q) (e :: d :: q) where
  document doc doc' hdoc := by
    obtain ⟨v, hv, hdoc⟩ := (foldlM_write?_cons_of_key? hd).mp hdoc
    obtain ⟨w, hw, hdoc⟩ := (foldlM_write?_cons_of_key? he).mp hdoc
    rw [Document.insert_comm _ hne] at hdoc
    exact (foldlM_write?_cons_of_key? he).mpr ⟨w, hw, (foldlM_write?_cons_of_key? hd).mpr ⟨v, hv, hdoc⟩⟩
  depth := Nat.le_of_eq (Nat.max_left_comm _ _ _)
  nodes := by
    simp only [nodesNeeded, Declaration.lasting_of_key? hd, Declaration.lasting_of_key? he]
    omega

/-- A write to the document is lost if its name is written again. -/
theorem foldlM_write?_of_overwritten {v : Value} (hkey : some k ∈ q.map Declaration.key?)
    (h : q.foldlM Declaration.write? (doc.insert k v) = some doc') :
    q.foldlM Declaration.write? doc = some doc' := by
  induction q generalizing doc with
  | nil => exact absurd hkey List.not_mem_nil
  | cons e q ih =>
    rw [List.map_cons, List.mem_cons] at hkey
    cases he : e.key? with
    | none =>
      -- A constant: the write stands until the declarations behind it.
      obtain ⟨_, hwrite, h⟩ := foldlM_write?_cons_eq_some.mp h
      rw [Declaration.write?_of_key?_eq_none he] at hwrite
      obtain ⟨w, hw, rfl⟩ := Option.map_eq_some_iff.mp hwrite
      refine foldlM_write?_cons_eq_some.mpr ⟨doc, ?_, ih (hkey.resolve_left (by rw [he]; nofun)) h⟩
      rw [Declaration.write?_of_key?_eq_none he, hw, Option.map_some]
    | some l =>
      obtain ⟨w, hw, h⟩ := (foldlM_write?_cons_of_key? he).mp h
      refine (foldlM_write?_cons_of_key? he).mpr ⟨w, hw, ?_⟩
      by_cases hkl : k = l
      · rwa [← hkl, Document.insert_insert, hkl] at h
      · rw [Document.insert_comm _ hkl] at h
        exact ih (hkey.resolve_left fun heq => hkl (Option.some.inj (heq.trans he))) h

/-- A declaration may be dropped if its name is written again. -/
theorem refines_drop (hd : d.key? = some k) (hkey : some k ∈ q.map Declaration.key?) :
    Program.Refines (d :: q) q where
  document doc doc' hdoc := by
    obtain ⟨v, -, hdoc⟩ := (foldlM_write?_cons_of_key? hd).mp hdoc
    exact foldlM_write?_of_overwritten hkey hdoc
  depth := Nat.le_max_right _ _
  nodes := Nat.le_trans (Nat.le_add_left _ _) (Nat.le_max_right _ _)

/-- Writing references out leaves the names that declarations write as they are. -/
theorem map_key?_of_expandFrom? (h : expandFrom? known p = some q) :
    q.map Declaration.key? = p.map Declaration.key? := by
  induction p generalizing known q with
  | nil =>
    cases h
    rfl
  | cons d p ih =>
    obtain ⟨e, q, he, hq, rfl⟩ := expandFrom?_cons_eq_some.mp h
    rw [List.map_cons, List.map_cons, Declaration.key?_of_expand? he, ih hq]

/-- Behind a declaration that writes a name, as much is known as before it. -/
theorem expandFrom?_cons_of_key? (hd : d.key? = some k) :
    expandFrom? known (d :: p) = some q ↔
      ∃ e q', d.expand? known = some e ∧ e.key? = some k ∧ expandFrom? known p = some q' ∧ q = e :: q' := by
  rw [expandFrom?_cons_eq_some]
  refine exists₂_congr fun e q' => and_congr_right fun he => ?_
  have hkey : e.key? = some k := (Declaration.key?_of_expand? he).trans hd
  rw [Declaration.declared_of_key? hkey]
  exact (and_iff_right hkey).symm

/-- Programs follow what they are with two neighbours of different names in each other's place. -/
theorem follows_swap (hd : d.key? = some k) (he : e.key? = some l) (hne : k ≠ l) (p : Program) :
    Program.Follows (d :: e :: p) (e :: d :: p) := by
  refine .of_same fun h => ?_
  obtain ⟨d', _, hd', hkey, hrest, rfl⟩ := (expandFrom?_cons_of_key? hd).mp h
  obtain ⟨e', q, he', hkey', hq, rfl⟩ := (expandFrom?_cons_of_key? he).mp hrest
  refine ⟨e' :: d' :: q, ?_, refines_swap hkey hkey' hne q⟩
  exact (expandFrom?_cons_of_key? he).mpr
    ⟨e', _, he', hkey', (expandFrom?_cons_of_key? hd).mpr ⟨d', q, hd', hkey, hq, rfl⟩, rfl⟩

/-- Programs follow what they are without a declaration whose name is written again. -/
theorem follows_drop (hd : d.key? = some k) (hkey : some k ∈ p.map Declaration.key?) :
    Program.Follows (d :: p) p := by
  refine .of_same fun h => ?_
  obtain ⟨d', q, -, hd', hq, rfl⟩ := (expandFrom?_cons_of_key? hd).mp h
  refine ⟨q, hq, refines_drop hd' ?_⟩
  rwa [map_key?_of_expandFrom? hq]

/-! ## Revisions -/

/-- Two entries of one object, or two declarations of the top level, stand next to each other in `p` and write
different names. Their words are `a` and `b`, with `opening` before them and `closing` behind. In `p'` they have
changed places. -/
inductive Exchanged : (p p' : Program) → (opening a b closing : List Word) → Prop
  | entries (s : Spot) {k l : String} (t u : Term) : k ≠ l →
      Exchanged (s.fill [(k, t), (l, u)]) (s.fill [(l, u), (k, t)]) s.opening
        (Term.wordsOfEntries [(k, t)]) (Term.wordsOfEntries [(l, u)]) s.closing
  | declarations (before : Program) {d e : Declaration} {k l : String} (after : Program) :
      d.key? = some k → e.key? = some l → k ≠ l →
      Exchanged (before ++ d :: e :: after) (before ++ e :: d :: after) before.words d.words e.words after.words

/-- An entry of an object, or a declaration of the top level, stands in `p`, and further on in the same object,
or at the top level, its name is written again. Its words are `a`, with `opening` before them and `closing`
behind. In `p'` it is not there. -/
inductive Dropped : (p p' : Program) → (opening a closing : List Word) → Prop
  | entry (s : Spot) {k : String} (t : Term) {es : List (String × Term)} : k ∈ es.map Prod.fst →
      Dropped (s.fill ((k, t) :: es)) (s.fill es) s.opening (Term.wordsOfEntries [(k, t)])
        (Term.wordsOfEntries es ++ s.closing)
  | declaration (before : Program) {d : Declaration} {k : String} {after : Program} :
      d.key? = some k → some k ∈ after.map Declaration.key? →
      Dropped (before ++ d :: after) (before ++ after) before.words d.words after.words

variable {opening a b closing : List Word}

theorem Exchanged.symm (h : Exchanged p p' opening a b closing) : Exchanged p' p opening b a closing := by
  cases h with
  | entries s t u hne => exact .entries s u t hne.symm
  | declarations before after hd he hne => exact .declarations before after he hd hne.symm

/-- The words of the two stand next to each other, between those before and those behind. -/
theorem Exchanged.words (h : Exchanged p p' opening a b closing) :
    p.words = opening ++ (a ++ (b ++ closing)) := by
  cases h with
  | @entries s k l t u hne =>
    have hwords := Term.wordsOfEntries_append [(k, t)] [(l, u)]
    rw [Spot.words_fill, ← List.append_assoc (Term.wordsOfEntries _), ← hwords]
    rfl
  | declarations before after hd he hne => rw [words_append, words_cons, words_cons]

/-- A program follows what it is with the two in each other's place. -/
theorem Exchanged.follows (h : Exchanged p p' opening a b closing) : p.Follows p' := by
  cases h with
  | entries s t u hne => exact s.follows_fill (Term.followsEntries_swap hne t u)
  | declarations before after hd he hne => exact .append_left before (follows_swap hd he hne after)

/-- What is dropped are the words of the entry; those before it and those behind it are left. -/
theorem Dropped.words (h : Dropped p p' opening a closing) :
    p.words = opening ++ (a ++ closing) ∧ p'.words = opening ++ closing := by
  cases h with
  | @entry s k t es hkey =>
    refine ⟨?_, s.words_fill es⟩
    have hwords := Term.wordsOfEntries_append [(k, t)] es
    rw [Spot.words_fill, ← List.append_assoc (Term.wordsOfEntries _), ← hwords]
    rfl
  | declaration before hd hkey => exact ⟨by rw [words_append, words_cons], words_append _ _⟩

/-- A program follows what it is without what is written again. -/
theorem Dropped.follows (h : Dropped p p' opening a closing) : p.Follows p' := by
  cases h with
  | entry s t hkey => exact s.follows_fill (Term.followsEntries_drop hkey t)
  | declaration before hd hkey => exact .append_left before (follows_drop hd hkey)

end Program

end HexConfig
