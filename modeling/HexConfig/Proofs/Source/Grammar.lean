import HexConfig.Proofs.Source.Unambiguous
import HexConfig.Proofs.Token.Proper

/-!
# The grammar, on kinds of tokens

The grammar of the language says nothing of the texts that tokens carry: it is a grammar of rows of
kinds. Here it is by itself, as derivations of such rows, with no tree in sight.

`Grammar.derives_kinds_iff` ties it to the trees: the kinds of a text can be derived exactly if its
tokens are the words of a program. One half reads the tree off the derivation, where a sign needs its
word to be proper to be the sign that trees write; the other reads the derivation off the tree.
-/

namespace HexConfig

/-- The kinds of a row of tokens, the mark of the end among them. -/
def Tokens.kinds (ts : Tokens) : List Token.Kind := ts.toList.map Token.kind

namespace Grammar

/-- What rows of kinds are derived for. -/
inductive Symbol where
  /-- A whole text, the mark of its end included. -/
  | program
  /-- Any number of declarations. -/
  | declarations
  /-- A value. -/
  | value
  /-- Any number of values. -/
  | items
  /-- Any number of names with values. -/
  | entries
  /-- An object. -/
  | object

/-- The rows of kinds that the grammar derives. -/
inductive Derives : Symbol → List Token.Kind → Prop
  | whole {ks : List Token.Kind} : Derives .declarations ks → Derives .program (ks ++ [.finish])
  | noDeclarations : Derives .declarations []
  | global {ks rest : List Token.Kind} : Derives .value ks → Derives .declarations rest →
      Derives .declarations (.global :: .identifier :: .equals :: (ks ++ rest))
  | entry {ks rest : List Token.Kind} : Derives .value ks → Derives .declarations rest →
      Derives .declarations (.identifier :: .equals :: (ks ++ rest))
  | block {ks rest : List Token.Kind} : Derives .object ks → Derives .declarations rest →
      Derives .declarations (ks ++ rest)
  | number : Derives .value [.number]
  | text : Derives .value [.text]
  | array {ks : List Token.Kind} : Derives .items ks →
      Derives .value (.hash :: .leftParen :: (ks ++ [.rightParen]))
  | reference : Derives .value [.question, .leftBracket, .identifier, .rightBracket]
  | ofObject {ks : List Token.Kind} : Derives .object ks → Derives .value ks
  | noItems : Derives .items []
  | item {ks rest : List Token.Kind} : Derives .value ks → Derives .items rest →
      Derives .items (ks ++ rest)
  | noEntries : Derives .entries []
  | keyed {ks rest : List Token.Kind} : Derives .value ks → Derives .entries rest →
      Derives .entries (.identifier :: .equals :: (ks ++ rest))
  | braces {ks : List Token.Kind} : Derives .entries ks →
      Derives .object (.leftBrace :: (ks ++ [.rightBrace]))

/-- The grammar has no use for invalid tokens. -/
theorem Derives.invalid_not_mem {symbol : Symbol} {ks : List Token.Kind} (h : Derives symbol ks) :
    Token.Kind.invalid ∉ ks := by
  induction h <;> simp_all

/-! ## From trees to derivations -/

/-- The kinds of a row of words. -/
abbrev kindsOf (ws : List Word) : List Token.Kind := ws.map Prod.fst

mutual

theorem derives_words : ∀ t : Term, Derives .value (kindsOf t.words)
  | .number _ => .number
  | .string _ => .text
  | .reference _ => .reference
  | .array items => by
    have h := Derives.array (derives_wordsOfItems items)
    simpa [Term.words] using h
  | .object entries => .ofObject (by
    have h := Derives.braces (derives_wordsOfEntries entries)
    simpa [Term.words] using h)

theorem derives_wordsOfItems : ∀ ts : List Term, Derives .items (kindsOf (Term.wordsOfItems ts))
  | [] => .noItems
  | t :: ts => by
    have h := Derives.item (derives_words t) (derives_wordsOfItems ts)
    simpa [Term.wordsOfItems] using h

theorem derives_wordsOfEntries :
    ∀ es : List (String × Term), Derives .entries (kindsOf (Term.wordsOfEntries es))
  | [] => .noEntries
  | (_, t) :: es => by
    have h := Derives.keyed (derives_words t) (derives_wordsOfEntries es)
    simpa [Term.wordsOfEntries] using h

end

/-- The kinds of a program's words are derived. -/
theorem derives_program (p : Program) : Derives .declarations (kindsOf (Program.words p)) := by
  induction p with
  | nil => exact .noDeclarations
  | cons d p ih =>
    rw [Program.words_cons, kindsOf, List.map_append]
    cases d with
    | global name t => exact .global (derives_words t) ih
    | entry key t => exact .entry (derives_words t) ih
    | block entries =>
      refine .block ?_ ih
      have h := Derives.braces (derives_wordsOfEntries entries)
      simpa [Declaration.words, Term.words] using h

/-! ## From derivations to trees -/

/-- What a row of proper words is whose kinds are derived for a symbol. -/
def Reads : Symbol → List Word → Prop
  | .program, _ => True
  | .declarations, ws => ∃ p : Program, ws = p.words
  | .value, ws => ∃ t : Term, ws = t.words
  | .items, ws => ∃ ts : List Term, ws = Term.wordsOfItems ts
  | .entries, ws => ∃ es : List (String × Term), ws = Term.wordsOfEntries es
  | .object, ws => ∃ es : List (String × Term), ws = (Term.object es).words

/-- A word of a row whose kinds are known, first in the row. -/
theorem cons_of_kindsOf {ws : List Word} {k : Token.Kind} {ks : List Token.Kind}
    (hproper : ∀ w ∈ ws, Word.Proper w) (h : kindsOf ws = k :: ks) :
    ∃ text ws', ws = (k, text) :: ws' ∧ Word.Proper (k, text) ∧ kindsOf ws' = ks ∧
      ∀ w ∈ ws', Word.Proper w := by
  obtain ⟨⟨k', text⟩, ws', rfl, rfl, rfl⟩ := List.map_eq_cons_iff.mp h
  exact ⟨text, ws', rfl, hproper _ List.mem_cons_self, rfl,
    fun w hw => hproper w (List.mem_cons_of_mem _ hw)⟩

/-- The same for a sign, which proper words leave no choice of. -/
theorem sign_of_kindsOf {ws : List Word} {k : Token.Kind} {ks : List Token.Kind} {sign : String}
    (hproper : ∀ w ∈ ws, Word.Proper w) (h : kindsOf ws = k :: ks) (hk : k.sign? = some sign) :
    ∃ ws', ws = (k, sign) :: ws' ∧ kindsOf ws' = ks ∧ ∀ w ∈ ws', Word.Proper w := by
  obtain ⟨text, ws', rfl, hword, hks, hrest⟩ := cons_of_kindsOf hproper h
  have hw : (k, text) = (k, sign) := hword.eq_sign hk
  exact ⟨ws', by rw [hw], hks, hrest⟩

/-- A row whose kinds are those of two rows is two rows. -/
theorem append_of_kindsOf {ws : List Word} {ks ls : List Token.Kind}
    (hproper : ∀ w ∈ ws, Word.Proper w) (h : kindsOf ws = ks ++ ls) :
    ∃ us vs, ws = us ++ vs ∧ (kindsOf us = ks ∧ ∀ w ∈ us, Word.Proper w) ∧
      (kindsOf vs = ls ∧ ∀ w ∈ vs, Word.Proper w) := by
  obtain ⟨us, vs, rfl, hus, hvs⟩ := List.map_eq_append_iff.mp h
  obtain ⟨hleft, hright⟩ := List.forall_mem_append.mp hproper
  exact ⟨us, vs, rfl, ⟨hus, hleft⟩, hvs, hright⟩

/-- Proper words of the kinds that a symbol derives read as the symbol. -/
theorem Derives.reads {symbol : Symbol} {ks : List Token.Kind} (h : Derives symbol ks) :
    ∀ {ws : List Word}, (∀ w ∈ ws, Word.Proper w) → kindsOf ws = ks → Reads symbol ws := by
  induction h with
  | whole => exact fun _ _ => trivial
  | noDeclarations => exact fun _ hks => ⟨[], List.map_eq_nil_iff.mp hks⟩
  | global _ _ ihv ihr =>
    intro ws hproper hks
    obtain ⟨ws, rfl, hks, hproper⟩ := sign_of_kindsOf hproper hks rfl
    obtain ⟨name, ws, rfl, -, hks, hproper⟩ := cons_of_kindsOf hproper hks
    obtain ⟨ws, rfl, hks, hproper⟩ := sign_of_kindsOf hproper hks rfl
    obtain ⟨us, vs, rfl, ⟨hus, hleft⟩, hvs, hright⟩ := append_of_kindsOf hproper hks
    obtain ⟨t, rfl⟩ := ihv hleft hus
    obtain ⟨p, rfl⟩ := ihr hright hvs
    exact ⟨.global name t :: p, rfl⟩
  | entry _ _ ihv ihr =>
    intro ws hproper hks
    obtain ⟨key, ws, rfl, -, hks, hproper⟩ := cons_of_kindsOf hproper hks
    obtain ⟨ws, rfl, hks, hproper⟩ := sign_of_kindsOf hproper hks rfl
    obtain ⟨us, vs, rfl, ⟨hus, hleft⟩, hvs, hright⟩ := append_of_kindsOf hproper hks
    obtain ⟨t, rfl⟩ := ihv hleft hus
    obtain ⟨p, rfl⟩ := ihr hright hvs
    exact ⟨.entry key t :: p, rfl⟩
  | block _ _ iho ihr =>
    intro ws hproper hks
    obtain ⟨us, vs, rfl, ⟨hus, hleft⟩, hvs, hright⟩ := append_of_kindsOf hproper hks
    obtain ⟨es, rfl⟩ := iho hleft hus
    obtain ⟨p, rfl⟩ := ihr hright hvs
    exact ⟨.block es :: p, rfl⟩
  | number =>
    intro ws hproper hks
    obtain ⟨digits, ws, rfl, -, hks, hproper⟩ := cons_of_kindsOf hproper hks
    rw [List.map_eq_nil_iff.mp hks]
    exact ⟨.number digits, rfl⟩
  | text =>
    intro ws hproper hks
    obtain ⟨s, ws, rfl, -, hks, hproper⟩ := cons_of_kindsOf hproper hks
    rw [List.map_eq_nil_iff.mp hks]
    exact ⟨.string s, rfl⟩
  | array _ ih =>
    intro ws hproper hks
    obtain ⟨ws, rfl, hks, hproper⟩ := sign_of_kindsOf hproper hks rfl
    obtain ⟨ws, rfl, hks, hproper⟩ := sign_of_kindsOf hproper hks rfl
    obtain ⟨us, vs, rfl, ⟨hus, hleft⟩, hvs, hright⟩ := append_of_kindsOf hproper hks
    obtain ⟨ts, rfl⟩ := ih hleft hus
    obtain ⟨vs, rfl, hvs, -⟩ := sign_of_kindsOf hright hvs rfl
    rw [List.map_eq_nil_iff.mp hvs]
    exact ⟨.array ts, rfl⟩
  | reference =>
    intro ws hproper hks
    obtain ⟨ws, rfl, hks, hproper⟩ := sign_of_kindsOf hproper hks rfl
    obtain ⟨ws, rfl, hks, hproper⟩ := sign_of_kindsOf hproper hks rfl
    obtain ⟨name, ws, rfl, -, hks, hproper⟩ := cons_of_kindsOf hproper hks
    obtain ⟨ws, rfl, hks, -⟩ := sign_of_kindsOf hproper hks rfl
    rw [List.map_eq_nil_iff.mp hks]
    exact ⟨.reference name, rfl⟩
  | ofObject _ ih =>
    intro ws hproper hks
    obtain ⟨es, rfl⟩ := ih hproper hks
    exact ⟨.object es, rfl⟩
  | noItems => exact fun _ hks => ⟨[], List.map_eq_nil_iff.mp hks⟩
  | item _ _ ihv ihr =>
    intro ws hproper hks
    obtain ⟨us, vs, rfl, ⟨hus, hleft⟩, hvs, hright⟩ := append_of_kindsOf hproper hks
    obtain ⟨t, rfl⟩ := ihv hleft hus
    obtain ⟨ts, rfl⟩ := ihr hright hvs
    exact ⟨t :: ts, rfl⟩
  | noEntries => exact fun _ hks => ⟨[], List.map_eq_nil_iff.mp hks⟩
  | keyed _ _ ihv ihr =>
    intro ws hproper hks
    obtain ⟨key, ws, rfl, -, hks, hproper⟩ := cons_of_kindsOf hproper hks
    obtain ⟨ws, rfl, hks, hproper⟩ := sign_of_kindsOf hproper hks rfl
    obtain ⟨us, vs, rfl, ⟨hus, hleft⟩, hvs, hright⟩ := append_of_kindsOf hproper hks
    obtain ⟨t, rfl⟩ := ihv hleft hus
    obtain ⟨es, rfl⟩ := ihr hright hvs
    exact ⟨(key, t) :: es, rfl⟩
  | braces _ ih =>
    intro ws hproper hks
    obtain ⟨ws, rfl, hks, hproper⟩ := sign_of_kindsOf hproper hks rfl
    obtain ⟨us, vs, rfl, ⟨hus, hleft⟩, hvs, hright⟩ := append_of_kindsOf hproper hks
    obtain ⟨es, rfl⟩ := ih hleft hus
    obtain ⟨vs, rfl, hvs, -⟩ := sign_of_kindsOf hright hvs rfl
    rw [List.map_eq_nil_iff.mp hvs]
    exact ⟨es, rfl⟩

/-- The kinds of a text are derived exactly if its tokens are the words of a program. -/
theorem derives_kinds_iff (source : String) :
    Derives .program (Tokens.ofText source).kinds ↔
      ∃ p : Program, (Tokens.ofText source).words = p.words := by
  have hkinds : (Tokens.ofText source).kinds
      = kindsOf (Tokens.ofText source).words ++ [.finish] := by
    simp [Tokens.kinds, Tokens.toList, Tokens.words, Token.word, Token.finish]
  rw [hkinds]
  constructor
  · intro h
    generalize hks : kindsOf (Tokens.ofText source).words ++ [.finish] = ks at h
    cases h with
    | whole h =>
      exact h.reads (Tokens.proper_ofText source) (List.append_cancel_right hks)
  · rintro ⟨p, hp⟩
    rw [hp]
    exact .whole (derives_program p)

end Grammar

end HexConfig
