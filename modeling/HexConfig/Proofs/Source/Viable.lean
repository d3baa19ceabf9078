import HexConfig.Proofs.Source.Grammar

/-!
# Beginnings of source texts

A row of kinds is *viable* if there is something to put behind it that makes a whole text of it. What that
can be is known after every kind without looking any further: at each point of a text there is a row of
*goals* to be reached one after the other, and the next kind alone decides what becomes of the first of
them (`Goal.next?`). That the grammar is of this sort is `derivesAll_cons_cons`.

So viability is decided by following the goals along the row (`viable_iff`), and a row is a whole text if
no goal is left behind it (`derives_program_iff`).
-/

namespace HexConfig.Grammar

/-- The row of kinds begins a text. -/
def Viable (ks : List Token.Kind) : Prop := ∃ rest, Derives .program (ks ++ rest)

/-- What is still to come at some point of a text. -/
inductive Goal where
  /-- One token. -/
  | kind (k : Token.Kind)
  /-- A value. -/
  | value
  /-- What is left of an array: items, and the closing parenthesis. -/
  | arrayRest
  /-- What is left of an object: entries, and the closing brace. -/
  | objectRest
  /-- What is left of a text: declarations, and the end. -/
  | programRest
  deriving DecidableEq

namespace Goal

/-- The rows that reach a goal. -/
def Derives : Goal → List Token.Kind → Prop
  | kind k, ks => ks = [k]
  | value, ks => Grammar.Derives .value ks
  | arrayRest, ks => ∃ items, Grammar.Derives .items items ∧ ks = items ++ [.rightParen]
  | objectRest, ks => ∃ entries, Grammar.Derives .entries entries ∧ ks = entries ++ [.rightBrace]
  | programRest, ks => Grammar.Derives .program ks

/-- What is still to come of a value behind its first token. -/
def valueNext? : Token.Kind → Option (List Goal)
  | .number => some []
  | .text => some []
  | .hash => some [kind .leftParen, arrayRest]
  | .question => some [kind .leftBracket, kind .identifier, kind .rightBracket]
  | .leftBrace => some [objectRest]
  | _ => none

/-- What is still to come of a goal behind its first token, if the token can be the first. -/
def next? : Goal → Token.Kind → Option (List Goal)
  | kind k, k' => if k' = k then some [] else none
  | value, k => valueNext? k
  | arrayRest, k => if k = .rightParen then some [] else (valueNext? k).map (· ++ [arrayRest])
  | objectRest, .rightBrace => some []
  | objectRest, .identifier => some [kind .equals, value, objectRest]
  | objectRest, _ => none
  | programRest, .finish => some []
  | programRest, .global => some [kind .identifier, kind .equals, value, programRest]
  | programRest, .identifier => some [kind .equals, value, programRest]
  | programRest, .leftBrace => some [objectRest, programRest]
  | programRest, _ => none

end Goal

/-- The rows that reach goals one after the other. -/
def DerivesAll : List Goal → List Token.Kind → Prop
  | [], ks => ks = []
  | g :: gs, ks => ∃ front back, ks = front ++ back ∧ g.Derives front ∧ DerivesAll gs back

variable {g : Goal} {gs hs : List Goal} {k : Token.Kind} {ks ls : List Token.Kind}

theorem derivesAll_cons (hks : g.Derives ks) (hls : DerivesAll gs ls) :
    DerivesAll (g :: gs) (ks ++ ls) :=
  ⟨ks, ls, rfl, hks, hls⟩

theorem derivesAll_singleton : DerivesAll [g] ks ↔ g.Derives ks := by
  constructor
  · rintro ⟨front, back, rfl, hfront, rfl⟩
    rwa [List.append_nil]
  · intro h
    exact ⟨ks, [], (List.append_nil ks).symm, h, rfl⟩

/-- A kind of token as a goal is met by a token of that kind. -/
theorem derivesAll_kind_cons :
    DerivesAll (.kind k :: gs) ks ↔ ∃ rest, ks = k :: rest ∧ DerivesAll gs rest := by
  constructor
  · rintro ⟨front, back, rfl, rfl, hback⟩
    exact ⟨back, rfl, hback⟩
  · rintro ⟨rest, rfl, hrest⟩
    exact ⟨[k], rest, rfl, rfl, hrest⟩

/-- Goals behind others are met by what stands behind what meets those. -/
theorem derivesAll_append :
    DerivesAll (gs ++ hs) ks ↔
      ∃ front back, ks = front ++ back ∧ DerivesAll gs front ∧ DerivesAll hs back := by
  induction gs generalizing ks with
  | nil =>
    constructor
    · intro h
      exact ⟨[], ks, rfl, rfl, h⟩
    · rintro ⟨front, back, rfl, rfl, hback⟩
      exact hback
  | cons g gs ih =>
    constructor
    · rintro ⟨front, back, rfl, hfront, hback⟩
      obtain ⟨middle, back, rfl, hmiddle, hback⟩ := ih.mp hback
      exact ⟨front ++ middle, back, (List.append_assoc _ _ _).symm,
        derivesAll_cons hfront hmiddle, hback⟩
    · rintro ⟨front, back, rfl, ⟨front, middle, rfl, hfront, hmiddle⟩, hback⟩
      exact ⟨front, middle ++ back, List.append_assoc _ _ _, hfront,
        ih.mpr ⟨middle, back, rfl, hmiddle, hback⟩⟩

namespace Goal

/-! ## One kind -/

/-- A value has a first token, which decides what is to come behind it. -/
theorem exists_valueNext? (h : Grammar.Derives .value ks) :
    ∃ k ls gs, ks = k :: ls ∧ valueNext? k = some gs ∧ DerivesAll gs ls := by
  cases h with
  | number => exact ⟨.number, [], [], rfl, rfl, rfl⟩
  | text => exact ⟨.text, [], [], rfl, rfl, rfl⟩
  | array hitems =>
    refine ⟨.hash, _, _, rfl, rfl, derivesAll_kind_cons.mpr ⟨_, rfl, ?_⟩⟩
    exact derivesAll_singleton.mpr ⟨_, hitems, rfl⟩
  | reference =>
    refine ⟨.question, _, _, rfl, rfl, derivesAll_kind_cons.mpr ⟨_, rfl, ?_⟩⟩
    exact derivesAll_kind_cons.mpr ⟨_, rfl, derivesAll_kind_cons.mpr ⟨_, rfl, rfl⟩⟩
  | ofObject hobject =>
    cases hobject with
    | braces hentries =>
      exact ⟨.leftBrace, _, _, rfl, rfl, derivesAll_singleton.mpr ⟨_, hentries, rfl⟩⟩

/-- A first token and what meets the goals behind it make a value. -/
theorem derives_value_of_valueNext? (h : valueNext? k = some gs) (hks : DerivesAll gs ks) :
    Grammar.Derives .value (k :: ks) := by
  cases k with
  | number =>
    cases h
    rw [show ks = [] from hks]
    exact .number
  | text =>
    cases h
    rw [show ks = [] from hks]
    exact .text
  | hash =>
    cases h
    obtain ⟨_, rfl, hrest⟩ := derivesAll_kind_cons.mp hks
    obtain ⟨items, hitems, rfl⟩ := derivesAll_singleton.mp hrest
    exact .array hitems
  | question =>
    cases h
    obtain ⟨_, rfl, hname⟩ := derivesAll_kind_cons.mp hks
    obtain ⟨_, rfl, hclose⟩ := derivesAll_kind_cons.mp hname
    obtain rfl := derivesAll_singleton.mp hclose
    exact .reference
  | leftBrace =>
    cases h
    obtain ⟨entries, hentries, rfl⟩ := derivesAll_singleton.mp hks
    exact .ofObject (.braces hentries)
  | _ => exact nomatch h

/-- What an array goes on with behind the first token of one more item. -/
theorem next?_arrayRest (h : valueNext? k = some gs) :
    arrayRest.next? k = some (gs ++ [arrayRest]) := by
  have hk : k ≠ .rightParen := by
    rintro rfl
    exact nomatch h
  rw [next?, if_neg hk, h, Option.map_some]

/-- A value with the rest of a text behind it. -/
theorem derivesAll_value_programRest (hvalue : Grammar.Derives .value ks)
    (hrest : Grammar.Derives .declarations ls) :
    DerivesAll [value, programRest] (ks ++ (ls ++ [.finish])) :=
  derivesAll_cons (g := value) hvalue (derivesAll_singleton.mpr (.whole hrest))

/-- Whatever reaches a goal has a first token, which decides what is to come behind it. -/
theorem exists_next? (h : g.Derives ks) :
    ∃ k ls gs, ks = k :: ls ∧ g.next? k = some gs ∧ DerivesAll gs ls := by
  cases g with
  | kind k =>
    obtain rfl : ks = [k] := h
    exact ⟨k, [], [], rfl, if_pos rfl, rfl⟩
  | value => exact exists_valueNext? h
  | arrayRest =>
    obtain ⟨items, hitems, rfl⟩ := h
    cases hitems with
    | noItems => exact ⟨.rightParen, [], [], rfl, rfl, rfl⟩
    | @item _ rest hvalue hrest =>
      obtain ⟨k, ls, gs, rfl, hnext, hls⟩ := exists_valueNext? hvalue
      refine ⟨k, ls ++ (rest ++ [.rightParen]), _, by simp, next?_arrayRest hnext, ?_⟩
      exact derivesAll_append.mpr
        ⟨_, _, rfl, hls, derivesAll_singleton.mpr ⟨rest, hrest, rfl⟩⟩
  | objectRest =>
    obtain ⟨entries, hentries, rfl⟩ := h
    cases hentries with
    | noEntries => exact ⟨.rightBrace, [], [], rfl, rfl, rfl⟩
    | @keyed vs rest hvalue hrest =>
      have hmore := derivesAll_cons (g := value) hvalue
        (derivesAll_singleton.mpr (show objectRest.Derives _ from ⟨rest, hrest, rfl⟩))
      exact ⟨.identifier, .equals :: (vs ++ (rest ++ [.rightBrace])), _, by simp, rfl,
        derivesAll_kind_cons.mpr ⟨_, rfl, hmore⟩⟩
  | programRest =>
    have h : Grammar.Derives .program ks := h
    cases h with
    | whole hdeclarations =>
      cases hdeclarations with
      | noDeclarations => exact ⟨.finish, [], [], rfl, rfl, rfl⟩
      | @global vs rest hvalue hrest =>
        have hmore := derivesAll_value_programRest hvalue hrest
        exact ⟨.global, .identifier :: .equals :: (vs ++ (rest ++ [.finish])), _, by simp, rfl,
          derivesAll_kind_cons.mpr ⟨_, rfl, derivesAll_kind_cons.mpr ⟨_, rfl, hmore⟩⟩⟩
      | @entry vs rest hvalue hrest =>
        have hmore := derivesAll_value_programRest hvalue hrest
        exact ⟨.identifier, .equals :: (vs ++ (rest ++ [.finish])), _, by simp, rfl,
          derivesAll_kind_cons.mpr ⟨_, rfl, hmore⟩⟩
      | @block _ rest hobject hrest =>
        cases hobject with
        | @braces es hentries =>
          have hobject : objectRest.Derives (es ++ [.rightBrace]) := ⟨es, hentries, rfl⟩
          have hmore : programRest.Derives (rest ++ [.finish]) := .whole hrest
          exact ⟨.leftBrace, (es ++ [.rightBrace]) ++ (rest ++ [.finish]), _, by simp, rfl,
            derivesAll_cons hobject (derivesAll_singleton.mpr hmore)⟩

/-- One more declaration in front of a text. -/
theorem derives_program_append
    (h : ∀ {rest}, Grammar.Derives .declarations rest → Grammar.Derives .declarations (ks ++ rest))
    (hls : Grammar.Derives .program ls) : Grammar.Derives .program (ks ++ ls) := by
  cases hls with
  | whole hrest =>
    rw [← List.append_assoc]
    exact .whole (h hrest)

/-- A first token and what meets the goals behind it meet the goal. -/
theorem derives_of_next? (h : g.next? k = some gs) (hks : DerivesAll gs ks) :
    g.Derives (k :: ks) := by
  cases g with
  | kind k' =>
    obtain ⟨rfl, hgs⟩ := Option.ite_none_right_eq_some.mp h
    cases hgs
    rw [show ks = [] from hks]
    exact rfl
  | value => exact derives_value_of_valueNext? h hks
  | arrayRest =>
    by_cases hk : k = .rightParen
    · rw [next?, if_pos hk] at h
      cases h
      rw [hk, show ks = [] from hks]
      exact ⟨[], .noItems, rfl⟩
    · rw [next?, if_neg hk] at h
      obtain ⟨gs, hnext, rfl⟩ := Option.map_eq_some_iff.mp h
      obtain ⟨front, back, rfl, hfront, hback⟩ := derivesAll_append.mp hks
      obtain ⟨rest, hrest, rfl⟩ := derivesAll_singleton.mp hback
      exact ⟨_, .item (derives_value_of_valueNext? hnext hfront) hrest, by simp⟩
  | objectRest =>
    cases k with
    | rightBrace =>
      cases h
      rw [show ks = [] from hks]
      exact ⟨[], .noEntries, rfl⟩
    | identifier =>
      cases h
      obtain ⟨_, rfl, front, back, rfl, hvalue, hback⟩ := derivesAll_kind_cons.mp hks
      obtain ⟨rest, hrest, rfl⟩ := derivesAll_singleton.mp hback
      exact ⟨_, .keyed hvalue hrest, by simp⟩
    | _ => exact nomatch h
  | programRest =>
    cases k with
    | finish =>
      cases h
      rw [show ks = [] from hks]
      exact .whole .noDeclarations
    | global =>
      cases h
      obtain ⟨_, rfl, hequals⟩ := derivesAll_kind_cons.mp hks
      obtain ⟨_, rfl, front, back, rfl, hvalue, hback⟩ := derivesAll_kind_cons.mp hequals
      have hwhole : Grammar.Derives .program
          ((.global :: .identifier :: .equals :: front) ++ back) :=
        derives_program_append (.global hvalue) (derivesAll_singleton.mp hback)
      exact hwhole
    | identifier =>
      cases h
      obtain ⟨_, rfl, front, back, rfl, hvalue, hback⟩ := derivesAll_kind_cons.mp hks
      have hwhole : Grammar.Derives .program ((.identifier :: .equals :: front) ++ back) :=
        derives_program_append (.entry hvalue) (derivesAll_singleton.mp hback)
      exact hwhole
    | leftBrace =>
      cases h
      obtain ⟨front, back, rfl, ⟨entries, hentries, rfl⟩, hback⟩ := hks
      exact derives_program_append (.block (.braces hentries)) (derivesAll_singleton.mp hback)
    | _ => exact nomatch h

/-- No goal is met by nothing at all. -/
theorem not_derives_nil : ¬ g.Derives [] := by
  intro h
  obtain ⟨_, _, _, heq, -⟩ := exists_next? h
  exact nomatch heq

/-- Every goal can be reached. -/
theorem exists_derives (g : Goal) : ∃ ks, g.Derives ks := by
  cases g with
  | kind k => exact ⟨[k], rfl⟩
  | value => exact ⟨_, .number⟩
  | arrayRest => exact ⟨_, _, .noItems, rfl⟩
  | objectRest => exact ⟨_, _, .noEntries, rfl⟩
  | programRest => exact ⟨_, .whole .noDeclarations⟩

end Goal

/-! ## Rows of kinds -/

/-- What is still to come behind a row of kinds, if the row can begin what reaches the goals. -/
def follow : List Goal → List Token.Kind → Option (List Goal)
  | gs, [] => some gs
  | [], _ :: _ => none
  | g :: gs, k :: ks => (g.next? k).bind fun hs => follow (hs ++ gs) ks

theorem derivesAll_nil_right : DerivesAll gs [] ↔ gs = [] := by
  constructor
  · intro h
    cases gs with
    | nil => rfl
    | cons g gs =>
      obtain ⟨front, back, heq, hfront, -⟩ := h
      obtain ⟨rfl, -⟩ := List.append_eq_nil_iff.mp heq.symm
      exact absurd hfront Goal.not_derives_nil
  · rintro rfl
    rfl

/-- The first token of whatever reaches the goals decides what is to come behind it. -/
theorem derivesAll_cons_cons :
    DerivesAll (g :: gs) (k :: ks) ↔ ∃ hs, g.next? k = some hs ∧ DerivesAll (hs ++ gs) ks := by
  constructor
  · rintro ⟨front, back, heq, hfront, hback⟩
    obtain ⟨k', ls, hs, rfl, hnext, hls⟩ := Goal.exists_next? hfront
    obtain ⟨rfl, rfl⟩ := List.cons.inj heq
    exact ⟨hs, hnext, derivesAll_append.mpr ⟨ls, back, rfl, hls, hback⟩⟩
  · rintro ⟨hs, hnext, h⟩
    obtain ⟨front, back, rfl, hfront, hback⟩ := derivesAll_append.mp h
    exact ⟨k :: front, back, rfl, Goal.derives_of_next? hnext hfront, hback⟩

/-- What may stand behind a row is what reaches the goals that are left behind it. -/
theorem derivesAll_append_iff :
    DerivesAll gs (ks ++ ls) ↔ ∃ hs, follow gs ks = some hs ∧ DerivesAll hs ls := by
  induction ks generalizing gs with
  | nil => simp [follow]
  | cons k ks ih =>
    cases gs with
    | nil => simp [follow, DerivesAll]
    | cons g gs =>
      rw [List.cons_append, derivesAll_cons_cons, follow]
      simp only [ih, Option.bind_eq_some_iff]
      constructor
      · rintro ⟨hs, hnext, hs', hfollow, hls⟩
        exact ⟨hs', ⟨hs, hnext, hfollow⟩, hls⟩
      · rintro ⟨hs', ⟨hs, hnext, hfollow⟩, hls⟩
        exact ⟨hs, hnext, hs', hfollow, hls⟩

/-- Following two rows is following the one and then the other. -/
theorem follow_append : follow gs (ks ++ ls) = (follow gs ks).bind (follow · ls) := by
  induction ks generalizing gs with
  | nil => rfl
  | cons k ks ih =>
    cases gs with
    | nil => rfl
    | cons g gs =>
      rw [List.cons_append, follow, follow, Option.bind_assoc]
      simp only [ih]

/-- All goals can be reached. -/
theorem exists_derivesAll (gs : List Goal) : ∃ ks, DerivesAll gs ks := by
  induction gs with
  | nil => exact ⟨[], rfl⟩
  | cons g gs ih =>
    obtain ⟨ks, hks⟩ := g.exists_derives
    obtain ⟨ls, hls⟩ := ih
    exact ⟨ks ++ ls, derivesAll_cons hks hls⟩

/-- A row begins a text if the goals can be followed along it. -/
theorem viable_iff : Viable ks ↔ (follow [.programRest] ks).isSome := by
  rw [Option.isSome_iff_exists]
  constructor
  · rintro ⟨rest, h⟩
    obtain ⟨hs, hfollow, -⟩ := derivesAll_append_iff.mp
      (derivesAll_singleton.mpr (show Goal.programRest.Derives (ks ++ rest) from h))
    exact ⟨hs, hfollow⟩
  · rintro ⟨hs, hfollow⟩
    obtain ⟨rest, hrest⟩ := exists_derivesAll hs
    exact ⟨rest, derivesAll_singleton.mp (derivesAll_append_iff.mpr ⟨hs, hfollow, hrest⟩)⟩

/-- A row is a whole text if no goal is left behind it. -/
theorem derives_program_iff : Derives .program ks ↔ follow [.programRest] ks = some [] := by
  have h : DerivesAll [.programRest] (ks ++ []) ↔ _ := derivesAll_append_iff
  rw [List.append_nil, derivesAll_singleton] at h
  simp only [derivesAll_nil_right, exists_eq_right] at h
  exact h

instance : DecidablePred Viable := fun _ => decidable_of_iff _ viable_iff.symm

instance : DecidablePred (Derives .program) := fun _ => decidable_of_iff _ derives_program_iff.symm

/-- What begins a beginning of a text begins a text. -/
theorem Viable.of_append (h : Viable (ks ++ ls)) : Viable ks := by
  obtain ⟨rest, hrest⟩ := h
  exact ⟨ls ++ rest, by rwa [← List.append_assoc]⟩

end HexConfig.Grammar
