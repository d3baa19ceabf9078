import HexConfig.Proofs.Source.Viable

/-!
# Opening and closing

A container is opened by one token and closed by another, so the tokens alone say how many containers are
open. Behind any beginning of a value the goals that are left owe just the tokens that close what was opened
(`owed_of_follow`), and a goal never owes less than nothing (`Solvent`): so a value closes as many containers
as it opens, and what begins one closes no more than it opens.

That a row only begins a value can be told in front of whatever is to follow: either a front part of it is
all of the value, or the value has goals left (`exists_left_of_follow`).
-/

namespace HexConfig.Grammar

/-- A token of this kind opens a container. The mark of an array does not, its parenthesis does. -/
def opens : Token.Kind → Bool
  | .leftBrace => true
  | .leftParen => true
  | _ => false

/-- A token of this kind closes a container. -/
def closes : Token.Kind → Bool
  | .rightBrace => true
  | .rightParen => true
  | _ => false

/-- No mark both opens and closes a container. -/
theorem opens_eq_false_of_closes {k : Token.Kind} (h : closes k = true) : opens k = false := by
  cases k with
  | rightBrace | rightParen => rfl
  | _ => exact nomatch h

/-- How many containers a row opens. -/
def openings (ks : List Token.Kind) : Nat := ks.countP opens

/-- How many containers a row closes. -/
def closings (ks : List Token.Kind) : Nat := ks.countP closes

variable {g : Goal} {gs hs left : List Goal} {k : Token.Kind} {ks ls : List Token.Kind}

theorem openings_append (ks ls : List Token.Kind) : openings (ks ++ ls) = openings ks + openings ls :=
  List.countP_append

theorem closings_append (ks ls : List Token.Kind) : closings (ks ++ ls) = closings ks + closings ls :=
  List.countP_append

/-- There are no more openings than tokens. -/
theorem openings_le_length (ks : List Token.Kind) : openings ks ≤ ks.length := List.countP_le_length

/-! ## What goals owe -/

/-- How many more containers are closed than opened by whatever reaches a goal. -/
def Goal.owes : Goal → Int
  | kind k => closings [k] - openings [k]
  | value => 0
  | arrayRest => 1
  | objectRest => 1
  | programRest => 0

/-- How many more are by whatever reaches goals one after the other. -/
def owed : List Goal → Int
  | [] => 0
  | g :: gs => g.owes + owed gs

/-- What is owed for goals adds up. -/
theorem owed_append (gs hs : List Goal) : owed (gs ++ hs) = owed gs + owed hs := by
  induction gs with
  | nil => exact (Int.zero_add _).symm
  | cons g gs ih =>
    rw [List.cons_append, owed, owed, ih, Int.add_assoc]

/-- No goals at the end of a row owe less than nothing. -/
def Solvent : List Goal → Prop
  | [] => True
  | g :: gs => 0 ≤ owed (g :: gs) ∧ Solvent gs

/-- Solvent goals never owe less than nothing. -/
theorem Solvent.owed_nonneg (h : Solvent gs) : 0 ≤ owed gs := by
  cases gs with
  | nil => exact Int.le_refl 0
  | cons g gs => exact h.1

/-- Solvent goals in front of others that are leave them so. -/
theorem Solvent.append (hhs : Solvent hs) (hgs : Solvent gs) : Solvent (hs ++ gs) := by
  induction hs with
  | nil => exact hgs
  | cons g hs ih =>
    have howed : owed ((g :: hs) ++ gs) = owed (g :: hs) + owed gs := owed_append _ _
    refine ⟨?_, ih hhs.2⟩
    show 0 ≤ owed ((g :: hs) ++ gs)
    rw [howed]
    exact Int.add_nonneg hhs.1 hgs.owed_nonneg

/-- What is still to come of a value behind its first token owes what the token opens. -/
theorem owed_of_valueNext? (h : Goal.valueNext? k = some hs) :
    owed hs = openings [k] - closings [k] ∧ Solvent hs := by
  cases k with
  | number => cases h; exact ⟨rfl, trivial⟩
  | text => cases h; exact ⟨rfl, trivial⟩
  | hash => cases h; exact ⟨rfl, by decide, by decide, trivial⟩
  | question => cases h; exact ⟨rfl, by decide, by decide, by decide, trivial⟩
  | leftBrace => cases h; exact ⟨rfl, by decide, trivial⟩
  | _ => exact nomatch h

/-- What a goal owes is owed behind its first token, with what the token opens and without what it closes. -/
theorem owed_of_next? (h : g.next? k = some hs) :
    owed hs = g.owes + (openings [k] - closings [k]) ∧ Solvent hs := by
  cases g with
  | kind k' =>
    obtain ⟨rfl, heq⟩ := Option.ite_none_right_eq_some.mp h
    cases heq
    refine ⟨?_, trivial⟩
    rw [owed, Goal.owes]
    omega
  | value =>
    obtain ⟨howed, hsolvent⟩ := owed_of_valueNext? h
    exact ⟨howed.trans (Int.zero_add _).symm, hsolvent⟩
  | arrayRest =>
    by_cases hk : k = .rightParen
    · rw [Goal.next?, if_pos hk] at h
      cases h
      subst hk
      exact ⟨rfl, trivial⟩
    · rw [Goal.next?, if_neg hk] at h
      obtain ⟨gs, hnext, rfl⟩ := Option.map_eq_some_iff.mp h
      obtain ⟨howed, hsolvent⟩ := owed_of_valueNext? hnext
      refine ⟨?_, hsolvent.append ⟨by decide, trivial⟩⟩
      rw [owed_append, howed, Int.add_comm]
      rfl
  | objectRest =>
    cases k with
    | rightBrace => cases h; exact ⟨rfl, trivial⟩
    | identifier => cases h; exact ⟨rfl, by decide, by decide, by decide, trivial⟩
    | _ => cases h
  | programRest =>
    cases k with
    | finish => cases h; exact ⟨rfl, trivial⟩
    | global => cases h; exact ⟨rfl, by decide, by decide, by decide, by decide, trivial⟩
    | identifier => cases h; exact ⟨rfl, by decide, by decide, by decide, trivial⟩
    | leftBrace => cases h; exact ⟨rfl, by decide, by decide, trivial⟩
    | _ => cases h

/-- Along a row the goals come to owe what it opens and no longer owe what it closes. -/
theorem owed_of_follow (h : follow gs ks = some hs) (hgs : Solvent gs) :
    owed hs = owed gs + (openings ks - closings ks) ∧ Solvent hs := by
  induction ks generalizing gs with
  | nil =>
    cases h
    exact ⟨(Int.add_zero _).symm, hgs⟩
  | cons k ks ih =>
    cases gs with
    | nil => exact nomatch h
    | cons g gs =>
      obtain ⟨front, hnext, h⟩ := Option.bind_eq_some_iff.mp h
      obtain ⟨hfront, hsolvent⟩ := owed_of_next? hnext
      obtain ⟨howed, hleft⟩ := ih h (hsolvent.append hgs.2)
      refine ⟨?_, hleft⟩
      have hopenings : openings (k :: ks) = openings [k] + openings ks := openings_append [k] ks
      have hclosings : closings (k :: ks) = closings [k] + closings ks := closings_append [k] ks
      rw [howed, owed_append, hfront, owed, hopenings, hclosings]
      omega

/-- What begins a value closes no more containers than it opens. -/
theorem closings_le_openings_of_follow (h : follow [.value] ks = some left) : closings ks ≤ openings ks := by
  obtain ⟨howed, hleft⟩ := owed_of_follow h ⟨by decide, trivial⟩
  have hnonneg := hleft.owed_nonneg
  rw [howed] at hnonneg
  have hvalue : owed [.value] = 0 := rfl
  omega

/-- A row that is followed to the end of its goals is what reaches them. -/
theorem follow_eq_nil_iff : follow gs ks = some [] ↔ DerivesAll gs ks := by
  have h : DerivesAll gs (ks ++ []) ↔ _ := derivesAll_append_iff
  rw [List.append_nil] at h
  simp only [derivesAll_nil_right, exists_eq_right] at h
  exact h.symm

/-- A value closes as many containers as it opens. -/
theorem closings_eq_openings_of_derives (h : Derives .value ks) : closings ks = openings ks := by
  have hfollow : follow [.value] ks = some [] :=
    follow_eq_nil_iff.mpr (derivesAll_singleton.mpr (show Goal.value.Derives ks from h))
  obtain ⟨howed, -⟩ := owed_of_follow hfollow ⟨by decide, trivial⟩
  have hvalue : owed [.value] = 0 := rfl
  have hnil : owed [] = 0 := rfl
  omega

/-! ## What is left of the first goals -/

/-- A row that is followed along some goals and more behind them either has a front part that reaches the
first, or leaves something of them. -/
theorem exists_left_of_follow (h : follow (gs ++ hs) ks = some left) :
    (∃ front back, ks = front ++ back ∧ follow gs front = some []) ∨
      ∃ g gs', follow gs ks = some (g :: gs') ∧ left = g :: gs' ++ hs := by
  induction ks generalizing gs with
  | nil =>
    cases h
    cases gs with
    | nil => exact .inl ⟨[], [], rfl, rfl⟩
    | cons g gs => exact .inr ⟨g, gs, rfl, rfl⟩
  | cons k ks ih =>
    cases gs with
    | nil => exact .inl ⟨[], k :: ks, rfl, rfl⟩
    | cons g gs =>
      obtain ⟨next, hnext, h⟩ := Option.bind_eq_some_iff.mp h
      have h : follow ((next ++ gs) ++ hs) ks = some left := by rwa [List.append_assoc]
      rcases ih h with ⟨front, back, rfl, hfront⟩ | ⟨g', gs', hleft, rfl⟩
      · refine .inl ⟨k :: front, back, rfl, ?_⟩
        rw [follow, hnext]
        exact hfront
      · refine .inr ⟨g', gs', ?_, rfl⟩
        rw [follow, hnext]
        exact hleft

/-- Behind a token that does not close an array, what is left of it is an item and the rest. -/
theorem follow_arrayRest_cons (hk : k ≠ .rightParen) :
    follow (.arrayRest :: gs) (k :: ks) = follow (.value :: .arrayRest :: gs) (k :: ks) := by
  have hnext : Goal.arrayRest.next? k = (Goal.valueNext? k).map (· ++ [.arrayRest]) := if_neg hk
  have hvalue : Goal.value.next? k = Goal.valueNext? k := rfl
  rw [follow, follow, hnext, hvalue]
  cases Goal.valueNext? k with
  | none => rfl
  | some hs =>
    show follow ((hs ++ [.arrayRest]) ++ gs) ks = follow (hs ++ .arrayRest :: gs) ks
    rw [List.append_assoc]
    rfl

end HexConfig.Grammar
