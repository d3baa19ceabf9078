import HexConfig.Proofs.Reader.Programs
import HexConfig.Proofs.Reader.Steps

/-!
# Reading tree by tree

The machine takes tokens; what it does to a value as a whole is a relation on trees (`Term.Reads`): under
these limits and constants, with the tally that the value starts with, it has this value and leaves that
tally. The machine takes the tokens of a value exactly if the relation has an answer, and does what the
answer says (`feed_term_iff`).

Nothing is said here about what is written out in full: the relation looks a reference up as the machine
does, by what was recorded.
-/

namespace HexConfig

variable {limits : Limits} {constants : Constants}

mutual

/-- A value is read: `t.Reads limits constants before v after`, with the tallies around it. -/
inductive Term.Reads (limits : Limits) (constants : Constants) :
    Term → Tally → Value → Tally → Prop
  | number {digits : String} {n : Int} {t : Tally} : Term.numberOf? digits = some n →
      sumUpTo t.nodes 1 ≤ limits.maxNodes →
      Reads limits constants (.number digits) t (.number n) (t.charge 1)
  | string (s : String) {t : Tally} : sumUpTo t.nodes 1 ≤ limits.maxNodes →
      Reads limits constants (.string s) t (.ofString s) (t.charge 1)
  | array {items : List Term} {vs : List Value} {t t' : Tally} : t.depth < limits.maxDepth →
      sumUpTo t.nodes 1 ≤ limits.maxNodes →
      Term.ReadsItems limits constants items (t.enter.charge 1) vs t' →
      Reads limits constants (.array items) t (.sequence vs) t'.leave
  | object {entries : List (String × Term)} {es : Entries Value} {t t' : Tally} :
      t.depth < limits.maxDepth → sumUpTo t.nodes 1 ≤ limits.maxNodes →
      Term.ReadsEntries limits constants entries [] (t.enter.charge 1) es t' →
      Reads limits constants (.object entries) t (.mapping es) t'.leave
  | reference {name : String} {c : Constant} {t : Tally} : constants.find? name = some c →
      t.reach c.depth ≤ limits.maxDepth → sumUpTo t.nodes c.size ≤ limits.maxNodes →
      Reads limits constants (.reference name) t c.value ((t.splice c.depth).charge c.size)

/-- Items are read one after the other. -/
inductive Term.ReadsItems (limits : Limits) (constants : Constants) :
    List Term → Tally → List Value → Tally → Prop
  | nil {t : Tally} : ReadsItems limits constants [] t [] t
  | cons {x : Term} {xs : List Term} {v : Value} {vs : List Value} {t t₁ t₂ : Tally} :
      Term.Reads limits constants x t v t₁ → Term.ReadsItems limits constants xs t₁ vs t₂ →
      ReadsItems limits constants (x :: xs) t (v :: vs) t₂

/-- Entries are read one after the other, each written over those before. -/
inductive Term.ReadsEntries (limits : Limits) (constants : Constants) :
    List (String × Term) → Entries Value → Tally → Entries Value → Tally → Prop
  | nil {before : Entries Value} {t : Tally} : ReadsEntries limits constants [] before t before t
  | cons {k : String} {x : Term} {xs : List (String × Term)} {v : Value} {before es : Entries Value}
      {t t₁ t₂ : Tally} : Term.Reads limits constants x t v t₁ →
      Term.ReadsEntries limits constants xs (before.write k v) t₁ es t₂ →
      ReadsEntries limits constants ((k, x) :: xs) before t es t₂

end

namespace Reader.State

variable {s s₁ : State} {t last : Token} {ts : List Token} {ctx : Context}

/-- An object, from the token that opens it to the one that closes it, if its entries are read as the
relation says. -/
theorem feed_object_iff {entries : List (String × Term)} (hctx : s.Starts ctx)
    (ht : t.kind = .leftBrace) (hlast : last.kind = .rightBrace)
    (hentries : ∀ s₂ : State, (s.within [t] (.key [] ctx)).feed limits ts = .ok s₂ ↔
      ∃ es tally, Term.ReadsEntries limits s.constants entries [] (s.tally.enter.charge 1) es tally ∧
        s₂ = ((s.within [t] (.key [] ctx)).after ts tally).await (.key es ctx)) :
    s.feed limits (t :: (ts ++ [last])) = .ok s₁ ↔ ∃ v tally,
      (Term.object entries).Reads limits s.constants s.tally v tally ∧
        s₁ = (s.after (t :: (ts ++ [last])) tally).deliver v ctx := by
  have hclose (es : Entries Value) (tally : Tally) :
      (((s.within [t] (.key [] ctx)).after ts tally).await (.key es ctx)).step limits last =
        .ok ((s.after (t :: (ts ++ [last])) tally.leave).deliver (.mapping es) ctx) := by
    rw [step_of_rightBrace rfl hlast, deliver_leave_within]
    rfl
  simp only [feed_cons_eq_ok_iff, step_leftBrace_eq_ok_iff hctx ht, feed_append_eq_ok_iff]
  constructor
  · rintro ⟨_, ⟨hdepth, hnodes, rfl⟩, s₂, hfeed, s₃, hstep, hnil⟩
    cases hnil
    obtain ⟨es, tally, hreads, rfl⟩ := (hentries s₂).mp hfeed
    rw [hclose] at hstep
    cases hstep
    exact ⟨_, _, .object hdepth hnodes hreads, rfl⟩
  · rintro ⟨_, _, hreads, rfl⟩
    cases hreads with
    | object hdepth hnodes hreads =>
      exact ⟨_, ⟨hdepth, hnodes, rfl⟩, _, (hentries _).mpr ⟨_, _, hreads, rfl⟩, _, hclose _ _, rfl⟩

/-- An array in the same way. -/
theorem feed_array_iff {items : List Term} {t₁ t₂ : Token} (hctx : s.ForValue ctx)
    (hhash : t₁.kind = .hash) (hparen : t₂.kind = .leftParen) (hlast : last.kind = .rightParen)
    (hitems : ∀ s₂ : State, (s.within [t₁, t₂] (.item [] ctx)).feed limits ts = .ok s₂ ↔
      ∃ vs tally, Term.ReadsItems limits s.constants items (s.tally.enter.charge 1) vs tally ∧
        s₂ = ((s.within [t₁, t₂] (.item [] ctx)).after ts tally).await (.item (vs.reverse ++ []) ctx)) :
    s.feed limits (t₁ :: t₂ :: (ts ++ [last])) = .ok s₁ ↔ ∃ v tally,
      (Term.array items).Reads limits s.constants s.tally v tally ∧
        s₁ = (s.after (t₁ :: t₂ :: (ts ++ [last])) tally).deliver v ctx := by
  have hclose (vs : List Value) (tally : Tally) :
      (((s.within [t₁, t₂] (.item [] ctx)).after ts tally).await
          (.item (vs.reverse ++ []) ctx)).step limits last =
        .ok ((s.after (t₁ :: t₂ :: (ts ++ [last])) tally.leave).deliver (.sequence vs) ctx) := by
    rw [step_of_rightParen rfl hlast, deliver_leave_within, List.append_nil, List.reverse_reverse]
    rfl
  rw [show t₁ :: t₂ :: (ts ++ [last]) = [t₁, t₂] ++ (ts ++ [last]) from rfl]
  simp only [feed_append_eq_ok_iff, feed_arrayOpen_eq_ok_iff hctx hhash hparen,
    feed_singleton_eq_ok_iff]
  constructor
  · rintro ⟨_, ⟨hdepth, hnodes, rfl⟩, s₂, hfeed, hstep⟩
    obtain ⟨vs, tally, hreads, rfl⟩ := (hitems s₂).mp hfeed
    rw [hclose] at hstep
    cases hstep
    exact ⟨_, _, .array hdepth hnodes hreads, rfl⟩
  · rintro ⟨_, _, hreads, rfl⟩
    cases hreads with
    | array hdepth hnodes hreads =>
      exact ⟨_, ⟨hdepth, hnodes, rfl⟩, _, (hitems _).mpr ⟨_, _, hreads, rfl⟩, hclose _ _⟩

/-- Nothing was taken. -/
theorem after_nil_await {awaiting : Awaiting} (h : s.awaiting = awaiting) :
    (s.after [] s.tally).await awaiting = s := by
  rw [← h]
  rfl

/-- What was awaited in between does not matter. -/
theorem await_after_after (s : State) (ts ts' : List Token) (tally tally' : Tally)
    (awaiting awaiting' : Awaiting) :
    (((s.after ts tally).await awaiting).after ts' tally').await awaiting' =
      (s.after (ts ++ ts') tally').await awaiting' := by
  rw [← after_after s ts ts' tally tally']
  rfl

theorem deliver_after_await (s : State) (ts ts' : List Token) (tally tally' : Tally)
    (awaiting : Awaiting) (v : Value) (ctx : Context) :
    (((s.after ts tally).await awaiting).after ts' tally').deliver v ctx =
      (s.after (ts ++ ts') tally').deliver v ctx := by
  rw [← after_after s ts ts' tally tally', ← deliver_await ((s.after ts tally).after ts' tally') awaiting]
  rfl

mutual

/-- The tokens of a value are taken exactly if the value is read, and the machine then has the value and
the tally that the relation says. -/
theorem feed_term_iff : ∀ (x : Term) {s s₁ : State} {ts : List Token} {ctx : Context},
    ts.map Token.word = x.words → s.ForValue ctx →
      (s.feed limits ts = .ok s₁ ↔ ∃ v tally, x.Reads limits s.constants s.tally v tally ∧
        s₁ = (s.after ts tally).deliver v ctx)
  | .number digits, s, s₁, ts, ctx, hts, hctx => by
    obtain ⟨t, ts, rfl, hkind, htext, hnil⟩ := tokens_of_words hts
    obtain rfl := List.map_eq_nil_iff.mp hnil
    obtain rfl : t.text = digits := htext
    rw [feed_singleton_eq_ok_iff, step_number_eq_ok_iff hctx hkind]
    constructor
    · rintro ⟨n, hn, hnodes, rfl⟩
      exact ⟨_, _, .number hn hnodes, rfl⟩
    · rintro ⟨_, _, hreads, rfl⟩
      cases hreads with
      | number hn hnodes => exact ⟨_, hn, hnodes, rfl⟩
  | .string text, s, s₁, ts, ctx, hts, hctx => by
    obtain ⟨t, ts, rfl, hkind, htext, hnil⟩ := tokens_of_words hts
    obtain rfl := List.map_eq_nil_iff.mp hnil
    obtain rfl : t.text = text := htext
    rw [feed_singleton_eq_ok_iff, step_text_eq_ok_iff hctx hkind]
    constructor
    · rintro ⟨hnodes, rfl⟩
      exact ⟨_, _, .string _ hnodes, rfl⟩
    · rintro ⟨_, _, hreads, rfl⟩
      cases hreads with
      | string _ hnodes => exact ⟨hnodes, rfl⟩
  | .reference name, s, s₁, ts, ctx, hts, hctx => by
    obtain ⟨t₁, ts, rfl, hk₁, -, hts⟩ := tokens_of_words hts
    obtain ⟨t₂, ts, rfl, hk₂, -, hts⟩ := tokens_of_words hts
    obtain ⟨t₃, ts, rfl, hk₃, hname, hts⟩ := tokens_of_words hts
    obtain ⟨t₄, ts, rfl, hk₄, -, hts⟩ := tokens_of_words hts
    obtain rfl := List.map_eq_nil_iff.mp hts
    obtain rfl : t₃.text = name := hname
    rw [feed_reference_eq_ok_iff hctx hk₁ hk₂ hk₃ hk₄]
    constructor
    · rintro ⟨c, hc, hdepth, hnodes, rfl⟩
      exact ⟨_, _, .reference hc hdepth hnodes, rfl⟩
    · rintro ⟨_, _, hreads, rfl⟩
      cases hreads with
      | reference hc hdepth hnodes => exact ⟨_, hc, hdepth, hnodes, rfl⟩
  | .array items, s, s₁, ts, ctx, hts, hctx => by
    obtain ⟨t₁, ts, rfl, hk₁, -, hts⟩ := tokens_of_words hts
    obtain ⟨t₂, ts, rfl, hk₂, -, hts⟩ := tokens_of_words hts
    obtain ⟨ts, last, rfl, hitems, hlast⟩ := List.map_eq_append_iff.mp hts
    obtain ⟨t₃, last, rfl, hk₃, -, hnil⟩ := tokens_of_words hlast
    obtain rfl := List.map_eq_nil_iff.mp hnil
    exact feed_array_iff hctx hk₁ hk₂ hk₃ fun _ => feed_items_iff items hitems rfl
  | .object entries, s, s₁, ts, ctx, hts, hctx => by
    obtain ⟨t₁, ts, rfl, hk₁, -, hts⟩ := tokens_of_words hts
    obtain ⟨ts, last, rfl, hentries, hlast⟩ := List.map_eq_append_iff.mp hts
    obtain ⟨t₂, last, rfl, hk₂, -, hnil⟩ := tokens_of_words hlast
    obtain rfl := List.map_eq_nil_iff.mp hnil
    exact feed_object_iff (.inl hctx) hk₁ hk₂ fun _ => feed_entries_iff entries hentries rfl

theorem feed_items_iff : ∀ (xs : List Term) {s s₁ : State} {ts : List Token} {before : List Value}
    {ctx : Context}, ts.map Token.word = Term.wordsOfItems xs → s.awaiting = .item before ctx →
      (s.feed limits ts = .ok s₁ ↔ ∃ vs tally, Term.ReadsItems limits s.constants xs s.tally vs tally ∧
        s₁ = (s.after ts tally).await (.item (vs.reverse ++ before) ctx))
  | [], s, s₁, ts, before, ctx, hts, hawait => by
    obtain rfl := List.map_eq_nil_iff.mp hts
    constructor
    · intro h
      cases h
      exact ⟨[], _, .nil, (after_nil_await hawait).symm⟩
    · rintro ⟨_, _, hreads, rfl⟩
      cases hreads
      exact congrArg Except.ok (after_nil_await hawait).symm
  | x :: xs, s, s₁, ts, before, ctx, hts, hawait => by
    obtain ⟨ts₁, ts₂, rfl, hts₁, hts₂⟩ := List.map_eq_append_iff.mp hts
    have hstate (v : Value) (vs : List Value) (tally tally' : Tally) :
        (((s.after ts₁ tally).await (.item (v :: before) ctx)).after ts₂ tally').await
            (.item (vs.reverse ++ v :: before) ctx) =
          (s.after (ts₁ ++ ts₂) tally').await (.item ((v :: vs).reverse ++ before) ctx) := by
      rw [await_after_after, List.reverse_cons, List.append_assoc]
      rfl
    simp only [feed_append_eq_ok_iff, feed_term_iff x hts₁ (.inr ⟨before, ctx, hawait, rfl⟩)]
    constructor
    · rintro ⟨_, ⟨v, tally, hreads, rfl⟩, h⟩
      obtain ⟨vs, tally', hreads', rfl⟩ := (feed_items_iff xs hts₂ rfl).mp h
      exact ⟨v :: vs, tally', .cons hreads hreads', hstate v vs tally tally'⟩
    · rintro ⟨_, _, hreads, rfl⟩
      cases hreads with
      | cons hreads hreads' =>
        exact ⟨_, ⟨_, _, hreads, rfl⟩,
          (feed_items_iff xs hts₂ rfl).mpr ⟨_, _, hreads', (hstate _ _ _ _).symm⟩⟩

theorem feed_entries_iff : ∀ (xs : List (String × Term)) {s s₁ : State} {ts : List Token}
    {before : Entries Value} {ctx : Context}, ts.map Token.word = Term.wordsOfEntries xs →
      s.awaiting = .key before ctx →
      (s.feed limits ts = .ok s₁ ↔ ∃ es tally,
        Term.ReadsEntries limits s.constants xs before s.tally es tally ∧
          s₁ = (s.after ts tally).await (.key es ctx))
  | [], s, s₁, ts, before, ctx, hts, hawait => by
    obtain rfl := List.map_eq_nil_iff.mp hts
    constructor
    · intro h
      cases h
      exact ⟨_, _, .nil, (after_nil_await hawait).symm⟩
    · rintro ⟨_, _, hreads, rfl⟩
      cases hreads
      exact congrArg Except.ok (after_nil_await hawait).symm
  | (k, x) :: xs, s, s₁, ts, before, ctx, hts, hawait => by
    obtain ⟨t₁, ts, rfl, hk₁, hkey, hts⟩ := tokens_of_words hts
    obtain ⟨t₂, ts, rfl, hk₂, -, hts⟩ := tokens_of_words hts
    obtain ⟨ts₁, ts₂, rfl, hts₁, hts₂⟩ := List.map_eq_append_iff.mp hts
    obtain rfl : t₁.text = k := hkey
    have hvalue : ((s.after [t₁, t₂] s.tally).await
        (.value (ctx.within (.mapping before t₁.text)))).ForValue
          (ctx.within (.mapping before t₁.text)) := .inl rfl
    have hstate (v : Value) (es : Entries Value) (tally tally' : Tally) :
        (((((s.after [t₁, t₂] s.tally).await (.value (ctx.within (.mapping before t₁.text)))).after
          ts₁ tally).await (.key (before.write t₁.text v) ctx)).after ts₂ tally').await (.key es ctx) =
          (s.after (t₁ :: t₂ :: (ts₁ ++ ts₂)) tally').await (.key es ctx) := by
      rw [await_after_after, await_after_after]
      rfl
    rw [show t₁ :: t₂ :: (ts₁ ++ ts₂) = [t₁, t₂] ++ (ts₁ ++ ts₂) from rfl,
      feed_append_of_ok (feed_keyHead hawait hk₁ hk₂)]
    simp only [feed_append_eq_ok_iff, feed_term_iff x hts₁ hvalue]
    constructor
    · rintro ⟨_, ⟨v, tally, hreads, rfl⟩, h⟩
      obtain ⟨es, tally', hreads', rfl⟩ := (feed_entries_iff xs hts₂ rfl).mp h
      exact ⟨es, tally', .cons hreads hreads', hstate v es tally tally'⟩
    · rintro ⟨_, _, hreads, rfl⟩
      cases hreads with
      | cons hreads hreads' =>
        exact ⟨_, ⟨_, _, hreads, rfl⟩,
          (feed_entries_iff xs hts₂ rfl).mpr ⟨_, _, hreads', (hstate _ _ _ _).symm⟩⟩

end

end Reader.State

/-! ## Declarations -/

namespace Declaration

/-- Where the value of a declaration goes; `before` is what was counted when it began. -/
def destination (before : Nat) : Declaration → Reader.Destination
  | global name _ => .global name before
  | entry key _ => .entry key
  | block _ => .block

/-- The tally that the value of a declaration starts with. -/
def begun (t : Tally) : Declaration → Tally
  | global _ _ => t.beginConstant
  | _ => t

end Declaration

namespace Reader.State

variable {s s₁ : State} {ts : List Token}

/-- The tokens of a declaration are taken exactly if its value is read. -/
theorem feed_declaration_iff (d : Declaration) (hts : ts.map Token.word = d.words)
    (hawait : s.awaiting = .declaration) :
    s.feed limits ts = .ok s₁ ↔ ∃ v tally,
      d.term.Reads limits s.constants (d.begun s.tally) v tally ∧
        s₁ = (s.after ts tally).declare v (d.destination s.tally.nodes) := by
  cases d with
  | global name x =>
    obtain ⟨t₁, ts, rfl, hk₁, -, hts⟩ := tokens_of_words hts
    obtain ⟨t₂, ts, rfl, hk₂, hname, hts⟩ := tokens_of_words hts
    obtain ⟨t₃, ts, rfl, hk₃, -, hx⟩ := tokens_of_words hts
    obtain rfl : t₂.text = name := hname
    rw [show t₁ :: t₂ :: t₃ :: ts = [t₁, t₂, t₃] ++ ts from rfl,
      feed_append_of_ok (feed_globalHead hawait hk₁ hk₂ hk₃), feed_term_iff x hx (.inl rfl)]
    simp only [deliver_after_await]
    rfl
  | entry key x =>
    obtain ⟨t₁, ts, rfl, hk₁, hkey, hts⟩ := tokens_of_words hts
    obtain ⟨t₂, ts, rfl, hk₂, -, hx⟩ := tokens_of_words hts
    obtain rfl : t₁.text = key := hkey
    rw [show t₁ :: t₂ :: ts = [t₁, t₂] ++ ts from rfl,
      feed_append_of_ok (feed_entryHead hawait hk₁ hk₂), feed_term_iff x hx (.inl rfl)]
    simp only [deliver_after_await]
    rfl
  | block entries =>
    obtain ⟨t₁, ts, rfl, hk₁, -, hts⟩ := tokens_of_words hts
    obtain ⟨ts, last, rfl, hentries, hlast⟩ := List.map_eq_append_iff.mp hts
    obtain ⟨t₂, last, rfl, hk₂, -, hnil⟩ := tokens_of_words hlast
    obtain rfl := List.map_eq_nil_iff.mp hnil
    exact feed_object_iff (.inr ⟨hawait, rfl⟩) hk₁ hk₂ fun _ => feed_entries_iff entries hentries rfl

end Reader.State

end HexConfig
