import HexConfig.Proofs.Reader.Outcome
import HexConfig.Proofs.Source.Unambiguous
import HexConfig.Source.Measure

/-!
# How reading a program turns out

A program whose references can be written out, and whose values all exist, is read to its end if the
limits allow what it needs, and else stopped by a limit (`outcome_program`). Between two declarations no
container is open, and a constant that was published leaves the count of values as it found it
(`ready_behind`, `nodes_behind`).
-/

namespace HexConfig.Reader.State

variable {limits : Limits} {known : Entries Term} {size size' : Nat} {s : State} {ts : List Token}

/-- A state between declarations, with nothing open. -/
structure Ready (limits : Limits) (known : Entries Term) (size : Nat) (s : State) : Prop extends
    Prepared limits known size s where
  awaiting : s.awaiting = .declaration
  depth : s.tally.depth = 0

/-- The record that a constant gets when it is published. -/
theorem records_of_publish (nodes : Nat) {u : Term} {v : Value} (hv : u.value? = some v) :
    Records nodes u ⟨v, sumUpTo 0 u.nest, sumUpTo nodes u.cost - nodes⟩ where
  value := hv
  depth := rfl
  size_le := by
    show sumUpTo nodes u.cost - nodes ≤ u.cost
    unfold sumUpTo
    omega
  size := by
    show sumUpTo nodes u.cost - nodes = u.cost ∨
      Limits.greatest ≤ nodes + (sumUpTo nodes u.cost - nodes)
    unfold sumUpTo
    omega

/-! ## Declarations -/

/-- A constant up to its value. -/
theorem feed_globalHead {global name equals : Token} (hawait : s.awaiting = .declaration)
    (hglobal : global.kind = .global) (hname : name.kind = .identifier)
    (hequals : equals.kind = .equals) :
    s.feed limits [global, name, equals] =
      .ok ((s.after [global, name, equals] s.tally.beginConstant).await
        (.value ⟨.global name.text s.tally.nodes, []⟩)) := by
  simp only [feed, step, note, hawait, beginDeclaration, hglobal, await, require, if_pos hname,
    if_pos hequals]
  rfl

/-- An entry up to its value. -/
theorem feed_entryHead {key equals : Token} (hawait : s.awaiting = .declaration)
    (hkey : key.kind = .identifier) (hequals : equals.kind = .equals) :
    s.feed limits [key, equals] =
      .ok ((s.after [key, equals] s.tally).await (.value ⟨.entry key.text, []⟩)) := by
  simp only [feed, step, note, hawait, beginDeclaration, hkey, await, require, if_pos hequals]
  rfl

/-- The state behind the row `ts` of a declaration of the value `v`. -/
def behind (s : State) (ts : List Token) (v : Value) : Declaration → State
  | .global name u =>
    (s.after ts (s.tally.beginConstant.grow u.nest u.cost)).publish name s.tally.nodes v
  | .entry key u => (s.after ts (s.tally.grow u.nest u.cost)).assign key v (.overwritten key)
  | .block es =>
    (s.after ts (s.tally.grow (Term.object es).nest (Term.object es).cost)).assign
      Document.unnamedKey v (.blockReplaced Document.unnamedKey)

/-- Behind a declaration the document is the one that the declaration makes. -/
theorem document_behind (s : State) (ts : List Token) (v : Value) (e : Declaration) :
    (s.behind ts v e).document = e.put s.document v := by
  cases e <;> rfl

/-- Behind a declaration the machine is as deep as it was. -/
theorem depth_behind (s : State) (ts : List Token) (v : Value) (e : Declaration) :
    (s.behind ts v e).tally.depth = s.tally.depth := by
  cases e <;> rfl

/-- The values of an entry or of a block stay counted, those of a constant do not. -/
theorem nodes_behind (h : s.Ready limits known size) (ts : List Token) (v : Value) (e : Declaration) :
    (s.behind ts v e).tally.nodes = sumUpTo s.tally.nodes e.lasting := by
  cases e with
  | global name u => exact (sumUpTo_zero h.steady.nodes_le_greatest).symm
  | entry key u => rfl
  | block es => rfl

/-- Behind a declaration that the limits allow, the next may follow. -/
theorem ready_behind {e : Declaration} {v : Value} (h : s.Ready limits known size)
    (hv : e.term.value? = some v) (hallow : limits.Allow s.tally e.term.nest e.term.cost)
    (ts : List Token) : (s.behind ts v e).Ready limits (e.declared known) size := by
  have hdepth := (depth_behind s ts v e).trans h.depth
  cases e with
  | global name u =>
    have hsteady : limits.Steady (s.behind ts v (.global name u)).tally :=
      ⟨Nat.le_trans (Nat.le_of_eq hdepth) (Nat.zero_le _), h.steady.depth_le, h.steady.nodes_le,
        h.steady.nodes_le_greatest⟩
    have hrecords : Records s.tally.nodes u ⟨v, max 0 (sumUpTo s.tally.depth u.nest),
        sumUpTo s.tally.nodes u.cost - s.tally.nodes⟩ := by
      rw [h.depth, Nat.zero_max]
      exact records_of_publish _ hv
    exact ⟨⟨hsteady, Entries.Related.write h.recorded hrecords name, h.room⟩, rfl, hdepth⟩
  | entry key u => exact ⟨h.grow hallow rfl rfl (Nat.le_refl _), rfl, hdepth⟩
  | block es => exact ⟨h.grow hallow rfl rfl (Nat.le_refl _), rfl, hdepth⟩

/-- What the machine makes of a constant. -/
theorem outcome_global {name : String} {x u : Term} {v : Value} (hu : x.expand? known = some u)
    (hv : u.value? = some v) (hts : ts.map Token.word = (Declaration.global name x).words)
    (h : s.Ready limits known size) (hsize : (Declaration.global name x).words.length ≤ size) :
    Outcome limits s ts u.nest u.cost (s.behind ts v (.global name u)) := by
  obtain ⟨t₁, ts₁, rfl, hk₁, -, hts₁⟩ := tokens_of_words hts
  obtain ⟨t₂, ts₂, rfl, hk₂, hname, hts₂⟩ := tokens_of_words hts₁
  obtain ⟨t₃, ts₃, rfl, hk₃, -, hts₃⟩ := tokens_of_words hts₂
  obtain rfl : t₂.text = name := hname
  have hsize' : x.words.length ≤ size := by
    simp only [Declaration.words, List.length_cons] at hsize
    omega
  -- the peak is set back before the value, and the state stays steady
  have hsteady : limits.Steady s.tally.beginConstant :=
    ⟨Nat.le_of_eq h.depth, h.steady.depth_le, h.steady.nodes_le, h.steady.nodes_le_greatest⟩
  have hprepared : Prepared limits known x.words.length
      ((s.after [t₁, t₂, t₃] s.tally.beginConstant).await
        (.value ⟨.global t₂.text s.tally.nodes, []⟩)) :=
    ⟨hsteady, h.recorded, Nat.le_trans (Nat.add_le_add_left hsize' _) h.room⟩
  have hterm := outcome_term hu hv hts₃ (.inl rfl) hprepared
  rw [show t₁ :: t₂ :: t₃ :: ts₃ = [t₁, t₂, t₃] ++ ts₃ from rfl, behind,
    ← after_after s [t₁, t₂, t₃] ts₃ s.tally.beginConstant]
  exact .prepend (feed_globalHead h.awaiting hk₁ hk₂ hk₃) rfl rfl hterm

/-- What the machine makes of an entry. -/
theorem outcome_entry {key : String} {x u : Term} {v : Value} (hu : x.expand? known = some u)
    (hv : u.value? = some v) (hts : ts.map Token.word = (Declaration.entry key x).words)
    (h : s.Ready limits known size) (hsize : (Declaration.entry key x).words.length ≤ size) :
    Outcome limits s ts u.nest u.cost (s.behind ts v (.entry key u)) := by
  obtain ⟨t₁, ts₁, rfl, hk₁, hkey, hts₁⟩ := tokens_of_words hts
  obtain ⟨t₂, ts₂, rfl, hk₂, -, hts₂⟩ := tokens_of_words hts₁
  obtain rfl : t₁.text = key := hkey
  have hsize' : x.words.length ≤ size := by
    simp only [Declaration.words, List.length_cons] at hsize
    omega
  have hprepared : Prepared limits known x.words.length
      ((s.after [t₁, t₂] s.tally).await (.value ⟨.entry t₁.text, []⟩)) := h.congr rfl rfl hsize'
  have hterm := outcome_term hu hv hts₂ (.inl rfl) hprepared
  rw [show t₁ :: t₂ :: ts₂ = [t₁, t₂] ++ ts₂ from rfl, behind, ← after_after s [t₁, t₂] ts₂ s.tally]
  exact .prepend (feed_entryHead h.awaiting hk₁ hk₂) rfl rfl hterm

/-- What the machine makes of a block. -/
theorem outcome_block {es us : List (String × Term)} {v : Value}
    (hus : Term.expandEntries? known es = some us) (hv : (Term.object us).value? = some v)
    (hts : ts.map Token.word = (Declaration.block es).words) (h : s.Ready limits known size)
    (hsize : (Declaration.block es).words.length ≤ size) :
    Outcome limits s ts (Term.object us).nest (Term.object us).cost (s.behind ts v (.block us)) := by
  obtain ⟨vs, hvs, rfl⟩ := Term.value?_object_eq_some.mp hv
  obtain ⟨t₁, ts₁, rfl, hk₁, -, hts₁⟩ := tokens_of_words hts
  obtain ⟨ts, last, rfl, hentries, hlast⟩ := List.map_eq_append_iff.mp hts₁
  obtain ⟨t₂, last, rfl, hk₂, -, hnil⟩ := tokens_of_words hlast
  obtain rfl := List.map_eq_nil_iff.mp hnil
  have hopen : s.step limits t₁ =
      (s.note (.consumed t₁)).openContainer limits t₁.position (.key [] ⟨.block, []⟩) := by
    simp only [step, note, h.awaiting, beginDeclaration, hk₁]
  have hsize' : (Term.wordsOfEntries es).length + 1 + 1 ≤ size := by
    simpa [Declaration.words, Term.words] using hsize
  have hprepared := h.congr rfl rfl hsize'
  have hroom : s.tally.depth + 1 ≤ Limits.greatest := by
    have := hprepared.room
    omega
  have hterm := outcome_container hroom hopen (fun _ hawait => step_of_rightBrace hawait hk₂)
    fun hsteady => outcome_entries hus hvs hentries rfl
      (hprepared.open hsteady rfl rfl (Nat.le_succ _))
  exact hterm

/-- How a declaration turns out. -/
theorem outcome_declaration {d e : Declaration} {v : Value} (he : d.expand? known = some e)
    (hv : e.term.value? = some v) (hts : ts.map Token.word = d.words)
    (h : s.Ready limits known size) (hsize : d.words.length ≤ size) :
    Outcome limits s ts e.term.nest e.term.cost (s.behind ts v e) := by
  cases d with
  | global name x =>
    obtain ⟨u, hu, rfl⟩ := Option.map_eq_some_iff.mp he
    exact outcome_global hu hv hts h hsize
  | entry key x =>
    obtain ⟨u, hu, rfl⟩ := Option.map_eq_some_iff.mp he
    exact outcome_entry hu hv hts h hsize
  | block es =>
    obtain ⟨us, hus, rfl⟩ := Option.map_eq_some_iff.mp he
    exact outcome_block hus hv hts h hsize

/-! ## Programs -/

/-- How a program turns out. -/
theorem outcome_program {p q : Program} {doc : Document} (hp : p.expandFrom? known = some q)
    (hdoc : q.foldlM Declaration.write? s.document = some doc)
    (hts : ts.map Token.word = p.words) (h : s.Ready limits known size)
    (hsize : p.words.length ≤ size) :
    ∃ s', Outcome limits s ts q.depthNeeded q.nodesNeeded s' ∧ s'.document = doc ∧
      s'.awaiting = .declaration := by
  induction p generalizing known q s ts with
  | nil =>
    cases hp
    cases hdoc
    obtain rfl := List.map_eq_nil_iff.mp hts
    exact ⟨s, .inl ⟨h.steady.allow_zero h.depth_le, rfl⟩, rfl, h.awaiting⟩
  | cons d p ih =>
    obtain ⟨e, q, he, hq, rfl⟩ := Program.expandFrom?_cons_eq_some.mp hp
    obtain ⟨doc₁, hwrite, hdoc₁⟩ := Option.bind_eq_some_iff.mp hdoc
    rw [Declaration.write?_eq] at hwrite
    obtain ⟨v, hv, rfl⟩ := Option.map_eq_some_iff.mp hwrite
    rw [Program.words_cons] at hts hsize
    obtain ⟨ts₁, ts₂, rfl, hts₁, hts₂⟩ := List.map_eq_append_iff.mp hts
    rw [List.length_append] at hsize
    have hout := outcome_declaration he hv hts₁ h (Nat.le_of_add_right_le hsize)
    rw [← document_behind s ts₁ v e] at hdoc₁
    rcases hout with ⟨hallow, hfeed⟩ | ⟨stop, hfeed, hexceeded⟩
    · obtain ⟨s₂, hout₂, hs₂⟩ := ih hq hdoc₁ hts₂ (ready_behind h hv hallow ts₁) (by omega)
      exact ⟨s₂, Outcome.followed (.inl ⟨hallow, hfeed⟩) (depth_behind s ts₁ v e)
        (nodes_behind h ts₁ v e) fun _ => hout₂, hs₂⟩
    · -- the program is not read to its end, and any state will do for the end it never comes to
      exact ⟨{ s with awaiting := .declaration, document := doc },
        .inr ⟨_, feed_append_of_error hfeed, hexceeded.max_left⟩, rfl, rfl⟩

end HexConfig.Reader.State
