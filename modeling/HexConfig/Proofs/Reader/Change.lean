import HexConfig.Conversion
import HexConfig.Proofs.Document
import HexConfig.Proofs.Token.Relocation

/-!
# What the machine has no eyes for

The machine carries places from tokens to diagnostics and never looks at one. It is as blind to what a number or
a string stands for: the word is counted as one value, and the value goes where it belongs, whatever it is.

A `Change` maps places, words and values in one, and changes no word but strings, each into a word that is all of a
value again. If every token is changed, the machine does what it did, with all that it remembers, tells of and
comes to changed in the same way (`State.step_change`, `State.feed_change`, `State.conclude_change`). There is one
lemma for each function of the machine; what a particular change comes to is read off from the last of them.
-/

namespace HexConfig

namespace Reader

/-- The word alone is all of a value. -/
inductive Denotes : Word → Value → Prop
  | number {digits : String} {n : Int} : State.decode digits = .ok n → Denotes (.number, digits) (.number n)
  | string (s : String) : Denotes (.text, s) (.ofString s)

/-- Only numbers and strings are words that are all of a value. -/
theorem Denotes.kind {w : Word} {v : Value} (h : Denotes w v) : w.1 = .number ∨ w.1 = .text := by
  cases h with
  | number => exact .inl rfl
  | string => exact .inr rfl

/-- A change of what the machine has no eyes for. -/
structure Change where
  place : Position → Position
  word : Word → Word
  value : Value → Value
  /-- Only strings become other words. -/
  word_of_ne : ∀ {w : Word}, w.1 ≠ .text → word w = w
  /-- What a string becomes stands for what its value becomes. -/
  denotes : ∀ s : String, Denotes (word (.text, s)) (value (.ofString s))
  value_number : ∀ n : Int, value (.number n) = .number n
  /-- Containers stay as they are around what is in them. -/
  value_sequence : ∀ items : List Value, value (.sequence items) = .sequence (items.map value)
  value_mapping : ∀ entries : Entries Value, value (.mapping entries) = .mapping (entries.mapValues value)

end Reader

open Reader

variable (χ : Change)

/-- The token, changed. -/
def Token.change (t : Token) : Token := ⟨(χ.word t.word).1, (χ.word t.word).2, χ.place t.position⟩

/-- The row, changed. -/
def Tokens.change (ts : Tokens) : Tokens where
  list := ts.list.map (Token.change χ)
  finish := χ.place ts.finish

/-- The constant, changed. -/
def Constant.change (c : Constant) : Constant := { c with value := χ.value c.value }

/-- The event, changed. -/
def Event.change : Event → Event
  | consumed t => consumed (t.change χ)
  | published name c => published name (c.change χ)
  | e => e

/-- The fault, changed: one that tells of a token tells of what that becomes. -/
def Fault.change : Fault → Fault
  | unexpected expected found text =>
    unexpected expected (χ.word (found, text)).1 (χ.word (found, text)).2
  | fault => fault

/-- The diagnostic, changed. -/
def Diagnostic.change (d : Diagnostic) : Diagnostic := ⟨d.fault.change χ, χ.place d.position⟩

namespace Reader

/-- The open container, changed. -/
def Frame.change : Frame → Frame
  | .sequence items => .sequence (items.map χ.value)
  | .mapping entries key => .mapping (entries.mapValues χ.value) key

/-- All there is around a value, changed. -/
def Context.change (ctx : Context) : Context := { ctx with frames := ctx.frames.map (Frame.change χ) }

/-- What is awaited, with all that is needed to go on changed. -/
def Awaiting.change : Awaiting → Awaiting
  | .value ctx => .value (ctx.change χ)
  | .arrayParen hash ctx => .arrayParen (χ.place hash) (ctx.change χ)
  | .item items ctx => .item (items.map χ.value) (ctx.change χ)
  | .key entries ctx => .key (entries.mapValues χ.value) (ctx.change χ)
  | .equals entries name ctx => .equals (entries.mapValues χ.value) name (ctx.change χ)
  | .referenceBracket question ctx => .referenceBracket (χ.place question) (ctx.change χ)
  | .referenceName question ctx => .referenceName (χ.place question) (ctx.change χ)
  | .referenceEnd question name ctx =>
    .referenceEnd (χ.place question) (name.relocate χ.place) (ctx.change χ)
  | awaiting => awaiting

/-- The state, changed. -/
def State.change (s : State) : State where
  awaiting := s.awaiting.change χ
  document := s.document.mapValues χ.value
  constants := s.constants.mapValues (Constant.change χ)
  tally := s.tally
  log := s.log.map (Event.change χ)

/-- What halted the machine, changed. -/
def Halt.change : Halt → Halt
  | .refused e => .refused e
  | .failed d s => .failed (d.change χ) (s.change χ)

/-- What one token comes to, changed. -/
def changed : Except Halt State → Except Halt State
  | .ok s => .ok (s.change χ)
  | .error halt => .error (halt.change χ)

/-- Where the machine stopped, changed. -/
def Stop.change (stop : Stop) : Stop where
  diagnostic := stop.diagnostic.change χ
  state := stop.state.change χ
  rest := stop.rest.map (Token.change χ)

end Reader

variable {χ}

/-! ## Words -/

/-- Of a token that is no string only the place is changed. -/
theorem Token.change_of_ne {t : Token} (h : t.kind ≠ .text) : t.change χ = t.relocate χ.place := by
  have hword : χ.word t.word = t.word := χ.word_of_ne h
  rw [change, hword]
  rfl

/-- A string becomes a number or a string. -/
theorem Token.kind_change {t : Token} (h : t.kind = .text) :
    (t.change χ).kind = .number ∨ (t.change χ).kind = .text := by
  have hword : t.word = (.text, t.text) := by rw [word, h]
  show (χ.word t.word).1 = .number ∨ (χ.word t.word).1 = .text
  rw [hword]
  exact (χ.denotes t.text).kind

/-- So the signs and the names of a text are where they were. -/
theorem Token.kind_change_eq_iff {t : Token} {kind : Kind} (hnumber : kind ≠ .number) (htext : kind ≠ .text) :
    (t.change χ).kind = kind ↔ t.kind = kind := by
  by_cases h : t.kind = .text
  · rw [h]
    rcases Token.kind_change (χ := χ) h with heq | heq <;> rw [heq]
    · exact iff_of_false hnumber.symm htext.symm
  · rw [change_of_ne h]
    rfl

namespace Reader

/-- What is missing at the end of a text stays the same. -/
theorem Awaiting.missing?_change (a : Awaiting) : (a.change χ).missing? = a.missing? := by
  cases a <;> rfl

namespace State

variable {limits : Limits} {x : Except Halt State} {g : State → Except Halt State}

/-- One thing after another, each of which does the same. -/
theorem changed_bind (g' : State → Except Halt State) (h : ∀ s, g' (s.change χ) = changed χ (g s)) :
    changed χ x >>= g' = changed χ (x >>= g) := by
  cases x with
  | error e => rfl
  | ok s => exact h s

/-! ## The parts of a step -/

section

variable (s : State) (t : Token) (p : Position) (ctx : Context)

/-- A level is entered, or refused, as it was. -/
theorem enter_change : (s.change χ).enter limits (χ.place p) = changed χ (s.enter limits p) := by
  unfold enter
  by_cases h : limits.maxDepth ≤ s.tally.depth
  · rw [if_pos h]
    exact if_pos h
  · rw [if_neg h]
    exact if_neg h

/-- Nodes are counted, or refused, as they were. -/
theorem charge_change (n : Nat) :
    (s.change χ).charge limits n (χ.place p) = changed χ (s.charge limits n p) := by
  unfold charge
  by_cases h : limits.maxNodes < (s.tally.charge n).nodes
  · rw [if_pos h]
    exact if_pos h
  · rw [if_neg h]
    exact if_neg h

/-- A changed value is published as the value was, with the same size and depth. -/
theorem publish_change (name : String) (before : Nat) (v : Value) :
    (s.change χ).publish name before (χ.value v) = (s.publish name before v).change χ := by
  have hknown : ((s.constants.mapValues (Constant.change χ)).find? name).isSome =
      (s.constants.find? name).isSome := by
    rw [Entries.find?_mapValues, Option.isSome_map]
  have hwrite := Entries.mapValues_write (Constant.change χ) s.constants name
    ⟨v, s.tally.peak, s.tally.nodes - before⟩
  unfold publish change
  simp only [hwrite, hknown]
  by_cases h : (s.constants.find? name).isSome = true
  · simp [h, Awaiting.change, Event.change, Constant.change]
  · simp [h, Awaiting.change, Event.change, Constant.change]

/-- A changed value is written under the same key, and where the value replaced another so does it. -/
theorem assign_change (key : String) (v : Value) {lost : Event} (hlost : lost.change χ = lost) :
    (s.change χ).assign key (χ.value v) lost = (s.assign key v lost).change χ := by
  unfold assign change
  simp only [Document.mapValues_insert, Document.isSome_get?_mapValues]
  by_cases h : (s.document.get? key).isSome = true
  · simp [h, hlost, Awaiting.change]
  · simp [h, Awaiting.change]

/-- A changed value goes where the value went. -/
theorem deliver_change (v : Value) :
    (s.change χ).deliver (χ.value v) (ctx.change χ) = (s.deliver v ctx).change χ := by
  obtain ⟨destination, frames⟩ := ctx
  cases frames with
  | nil =>
    cases destination with
    | global name before => exact publish_change s name before v
    | entry key => exact assign_change s key v rfl
    | block => exact assign_change s _ v rfl
  | cons frame frames =>
    cases frame with
    | sequence items => rfl
    | mapping entries key =>
      have hwrite := Entries.mapValues_write χ.value entries key v
      show (s.change χ).await _ = (s.await _).change χ
      unfold await change
      simp only [Awaiting.change, hwrite]
      rfl

/-- A container is opened, or refused, as it was. -/
theorem openContainer_change {inside inside' : Awaiting} (hinside : inside' = inside.change χ) :
    (s.change χ).openContainer limits (χ.place p) inside' = changed χ (s.openContainer limits p inside) := by
  unfold openContainer
  rw [enter_change]
  apply changed_bind
  intro s
  rw [charge_change]
  apply changed_bind
  intro s
  rw [hinside]
  rfl

/-- A reference splices in the changed constant. -/
theorem refer_change (name : Token) :
    (s.change χ).refer limits (χ.place p) (name.relocate χ.place) (ctx.change χ) =
      changed χ (s.refer limits p name ctx) := by
  have hfind : (s.change χ).constants.find? (name.relocate χ.place).text =
      (s.constants.find? name.text).map (Constant.change χ) :=
    Entries.find?_mapValues _ _ _
  unfold refer
  rw [hfind]
  cases s.constants.find? name.text with
  | none => rfl
  | some c =>
    by_cases h : limits.maxDepth < s.tally.reach c.depth
    · simp only [if_pos h]
      exact if_pos h
    · simp only [if_neg h]
      refine (if_neg h).trans ?_
      have hdeliver (s : State) : pure ((s.change χ).deliver (χ.value c.value) (ctx.change χ)) =
          changed χ (pure (s.deliver c.value ctx)) :=
        congrArg Except.ok (deliver_change s ctx c.value)
      rw [← changed_bind (fun s => pure (s.deliver _ (ctx.change χ))) hdeliver, ← charge_change]
      rfl

end

/-- A sign or a name is required and found, or refused, as it was. -/
theorem require_change (s : State) (t : Token) {kind : Token.Kind} (hnumber : kind ≠ .number)
    (htext : kind ≠ .text) : (s.change χ).require kind (t.change χ) = changed χ (s.require kind t) := by
  unfold require
  by_cases h : t.kind = kind
  · rw [if_pos h]
    exact if_pos ((Token.kind_change_eq_iff hnumber htext).mpr h)
  · rw [if_neg h]
    exact if_neg (mt (Token.kind_change_eq_iff hnumber htext).mp h)

/-! ## Values -/

/-- A word that is all of a value is counted, and its value goes where it belongs, whatever it is. -/
theorem beginValue_of_denotes {s : State} {t : Token} {ctx : Context} {v : Value} (h : Denotes t.word v) :
    s.beginValue limits t ctx = s.charge limits 1 t.position >>= fun s => pure (s.deliver v ctx) := by
  obtain ⟨kind, text, position⟩ := t
  cases h with
  | number hdecode =>
    show s.number limits _ ctx = _
    unfold number
    simp only [hdecode]
  | string => rfl

/-- What is wrong with digits is not about a token that does not fit. -/
theorem change_of_decode {digits : String} {fault : Fault} (h : decode digits = .error fault) :
    fault.change χ = fault := by
  unfold decode at h
  split at h
  · cases h
    rfl
  · split at h
    · cases h
    · cases h
      rfl

/-- A changed token begins a value, or is refused, as the token was. -/
theorem beginValue_change (s : State) (t : Token) (ctx : Context) :
    (s.change χ).beginValue limits (t.change χ) (ctx.change χ) = changed χ (s.beginValue limits t ctx) := by
  by_cases htext : t.kind = .text
  · -- The string may have become a number, but on either side one word is all of the value.
    have hword : t.word = (.text, t.text) := by rw [Token.word, htext]
    have hdenotes : Denotes t.word (.ofString t.text) := hword ▸ .string t.text
    have hdenotes' : Denotes (t.change χ).word (χ.value (.ofString t.text)) := by
      have hdenotes := χ.denotes t.text
      rwa [← hword] at hdenotes
    rw [beginValue_of_denotes hdenotes, beginValue_of_denotes hdenotes']
    show (s.change χ).charge limits 1 (χ.place t.position) >>= _ = _
    rw [charge_change]
    apply changed_bind
    intro s
    exact congrArg Except.ok (deliver_change s ctx _)
  · rw [Token.change_of_ne htext]
    unfold beginValue
    rw [Token.kind_relocate]
    cases hkind : t.kind with
    | number =>
      unfold number
      rw [Token.position_relocate, Token.text_relocate, charge_change]
      apply changed_bind
      intro s
      cases hdecode : decode t.text with
      | ok n =>
        have hdeliver := deliver_change (χ := χ) s ctx (.number n)
        rw [χ.value_number] at hdeliver
        exact congrArg Except.ok hdeliver
      | error fault =>
        show Except.error (Halt.failed ⟨fault, _⟩ _) = Except.error (Halt.failed ⟨fault.change χ, _⟩ _)
        rw [change_of_decode hdecode]
    | text => exact absurd hkind htext
    | leftBrace => exact openContainer_change s t.position rfl
    | _ => rfl

/-- A changed token begins a declaration, or is refused, as the token was. -/
theorem beginDeclaration_change (s : State) (t : Token) :
    (s.change χ).beginDeclaration limits (t.change χ) = changed χ (s.beginDeclaration limits t) := by
  unfold beginDeclaration
  by_cases htext : t.kind = .text
  · rcases Token.kind_change (χ := χ) htext with heq | heq <;> rw [htext, heq] <;> rfl
  · rw [Token.change_of_ne htext, Token.kind_relocate]
    cases t.kind with
    | leftBrace => exact openContainer_change s t.position rfl
    | _ => rfl

/-- Inside an array a changed token does what the token did. -/
theorem insideArray_change (s : State) (t : Token) (items : List Value) (ctx : Context) :
    (s.change χ).insideArray limits (t.change χ) (items.map χ.value) (ctx.change χ) =
      changed χ (s.insideArray limits t items ctx) := by
  have hiff : (t.change χ).kind = .rightParen ↔ t.kind = .rightParen :=
    Token.kind_change_eq_iff (by decide) (by decide)
  unfold insideArray
  by_cases h : t.kind = .rightParen
  · have hdeliver := deliver_change (χ := χ) s.leave ctx (.sequence items.reverse)
    rw [χ.value_sequence, List.map_reverse] at hdeliver
    rw [if_pos h, if_pos (hiff.mpr h)]
    exact congrArg Except.ok hdeliver
  · rw [if_neg h, if_neg (mt hiff.mp h)]
    exact beginValue_change s t (ctx.within (.sequence items))

/-- Inside an object a changed token does what the token did. -/
theorem insideObject_change (s : State) (t : Token) (entries : Entries Value) (ctx : Context) :
    (s.change χ).insideObject (t.change χ) (entries.mapValues χ.value) (ctx.change χ) =
      changed χ (s.insideObject t entries ctx) := by
  unfold insideObject
  by_cases htext : t.kind = .text
  · rcases Token.kind_change (χ := χ) htext with heq | heq <;> rw [htext, heq] <;> rfl
  · rw [Token.change_of_ne htext, Token.kind_relocate]
    cases t.kind with
    | rightBrace =>
      have hdeliver := deliver_change (χ := χ) s.leave ctx (.mapping entries)
      rw [χ.value_mapping] at hdeliver
      exact congrArg Except.ok hdeliver
    | _ => rfl

/-! ## Steps and rows -/

/-- A sign or a name that is required may be remembered, with nothing but its place changed. -/
theorem map_require_change (s : State) {t : Token} {kind : Token.Kind} {h h' : State → State}
    (hnumber : kind ≠ .number) (htext : kind ≠ .text)
    (hh : t.change χ = t.relocate χ.place → ∀ s, h' (s.change χ) = (h s).change χ) :
    h' <$> (s.change χ).require kind (t.change χ) = changed χ (h <$> s.require kind t) := by
  rw [require_change s t hnumber htext]
  unfold require
  by_cases hkind : t.kind = kind
  · rw [if_pos hkind]
    exact congrArg Except.ok (hh (Token.change_of_ne (hkind ▸ htext)) s)
  · rw [if_neg hkind]
    rfl

/-- A changed token does what the token did, with all there is changed. -/
theorem step_change (s : State) (t : Token) :
    (s.change χ).step limits (t.change χ) = changed χ (s.step limits t) := by
  have hnote : (s.change χ).note (.consumed (t.change χ)) = (s.note (.consumed t)).change χ := rfl
  unfold step
  rw [hnote]
  generalize s.note (.consumed t) = s
  obtain ⟨awaiting, document, constants, tally, log⟩ := s
  cases awaiting with
  | declaration => exact beginDeclaration_change _ t
  | value ctx => exact beginValue_change _ t ctx
  | item items ctx => exact insideArray_change _ t items ctx
  | key entries ctx => exact insideObject_change _ t entries ctx
  | arrayParen hash ctx =>
    refine (congrArg (· >>= _) (require_change _ t (by decide) (by decide))).trans ?_
    exact changed_bind _ fun s => openContainer_change s hash rfl
  | referenceEnd question name ctx =>
    refine (congrArg (· >>= _) (require_change _ t (by decide) (by decide))).trans ?_
    exact changed_bind _ fun s => refer_change s question ctx name
  | _ =>
    refine map_require_change _ (by decide) (by decide) fun hchange s => ?_
    first
      | rfl
      | rw [hchange]; rfl

/-- A changed row of tokens comes to what the row came to, changed. -/
theorem feed_change (s : State) (ts : List Token) :
    (s.change χ).feed limits (ts.map (Token.change χ)) =
      match s.feed limits ts with
      | .ok s => .ok (s.change χ)
      | .error stop => .error (stop.change χ) := by
  induction ts generalizing s with
  | nil => rfl
  | cons t ts ih =>
    rw [List.map_cons, feed, feed, step_change]
    cases s.step limits t with
    | ok s' => exact ih s'
    | error halt =>
      cases halt with
      | refused e => rfl
      | failed d s' => rfl

/-- The end of the text is refused as it was, with the diagnostic changed. -/
theorem finish?_change (s : State) (p : Position) :
    (s.change χ).finish? (χ.place p) = (s.finish? p).map (Diagnostic.change χ) := by
  have hfinish (e : Expected) : Diagnostic.unexpected e (Token.finish (χ.place p)) =
      (Diagnostic.unexpected e (Token.finish p)).change χ := by
    have hword : χ.word (.finish, "") = (.finish, "") := χ.word_of_ne (by decide)
    show _ = Diagnostic.mk (.unexpected e (χ.word (.finish, "")).1 (χ.word (.finish, "")).2) _
    rw [hword]
    rfl
  show (s.awaiting.change χ).missing?.map _ = (s.awaiting.missing?.map _).map _
  rw [Awaiting.missing?_change, Option.map_map]
  exact congrArg (s.awaiting.missing?.map ·) (funext hfinish)

/-- What the machine comes to at the end of a row: a document, or the first fault. -/
def conclude (limits : Limits) (s : State) (ts : Tokens) : Except Diagnostic Document :=
  match s.feed limits ts.list with
  | .error stop => .error stop.diagnostic
  | .ok s =>
    match s.finish? ts.finish with
    | some diagnostic => .error diagnostic
    | none => .ok s.document

/-- A changed row comes to the changed document, or to the changed fault. -/
theorem conclude_change (s : State) (ts : Tokens) :
    (s.change χ).conclude limits (ts.change χ) =
      ((s.conclude limits ts).map (Document.mapValues χ.value)).mapError (Diagnostic.change χ) := by
  unfold conclude
  simp only [Tokens.change, feed_change]
  cases s.feed limits ts.list with
  | error stop => rfl
  | ok s =>
    simp only [finish?_change]
    cases s.finish? ts.finish with
    | none => rfl
    | some d => rfl

end State

/-- A reading comes to what the machine makes of the row, started with the constants and the tally it has. -/
theorem result_read (r : Reader) :
    r.read.1.result = (State.start r.constants r.tally).conclude r.limits r.tokens := by
  unfold read State.conclude
  cases (State.start r.constants r.tally).feed r.limits r.tokens.list with
  | error stop => rfl
  | ok s => cases hfinish : s.finish? r.tokens.finish <;> simp only [hfinish]

end Reader

/-- Reading a text, changed, comes to what the text comes to, changed. -/
theorem conclude_ofText_change (χ : Change) (settings : Settings) (source : String) :
    (State.start [] .zero).conclude settings.toLimits ((Tokens.ofText source).change χ) =
      ((compile settings source).map (Document.mapValues χ.value)).mapError (Diagnostic.change χ) := by
  rw [compile, readSource, result_read]
  exact State.conclude_change (.start [] .zero) (Tokens.ofText source)

end HexConfig
