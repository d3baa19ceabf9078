import HexConfig.Proofs.Entries
import HexConfig.Proofs.Reader.Runs
import HexConfig.Proofs.Token.Proper

/-!
# What a reader can make

Not every value can be written in a source text. There is no sign for a negative number, no text holds
a quote, `true` and `false` are booleans, and a name in an object is spelled as names are. Values of
that kind are *writable*, and no other is ever made: of all that the machine holds, in the document, in
the constants and in the containers that are open, every token keeps it (`writable_of_step`), so it is
true of whatever a row of tokens comes to (`writable_of_feed`).
-/

namespace HexConfig

/-! ## Writable values -/

/-- A name as a source text spells it. -/
def IsName (k : String) : Prop := Word.Proper (.identifier, k)

/-- The name of blocks without one is a name like any other. -/
theorem isName_unnamedKey : IsName Document.unnamedKey :=
  ⟨'u', "nnamed".toList, rfl, rfl, List.all_eq_true.mp rfl, by decide⟩

/-- A value that a source text can write. -/
inductive Value.Writable : Value → Prop
  | number {n : Nat} : n < Integer.signedBound → Writable (.number n)
  | text {s : String} : '"' ∉ s.toList → s ≠ "true" → s ≠ "false" → Writable (.text s)
  | boolean (b : Bool) : Writable (.boolean b)
  | sequence {items : List Value} : (∀ v ∈ items, Writable v) → Writable (.sequence items)
  | mapping {entries : Entries Value} : entries.Sorted → (∀ e ∈ entries, IsName e.1) →
      (∀ e ∈ entries, Writable e.2) → Writable (.mapping entries)

/-- Entries that a source text can write. -/
structure Entries.Writable (es : Entries Value) : Prop where
  sorted : es.Sorted
  names : ∀ e ∈ es, IsName e.1
  values : ∀ e ∈ es, e.2.Writable

namespace Entries

theorem writable_nil : Writable [] :=
  ⟨sorted_nil, fun _ h => absurd h List.not_mem_nil, fun _ h => absurd h List.not_mem_nil⟩

/-- One more value that can be written, under a name. -/
theorem Writable.write {es : Entries Value} (h : es.Writable) {key : String} (hkey : IsName key)
    {v : Value} (hv : v.Writable) : (es.write key v).Writable where
  sorted := h.sorted.write
  names e he := by
    rcases mem_write he with rfl | he
    · exact hkey
    · exact h.names e he
  values e he := by
    rcases mem_write he with rfl | he
    · exact hv
    · exact h.values e he

theorem Writable.mapping {es : Entries Value} (h : es.Writable) : Value.Writable (.mapping es) :=
  .mapping h.sorted h.names h.values

end Entries

namespace Value

/-- A number that is read is within its bounds. -/
theorem writable_number {digits : String} {n : Int} (h : Term.numberOf? digits = some n) :
    Writable (.number n) := by
  unfold Term.numberOf? at h
  split at h
  · exact nomatch h
  · split at h
    · next hfits =>
      cases h
      exact .number hfits
    · exact nomatch h

/-- What a string stands for, if there is no quote in it. -/
theorem writable_ofString {s : String} (h : '"' ∉ s.toList) : (ofString s).Writable := by
  unfold ofString
  split
  · exact .boolean true
  · next htrue =>
    split
    · exact .boolean false
    · next hfalse => exact .text h htrue hfalse

end Value

namespace Reader

/-! ## All that the machine holds -/

/-- The name that the value is for, if it is for an entry, is a name. -/
def Destination.Writable : Destination → Prop
  | .global _ _ => True
  | .entry key => IsName key
  | .block => True

/-- What an open container holds so far can be written. -/
def Frame.Writable : Frame → Prop
  | .sequence items => ∀ v ∈ items, v.Writable
  | .mapping entries key => entries.Writable ∧ IsName key

/-- What is around a value can be written. -/
structure Context.Writable (ctx : Context) : Prop where
  destination : ctx.destination.Writable
  frames : ∀ f ∈ ctx.frames, f.Writable

theorem Context.Writable.within {ctx : Context} (h : ctx.Writable) {f : Frame} (hf : f.Writable) :
    (ctx.within f).Writable :=
  ⟨h.destination, List.forall_mem_cons.mpr ⟨hf, h.frames⟩⟩

/-- What the machine needs to go on from where it stands can be written. -/
def Awaiting.Writable : Awaiting → Prop
  | .declaration => True
  | .globalName => True
  | .globalEquals _ => True
  | .entryEquals k => IsName k
  | .value ctx => ctx.Writable
  | .arrayParen _ ctx => ctx.Writable
  | .item items ctx => (∀ v ∈ items, v.Writable) ∧ ctx.Writable
  | .key entries ctx => entries.Writable ∧ ctx.Writable
  | .equals entries k ctx => entries.Writable ∧ IsName k ∧ ctx.Writable
  | .referenceBracket _ ctx => ctx.Writable
  | .referenceName _ ctx => ctx.Writable
  | .referenceEnd _ _ ctx => ctx.Writable

/-- The values of all constants can be written. -/
def WritableConstants (constants : Constants) : Prop := constants.All (·.value.Writable)

/-- Whatever the machine holds can be written. -/
structure State.Writable (s : State) : Prop where
  document : s.document.entries.Writable
  constants : WritableConstants s.constants
  awaiting : s.awaiting.Writable

namespace State

variable {limits : Limits} {s s' : State} {t : Token} {ctx : Context} {v : Value}

/-- A state that differs in what it awaits, what it counted and what it tells of. -/
theorem Writable.congr (h : s.Writable) (hd : s'.document = s.document)
    (hc : s'.constants = s.constants) (ha : s'.awaiting.Writable) : s'.Writable :=
  ⟨hd ▸ h.document, hc ▸ h.constants, ha⟩

theorem Writable.charged (h : s.Writable) (n : Nat) : (s.charged n).Writable :=
  h.congr rfl rfl h.awaiting

theorem Writable.leave (h : s.Writable) : s.leave.Writable := h.congr rfl rfl h.awaiting

theorem Writable.spliced (h : s.Writable) (c : Constant) : (s.spliced c).Writable :=
  h.congr rfl rfl h.awaiting

/-- A finished value goes where it belongs. -/
theorem Writable.deliver (h : s.Writable) (hv : v.Writable) (hctx : ctx.Writable) :
    (s.deliver v ctx).Writable := by
  obtain ⟨destination, frames⟩ := ctx
  cases frames with
  | nil =>
    cases destination with
    | global name before => exact ⟨h.document, h.constants.write hv name, trivial⟩
    | entry key => exact ⟨h.document.write hctx.destination hv, h.constants, trivial⟩
    | block => exact ⟨h.document.write isName_unnamedKey hv, h.constants, trivial⟩
  | cons f frames =>
    obtain ⟨hf, hframes⟩ := List.forall_mem_cons.mp hctx.frames
    have houter : Context.Writable ⟨destination, frames⟩ := ⟨hctx.destination, hframes⟩
    cases f with
    | sequence items => exact h.congr rfl rfl ⟨List.forall_mem_cons.mpr ⟨hv, hf⟩, houter⟩
    | mapping entries key => exact h.congr rfl rfl ⟨hf.1.write hf.2 hv, houter⟩

/-- Where a value may start, what is around it can be written. -/
theorem ForValue.writable (hctx : s.ForValue ctx) (h : s.Writable) : ctx.Writable := by
  have hawaiting := h.awaiting
  rcases hctx with hawait | ⟨items, outer, hawait, rfl⟩
  · rwa [hawait] at hawaiting
  · rw [hawait] at hawaiting
    exact hawaiting.2.within hawaiting.1

/-- No way of going on leaves anything that cannot be written. -/
theorem writable_of_advance (hstep : Advance limits s t s') (ht : Word.Proper t.word)
    (h : s.Writable) : s'.Writable := by
  have hawaiting := h.awaiting
  cases hstep with
  | global => exact h.congr rfl rfl trivial
  | entryKey _ hkind =>
    rw [Token.word, hkind] at ht
    exact h.congr rfl rfl ht
  | block => exact h.congr rfl rfl ⟨Entries.writable_nil, trivial, nofun⟩
  | globalName => exact h.congr rfl rfl trivial
  | globalEquals => exact h.congr rfl rfl ⟨trivial, nofun⟩
  | entryEquals hawait =>
    rw [hawait] at hawaiting
    exact h.congr rfl rfl ⟨hawaiting, nofun⟩
  | number hctx _ _ hdecode =>
    have hv := Value.writable_number (decode_eq_ok_iff.mp hdecode)
    exact (h.charged 1).deliver hv (hctx.writable h)
  | text hctx hkind =>
    rw [Token.word, hkind] at ht
    have hv := Value.writable_ofString ht
    exact (h.charged 1).deliver hv (hctx.writable h)
  | hash hctx => exact h.congr rfl rfl (hctx.writable h)
  | question hctx => exact h.congr rfl rfl (hctx.writable h)
  | object hctx => exact h.congr rfl rfl ⟨Entries.writable_nil, hctx.writable h⟩
  | arrayParen hawait =>
    rw [hawait] at hawaiting
    exact h.congr rfl rfl ⟨fun _ hv => absurd hv List.not_mem_nil, hawaiting⟩
  | arrayEnd hawait =>
    rw [hawait] at hawaiting
    obtain ⟨hitems, hctx⟩ := hawaiting
    have hv := Value.Writable.sequence fun v hv => hitems v (List.mem_reverse.mp hv)
    exact h.leave.deliver hv hctx
  | key hawait hkind =>
    rw [hawait] at hawaiting
    rw [Token.word, hkind] at ht
    exact h.congr rfl rfl ⟨hawaiting.1, ht, hawaiting.2⟩
  | objectEnd hawait =>
    rw [hawait] at hawaiting
    obtain ⟨hentries, hctx⟩ := hawaiting
    exact h.leave.deliver hentries.mapping hctx
  | equals hawait =>
    rw [hawait] at hawaiting
    obtain ⟨hentries, hkey, hctx⟩ := hawaiting
    exact h.congr rfl rfl (hctx.within ⟨hentries, hkey⟩)
  | referenceBracket hawait =>
    rw [hawait] at hawaiting
    exact h.congr rfl rfl hawaiting
  | referenceName hawait =>
    rw [hawait] at hawaiting
    exact h.congr rfl rfl hawaiting
  | @referenceEnd _ name ctx c hawait _ hc =>
    rw [hawait] at hawaiting
    have hv := h.constants name.text c hc
    exact (h.spliced c).deliver hv hawaiting

/-- A token that is taken leaves nothing that cannot be written. -/
theorem writable_of_step (hstep : s.step limits t = .ok s') (ht : Word.Proper t.word)
    (h : s.Writable) : s'.Writable :=
  writable_of_advance (advance_of_step hstep) ht (h.congr rfl rfl h.awaiting)

/-- Tokens that are taken leave nothing that cannot be written. -/
theorem writable_of_feed {ts : List Token} (hfeed : s.feed limits ts = .ok s')
    (hproper : ∀ t ∈ ts, Word.Proper t.word) (h : s.Writable) : s'.Writable :=
  feed_induction_mem (fun ht hs hstep => writable_of_step hstep (hproper _ ht) hs) h hfeed

/-- A reading starts from constants that can be written, and nothing else. -/
theorem writable_start {constants : Constants} (h : WritableConstants constants) (tally : Tally) :
    (start constants tally).Writable :=
  ⟨Entries.writable_nil, h, trivial⟩

end State

end Reader

end HexConfig
