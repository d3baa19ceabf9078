import HexConfig.Source.Meaning

/-!
# How much is written

Two measures of a value as it is written, its references written out: how many values it writes, those
that a later entry of the same name replaces among them, and how deep its containers nest. From them,
what a whole program needs of the two limits: `Program.depthNeeded` is the deepest nesting in any
declaration, constants among them; `Program.nodesNeeded` is the most that is ever counted at once,
where entries and blocks stay counted and a constant is counted only while it is read.
-/

namespace HexConfig

namespace Term

mutual

/-- How many values a term without references writes. -/
def cost : Term → Nat
  | .number _ => 1
  | .string _ => 1
  | .array items => costOfItems items + 1
  | .object entries => costOfEntries entries + 1
  | .reference _ => 0
termination_by structural t => t

def costOfItems : List Term → Nat
  | [] => 0
  | t :: ts => cost t + costOfItems ts
termination_by structural ts => ts

def costOfEntries : List (String × Term) → Nat
  | [] => 0
  | (_, t) :: es => cost t + costOfEntries es
termination_by structural es => es

end

mutual

/-- How deep the containers of a term without references nest. -/
def nest : Term → Nat
  | .number _ => 0
  | .string _ => 0
  | .array items => nestOfItems items + 1
  | .object entries => nestOfEntries entries + 1
  | .reference _ => 0
termination_by structural t => t

def nestOfItems : List Term → Nat
  | [] => 0
  | t :: ts => max (nest t) (nestOfItems ts)
termination_by structural ts => ts

def nestOfEntries : List (String × Term) → Nat
  | [] => 0
  | (_, t) :: es => max (nest t) (nestOfEntries es)
termination_by structural es => es

end

end Term

namespace Declaration

/-- The term a declaration writes. -/
def term : Declaration → Term
  | global _ t => t
  | entry _ t => t
  | block entries => .object entries

/-- How many values a declaration leaves counted: a constant none. -/
def lasting : Declaration → Nat
  | global _ _ => 0
  | d => d.term.cost

end Declaration

namespace Program

/-- How many values declarations leave counted. -/
def lasting : Program → Nat
  | [] => 0
  | d :: p => d.lasting + lasting p

/-- The nesting that a program without references needs. -/
def depthNeeded : Program → Nat
  | [] => 0
  | d :: rest => max d.term.nest (depthNeeded rest)

/-- The count that a program without references needs. -/
def nodesNeeded : Program → Nat
  | [] => 0
  | d :: rest => max d.term.cost (d.lasting + nodesNeeded rest)

end Program

end HexConfig
