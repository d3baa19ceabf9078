import HexConfig.Document

/-!
# How large a value is

The nesting of a value's containers, and the number of values in it, itself included. They are what
the two limits bound in the documents that are read.
-/

namespace HexConfig

namespace Value

mutual

/-- How deep the containers of a value nest; a value that is none nests nothing. -/
def nesting : Value → Nat
  | .sequence items => nestingOfItems items + 1
  | .mapping entries => nestingOfEntries entries + 1
  | _ => 0
termination_by structural v => v

def nestingOfItems : List Value → Nat
  | [] => 0
  | v :: vs => max (nesting v) (nestingOfItems vs)
termination_by structural vs => vs

def nestingOfEntries : List (String × Value) → Nat
  | [] => 0
  | (_, v) :: es => max (nesting v) (nestingOfEntries es)
termination_by structural es => es

end

mutual

/-- How many values there are in a value, itself included. -/
def nodes : Value → Nat
  | .sequence items => nodesOfItems items + 1
  | .mapping entries => nodesOfEntries entries + 1
  | _ => 1
termination_by structural v => v

def nodesOfItems : List Value → Nat
  | [] => 0
  | v :: vs => nodes v + nodesOfItems vs
termination_by structural vs => vs

def nodesOfEntries : List (String × Value) → Nat
  | [] => 0
  | (_, v) :: es => nodes v + nodesOfEntries es
termination_by structural es => es

end

end Value

namespace Document

/-- How deep the values of a document nest. -/
def nesting (d : Document) : Nat := Value.nestingOfEntries d.entries

/-- How many values there are in a document, itself not counted. -/
def nodes (d : Document) : Nat := Value.nodesOfEntries d.entries

end Document

end HexConfig
