import Std.Data.HashMap

/-!
# Numberings

A numbering gives each distinct value that is entered into it a number: the
count of the values entered before it.  Entering a value again changes nothing.
So numbers and entered values correspond one to one, and a number keeps its
meaning through all later entries.
-/

namespace GradualTypes

structure Numbering (α : Type) [BEq α] [Hashable α] where
  items : Array α
  /-- The number of each entered value. -/
  index : Std.HashMap α Nat

namespace Numbering

variable {α : Type} [BEq α] [Hashable α]

def empty : Numbering α where
  items := #[]
  index := {}

instance : Inhabited (Numbering α) := ⟨empty⟩

def size (numbering : Numbering α) : Nat :=
  numbering.items.size

def number? (numbering : Numbering α) (a : α) : Option Nat :=
  numbering.index[a]?

def item? (numbering : Numbering α) (n : Nat) : Option α :=
  numbering.items[n]?

/-- Enter a value, unless it has been entered before. -/
def enter (numbering : Numbering α) (a : α) : Numbering α :=
  if numbering.index.contains a then
    numbering
  else
    let next := numbering.items.size
    { items := numbering.items.push a
      index := numbering.index.insert a next }

def enterAll (numbering : Numbering α) (values : List α) : Numbering α :=
  values.foldl enter numbering

/-- Enter a value and tell its number. -/
def numberOf (numbering : Numbering α) (a : α) : Nat × Numbering α :=
  let numbering := numbering.enter a
  ((numbering.number? a).getD 0, numbering)

end Numbering
end GradualTypes
