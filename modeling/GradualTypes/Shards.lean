import GradualTypes.Numbering

/-!
# Sharded tables

A sharded table spreads its values over 64 numberings.  The last six bits of the
hash of a value choose its shard, and the value is known by a ticket: its place
in the shard, followed by the six bits of the shard.

Tickets are numbers of 32 bits, so there are 26 bits for the place.  A value that
finds its shard full gets no ticket.
-/

namespace GradualTypes

abbrev Shard : Type := Fin 64

namespace Shard

def ofHash (hash : UInt64) : Shard :=
  ⟨hash.toNat % 64, Nat.mod_lt _ (by decide)⟩

def ofTicket (ticket : UInt32) : Shard :=
  ⟨(ticket &&& 63).toNat, by
    have := Nat.and_le_right (n := ticket.toNat) (m := 63)
    simp only [UInt32.toNat_and, UInt32.reduceToNat]
    omega⟩

end Shard

structure Shards (α : Type) [BEq α] [Hashable α] where
  parts : Vector (Numbering α) 64

namespace Shards

variable {α : Type} [BEq α] [Hashable α]

def empty : Shards α where
  parts := Vector.replicate 64 .empty

instance : Inhabited (Shards α) := ⟨empty⟩

/-- The last place in a shard. -/
def lastPlace : Nat := 0xffffffff >>> 6

def ticket (shard : Shard) (place : Nat) : UInt32 :=
  (UInt32.ofNat place <<< 6) ||| UInt32.ofNat shard.val

def placeOf (ticket : UInt32) : Nat :=
  (ticket >>> 6).toNat

def part (table : Shards α) (shard : Shard) : Numbering α :=
  table.parts[shard]

def item? (table : Shards α) (ticket : UInt32) : Option α :=
  (table.part (Shard.ofTicket ticket)).item? (placeOf ticket)

/-- Enter a value, given how values are hashed, and tell its ticket. -/
def enter (hash : α -> UInt64) (table : Shards α) (a : α) : Option UInt32 × Shards α :=
  let shard := Shard.ofHash (hash a)
  let part := table.part shard
  match part.number? a with
  | some place => (some (ticket shard place), table)
  | none =>
      if lastPlace < part.size then
        (none, table)
      else
        (some (ticket shard part.size), ⟨table.parts.set shard (part.enter a)⟩)

end Shards
end GradualTypes
