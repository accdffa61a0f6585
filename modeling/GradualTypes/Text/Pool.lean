import GradualTypes.Shards
import GradualTypes.Text.Vocabulary

/-!
# Pools of texts

A pool keeps each text once, in a sharded table, and knows it by its atom: the ticket of the
text.  The empty text has the atom zero from the start, which is the first place of the first
shard, whatever its hash.

A text that finds its shard full gets the atom of the empty text.
-/

namespace GradualTypes
namespace Text

structure Atom where
  number : UInt32
deriving DecidableEq, Repr

/-- The atom of the empty text. -/
def Atom.empty : Atom := ⟨0⟩

structure Pool where
  table : Shards String

namespace Pool

def fresh : Pool where
  table := ⟨(Vector.replicate 64 .empty).set 0 (Numbering.empty.enter "")⟩

instance : Inhabited Pool := ⟨fresh⟩

/-- The atom of a text, given how texts are hashed. -/
def intern (hash : String -> UInt64) (pool : Pool) (s : String) : Atom × Pool :=
  if s.isEmpty then
    (.empty, pool)
  else
    match pool.table.enter hash s with
    | (some ticket, table) => (⟨ticket⟩, ⟨table⟩)
    | (none, table) => (.empty, ⟨table⟩)

def internAll (hash : String -> UInt64) (pool : Pool) (texts : List String) : Pool :=
  texts.foldl (fun pool s => (pool.intern hash s).2) pool

def internCommonWords (hash : String -> UInt64) (pool : Pool) : Pool :=
  pool.internAll hash Vocabulary.commonWords

def text? (pool : Pool) (a : Atom) : Option String :=
  pool.table.item? a.number

/-- The text of an atom; an atom of no text is read as the empty one. -/
def text (pool : Pool) (a : Atom) : String :=
  (pool.text? a).getD ""

def size (pool : Pool) : Nat :=
  (List.finRange 64).foldl (fun count shard => count + (pool.table.part shard).size) 0

def isFresh (pool : Pool) : Bool :=
  pool.size ≤ 1

end Pool
end Text
end GradualTypes
