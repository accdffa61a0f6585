import GradualTypes.Ty.Basic

/-!
# Shapes

Operations on the entries of a shape.  A shape is an ordered map: its keys are
distinct, and the order of its entries is the order in which the keys were first
declared.
-/

namespace GradualTypes
namespace Shape

variable {α : Type}

def keys (entries : List (Entry α)) : List Key :=
  entries.map (·.key)

def entry? (entries : List (Entry α)) (key : Key) : Option (Entry α) :=
  entries.find? (·.key == key)

def hasRequired (entries : List (Entry α)) : Bool :=
  entries.any (!·.optional)

def optionalCount (entries : List (Entry α)) : Nat :=
  entries.countP (·.optional)

/-- Whether the keys are `0, 1, 2, ...` in this order and all are required. -/
def isList (entries : List (Entry α)) : Bool :=
  go 0 entries
where
  go (n : Nat) : List (Entry α) -> Bool
    | [] => true
    | e :: rest => !e.optional && e.key == Key.int n && go (n + 1) rest

def sameKeys (entries others : List (Entry α)) : Bool :=
  entries.length == others.length && (keys entries).all (keys others).contains

/-- Put an entry under its key: in place of the entry that is already there, or
at the end. -/
def put (entries : List (Entry α)) (e : Entry α) : List (Entry α) :=
  match entries with
  | [] => [e]
  | d :: rest => if d.key = e.key then e :: rest else d :: put rest e

/-- The ordered map of a list of entries.  A repeated key keeps its first place
and takes its last entry. -/
def ofList (entries : List (Entry α)) : List (Entry α) :=
  entries.foldl put []

end Shape
end GradualTypes
