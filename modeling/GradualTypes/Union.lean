import GradualTypes.Build
import GradualTypes.Options
import GradualTypes.Ty.Kind
import GradualTypes.Ty.Measure
import GradualTypes.Ty.Order

/-!
# Unions

A union is built from its members in steps: the members of unions among them are
taken out, both boolean literals become `bool`, integer intervals that touch
become one, members contained in other members are dropped, and shapes with the
same keys become one shape.  What is left is put into canonical order.

The result is benevolent if every given member is a benevolent union or
`never`.
-/

namespace GradualTypes
namespace Union

open Inquiry

def membersOf : Ty -> List Ty
  | .union _ members => members
  | t => [t]

def keepsBenevolence : Ty -> Bool
  | .union .benevolent _ => true
  | t => t == .never

def flavorOf (members : List Ty) : Flavor :=
  if members.all keepsBenevolence then .benevolent else .plain

def appendNew (members : List Ty) (t : Ty) : List Ty :=
  if members.contains t then members else members ++ [t]

/-!
# Literals and intervals
-/

/-- Both boolean literals together are `bool`. -/
def mergeBools (members : List Ty) : Inquiry (List Ty) := do
  let true' ← Build.bool true
  let false' ← Build.bool false
  if members.contains true' && members.contains false' then
    return appendNew (members.filter fun t => t != true' && t != false') .bool
  else
    return members

def insertByStart (r : IntRange) : List IntRange -> List IntRange
  | [] => [r]
  | s :: rest =>
      if r.startsBefore s then r :: s :: rest else s :: insertByStart r rest

def sortByStart (ranges : List IntRange) : List IntRange :=
  ranges.foldr insertByStart []

def appendRanges (members : List Ty) : List IntRange -> Inquiry (List Ty)
  | [] => pure members
  | r :: rest => do
      let t ← Build.range r
      appendRanges (appendNew members t) rest

/-- Intervals that touch become one. -/
def mergeRanges (members : List Ty) : Inquiry (List Ty) :=
  let ranges := members.filterMap Ty.range?
  if ranges.length < 2 then
    pure members
  else
    appendRanges (members.filter fun t => t.range?.isNone)
      (IntRange.joinTouching (sortByStart ranges))

/-!
# Absorption
-/

/-- Whether a member is contained in one of the others.  Two different literals
are not compared. -/
def isAbsorbed (t : Ty) : List Ty -> Inquiry Bool
  | [] => pure false
  | u :: rest => do
      if t.isLiteral && u.isLiteral then isAbsorbed t rest
      else if (← isContained t u) = .yes then pure true
      else isAbsorbed t rest

/-- Drop each member that is contained in a kept one or in a later one. -/
def absorbFrom (kept : List Ty) : List Ty -> Inquiry (List Ty)
  | [] => pure kept
  | t :: rest => do
      if ← isAbsorbed t (kept ++ rest) then absorbFrom kept rest
      else absorbFrom (kept ++ [t]) rest

def absorb (members : List Ty) : Inquiry (List Ty) :=
  if members.length < 2 then
    pure members
  else do
    fresh
    absorbFrom [] members

/-!
# Shapes with the same keys
-/

def addToGroups (entries : List (Entry Ty)) :
    List (List (List (Entry Ty))) -> List (List (List (Entry Ty)))
  | [] => [[entries]]
  | group :: rest =>
      if group.any (Shape.sameKeys entries) then (group ++ [entries]) :: rest
      else group :: addToGroups entries rest

/-- The shapes among the members, grouped by their keys. -/
def shapeGroups (members : List Ty) : List (List (List (Entry Ty))) :=
  (members.filterMap Ty.entries?).foldl (fun groups entries => addToGroups entries groups) []

/-- The entry that covers the entries of a key in several shapes.  It is
optional if one of them is. -/
def mergeEntry (combine : List Ty -> Inquiry Ty) (shapes : List (List (Entry Ty)))
    (key : Key) : Inquiry (Entry Ty) := do
  let found := shapes.filterMap (Shape.entry? · key)
  let value ← combine (found.map (·.value))
  return ⟨key, value, found.any (·.optional)⟩

/-- The shape that covers several shapes with the same keys. -/
def mergeGroup (combine : List Ty -> Inquiry Ty) (shapes : List (List (Entry Ty))) :
    Inquiry Ty := do
  let keys := Shape.keys (shapes.headD [])
  Build.shape (← keys.mapM (mergeEntry combine shapes))

/-- Merge the groups of two and more shapes while the budget lasts: the shapes
that were merged, and the results. -/
def mergeGroups (combine : List Ty -> Inquiry Ty) (budget : Nat) :
    List (List (List (Entry Ty))) -> Inquiry (List Ty × List Ty)
  | [] => pure ([], [])
  | group :: rest =>
      if group.length < 2 then
        mergeGroups combine budget rest
      else
        let share := group.take budget
        if share.length < 2 then
          pure ([], [])
        else do
          let merged ← mergeGroup combine share
          let (removed, added) ← mergeGroups combine (budget - share.length) rest
          return (share.map .shape ++ removed, merged :: added)

/-- Merge shapes with the same keys.  A merged shape may absorb further
members. -/
def mergeShapes (limit : Nat) (combine : List Ty -> Inquiry Ty) (members : List Ty) :
    Inquiry (List Ty) := do
  let (removed, added) ← mergeGroups combine limit (shapeGroups members)
  if added.isEmpty then
    return members
  else
    absorb (added.foldl appendNew (members.filter fun t => !removed.contains t))

/-!
# The union of a list of types
-/

def close (flavor : Flavor) : List Ty -> Inquiry Ty
  | [t] => pure t
  | members => built (.union flavor (Ty.sortCanonical members))

/-- The union of two and more different members none of which is an error, the
top type or the bottom type. -/
def reduce (limit : Nat) (combine : List Ty -> Inquiry Ty) (flavor : Flavor)
    (members : List Ty) : Inquiry Ty := do
  let members ← mergeBools members
  let members ← mergeRanges members
  let members ← absorb members
  let members ← mergeShapes limit combine members
  close flavor members

def normalize (limit : Nat) (combine : List Ty -> Inquiry Ty) (flavor : Flavor)
    (members : List Ty) : Inquiry Ty :=
  let members := Ty.distinct members
  if members.contains .error then
    pure .error
  else
    let members := members.filter (· != .never)
    if members.contains .mixed then
      pure .mixed
    else
      match members with
      | [] => pure .never
      | [t] => pure t
      | members => reduce limit combine flavor members

/-- The union of members up to a given height.  The values of merged shapes are
less high than the shapes. -/
def upTo (limit : Nat) : Nat -> List Ty -> Inquiry Ty
  | _, [] => pure .error
  | _, [t] => pure t
  | 0, _ => pure .error
  | height + 1, members =>
      normalize limit (upTo limit height) (flavorOf members)
        (members.flatMap membersOf)

/-- The union of a list of types; there is no union of none. -/
def of (options : Options) (members : List Ty) : Inquiry Ty :=
  upTo options.maxUnionShapeMerge (Ty.heights members) members

def benevolentOf (options : Options) (members : List Ty) : Inquiry Ty := do
  Build.markBenevolent (← of options members)

end Union
end GradualTypes
