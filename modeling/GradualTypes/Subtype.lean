import GradualTypes.Build
import GradualTypes.Callable
import GradualTypes.Ty.Kind
import GradualTypes.Ty.Measure

/-!
# The containment relation

Whether every value of a source type is a value of a target type: `yes` if all
are, `no` if none is, and `maybe` if the two overlap or it cannot be told.

`check` is one step of the relation.  It looks at the outermost form of the two
types and asks for the answers on their parts.  `exact` is the relation that
these steps define when every question is followed to its end.
-/

namespace GradualTypes
namespace Subtype

open Inquiry

/-!
# Answers that need no parts
-/

/-- The answer if one of the types is the top type, the bottom type or no type
of the language. -/
def settled? (source target : Ty) : Option Tristate :=
  if source.isUnknown || target.isUnknown then some .no
  else if target = .mixed then some .yes
  else if source = .never then some .yes
  else if source.isMissing || target.isMissing then some .no
  else if target = .never then some .no
  else if source = .mixed then some .maybe
  else none

def inKeyword (h : Hierarchy) (source : Ty) : Keyword -> Tristate
  | .object =>
      match source with
      | .keyword .object => .yes
      | .object _ _ => .yes
      | .this _ => .yes
      | .keyword .callable => .maybe
      | _ => .no
  | .callable => source.callability h
  | k => .ofBool (source.base? = some k)

/-- Different literals never share a value. -/
def inLiteral (source : Ty) (v : Literal) : Tristate :=
  match source with
  | .keyword k =>
      if k = v.base ∨ k = .callable ∧ v.base = .string then .maybe else .no
  | .range r =>
      match v with
      | .int n => if r.contains n then .maybe else .no
      | _ => .no
  | _ => .no

def inRange (source : Ty) (r : IntRange) : Tristate :=
  match source with
  | .literal (.int n) => .ofBool (r.contains n)
  | .range s => if s.within r then .yes else if s.overlaps r then .maybe else .no
  | .keyword .int => .maybe
  | _ => .no

/-!
# Class references
-/

/-- Template arguments are compared one by one.  A reference without arguments
stands for every instantiation. -/
def inArguments (source target : List Ty) : Inquiry Tristate :=
  if target.isEmpty then pure .yes
  else if source.length ≠ target.length then pure .maybe
  else all (fun pair => isContained pair.1 pair.2) (source.zip target)

/-- Instances of a subclass belong to a reference without arguments. -/
def bySubclass (arguments : List Ty) : Tristate :=
  if arguments.isEmpty then .yes else .maybe

def inObject (h : Hierarchy) (source : Ty) (cls : String) (arguments : List Ty) :
    Inquiry Tristate :=
  match source with
  | .object sourceCls sourceArguments =>
      match h.kinship sourceCls cls with
      | .same => inArguments sourceArguments arguments
      | .subclass => pure (bySubclass arguments)
      | .disjoint => pure .no
      | _ => pure .maybe
  | .this sourceCls =>
      match h.kinship sourceCls cls with
      | .same => pure (bySubclass arguments)
      | .subclass => pure (bySubclass arguments)
      | .disjoint => pure .no
      | _ => pure .maybe
  | .keyword .object => pure .maybe
  | .keyword .callable => pure .maybe
  | _ => pure .no

def inThis (h : Hierarchy) (source : Ty) (cls : String) : Tristate :=
  match source with
  | .this sourceCls =>
      match h.kinship sourceCls cls with
      | .same => .yes
      | .subclass => .yes
      | .disjoint => .no
      | _ => .maybe
  | .object sourceCls _ =>
      match h.kinship sourceCls cls with
      | .disjoint => .no
      | _ => .maybe
  | .keyword .object => .maybe
  | _ => .no

/-!
# Arrays and shapes
-/

def entryInArray (key value : Ty) (e : Entry Ty) : Inquiry Tristate := do
  let entryKey ← Build.key e.key
  let byKey ← isContained entryKey key
  let byValue ← isContained e.value value
  let fits := byKey.and byValue
  return if e.optional ∧ fits = .no then .maybe else fits

def inArray (source key value : Ty) : Inquiry Tristate :=
  match source with
  | .array sourceKey sourceValue => do
      let byKey ← isContained sourceKey key
      if byKey = .no then
        return .no
      else
        return byKey.and (← isContained sourceValue value)
  | .shape entries => all (entryInArray key value) entries
  | .keyword .callable => pure .maybe
  | _ => pure .no

/-- Whether an array of the given key and value types may have an entry. -/
def mayHaveEntry (key value : Ty) (e : Entry Ty) : Inquiry Bool := do
  let entryKey ← Build.key e.key
  if (← isContained entryKey key) = .no then
    return false
  else if (← isContained e.value value) = .no then
    return (← isContained value e.value) ≠ .no
  else
    return true

/-- `maybe` if an array of the given key and value types may have all the
required entries, and otherwise `no`. -/
def arrayInShape (key value : Ty) : List (Entry Ty) -> Inquiry Tristate
  | [] => pure .maybe
  | e :: rest => do
      if e.optional then arrayInShape key value rest
      else if ← mayHaveEntry key value e then arrayInShape key value rest
      else pure .no

/-- How the keys that only the source declares bear on the answer.  Shapes are
sealed, so such a key must be absent. -/
def surplusKeys (source target : List (Entry Ty)) : Tristate :=
  .all ((source.filter fun e => (Shape.entry? target e.key).isNone).map fun e =>
    if e.optional then .maybe else .no)

/-- Whether what a source shape has under the key of a target entry fits. -/
def inEntry (source : List (Entry Ty)) (e : Entry Ty) : Inquiry Tristate :=
  match Shape.entry? source e.key with
  | none => pure (if e.optional then .yes else .no)
  | some s => do
      let fits ← isContained s.value e.value
      let fits := if fits = .no ∧ s.optional ∧ e.optional then .maybe else fits
      return if s.optional ∧ !e.optional then fits.and .maybe else fits

def shapeInShape (source target : List (Entry Ty)) : Inquiry Tristate :=
  match surplusKeys source target with
  | .no => pure .no
  | known => allFrom known (inEntry source) target

def inShape (source : Ty) (entries : List (Entry Ty)) : Inquiry Tristate :=
  match source with
  | .shape sourceEntries => shapeInShape sourceEntries entries
  | .array key value => arrayInShape key value entries
  | .keyword .callable => pure .maybe
  | _ => pure .no

/-!
# Accessories
-/

def inNonEmptyArray : Ty -> Tristate
  | .shape entries =>
      if Shape.hasRequired entries then .yes
      else if entries.isEmpty then .no
      else .maybe
  | .accessory (.hasOffset _) => .yes
  | .array _ _ => .maybe
  | .keyword .callable => .maybe
  | _ => .no

def inNonEmptyString : Ty -> Tristate
  | .literal (.text s) => .ofBool (s != "")
  | .keyword .string => .maybe
  | .keyword .callable => .maybe
  | _ => .no

def inHasProperty (h : Hierarchy) (name : String) : Ty -> Tristate
  | .object cls _ => h.hasProperty cls name
  | .this cls => h.hasProperty cls name
  | .accessory (.hasProperty _) => .maybe
  | .keyword .object => .maybe
  | .keyword .callable => .maybe
  | _ => .no

def inHasOffset (offset : Key) : Ty -> Inquiry Tristate
  | .shape entries =>
      match Shape.entry? entries offset with
      | some e => pure (if e.optional then .maybe else .yes)
      | none => pure .no
  | .array key _ => do
      let offsetType ← Build.key offset
      return if (← isContained offsetType key) = .no then .no else .maybe
  | .accessory .nonEmptyArray => pure .maybe
  | .accessory (.hasOffset _) => pure .maybe
  | .keyword .callable => pure .maybe
  | _ => pure .no

def inAccessory (h : Hierarchy) (source : Ty) : Accessory -> Inquiry Tristate
  | .nonEmptyArray => pure (inNonEmptyArray source)
  | .nonEmptyString => pure (inNonEmptyString source)
  | .hasProperty name => pure (inHasProperty h name source)
  | .hasOffset offset => inHasOffset offset source

/-!
# One step of the relation
-/

/-- The step for a target that is neither a union nor an intersection. -/
def inSimple (h : Hierarchy) (source : Ty) : Ty -> Inquiry Tristate
  | .keyword k => pure (inKeyword h source k)
  | .literal v => pure (inLiteral source v)
  | .range r => pure (inRange source r)
  | .object cls arguments => inObject h source cls arguments
  | .this cls => pure (inThis h source cls)
  | .array key value => inArray source key value
  | .shape entries => inShape source entries
  | .accessory a => inAccessory h source a
  | _ => pure .no

/-- A constraint alone is never contained in a type of values, but overlaps it
unless the values contradict the constraint. -/
def constraintIn (source target : Ty) : Inquiry Tristate := do
  return if (← isContained target source) = .no then .no else .maybe

def check (h : Hierarchy) (source target : Ty) : Inquiry Tristate :=
  match settled? source target with
  | some answer => pure answer
  | none =>
      match source, target with
      | .union _ members, _ => unanimous (isContained · target) members
      | _, .union _ members => any (isContained source ·) members
      | _, .inter members => all (isContained source ·) members
      | .inter members, _ => decisive (isContained · target) members
      | _, _ =>
          if source.isAccessory && !target.isAccessory then
            constraintIn source target
          else
            inSimple h source target

/-!
# The relation without limits
-/

/-- The relation with questions followed to a given depth. -/
def exactTo (h : Hierarchy) : Nat -> Ty -> Ty -> Tristate
  | 0 => fun _ _ => .maybe
  | depth + 1 => fun source target =>
      if source = target then .yes
      else (check h source target).value (exactTo h depth)

/-- The relation with every question followed to its end.  No chain of questions
is longer than the heights of the two types together. -/
def exact (h : Hierarchy) (source target : Ty) : Tristate :=
  exactTo h (source.height + target.height) source target

end Subtype

/-- Whether every value of the source is a value of the target. -/
def isSubtype (source target : Ty) : Inquiry Tristate := do
  Inquiry.fresh
  Inquiry.isContained source target

/-- Whether two types share no value, as far as either side can tell. -/
def areDisjoint (left right : Ty) : Inquiry Bool := do
  Inquiry.fresh
  if (← Inquiry.isContained left right) = .no then
    return (← Inquiry.isContained right left) = .no
  else
    return false

end GradualTypes
