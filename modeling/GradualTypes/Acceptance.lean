import GradualTypes.Options
import GradualTypes.Subtype
import GradualTypes.Text.Numeral

/-!
# Acceptance

Whether a value of one type may be passed where another type is declared.  This
is containment with two adjustments.  A union on the side of the value is split:
all members of a plain union must be accepted, but only some member of a
benevolent one.  And scalars are converted: a `float` takes an `int`, and unless
types are strict, strings, booleans and numbers stand for each other as far as
their values can be converted.
-/

namespace GradualTypes
namespace Acceptance

open Inquiry

/-- The conversion of a string to a number.  An integer takes a decimal only if
nothing is lost. -/
def fromText (integral : Bool) : Ty -> Tristate
  | .literal (.text s) =>
      match Text.Numeral.ofString? s with
      | some .integer => .yes
      | some .decimal => if integral then .maybe else .yes
      | none => .no
  | _ => .maybe

/-- The conversion of a scalar to a different scalar type, if there is one that
decides acceptance. -/
def conversion? (strict : Bool) (acceptor value : Ty) : Option Tristate :=
  match acceptor, value.base? with
  | .keyword .float, some .int => some .yes
  | .keyword acceptorBase, some valueBase =>
      if strict then none
      else
        match acceptorBase, valueBase with
        | .string, .int => some .yes
        | .string, .float => some .yes
        | .string, .bool => some .yes
        | .bool, .int => some .yes
        | .bool, .float => some .yes
        | .bool, .string => some .yes
        | .int, .bool => some .yes
        | .float, .bool => some .yes
        | .int, .float => some .maybe
        | .int, .string => some (fromText true value)
        | .float, .string => some (fromText false value)
        | _, _ => none
  | _, _ => none

/-- Acceptance by a type that is neither a union nor an intersection, of a value
that is neither. -/
def simple (h : Hierarchy) (strict : Bool) (acceptor value : Ty) : Inquiry Tristate :=
  if acceptor = .callable then
    pure (value.callability h)
  else
    match conversion? strict acceptor value with
    | some answer => pure answer
    | none => isContained value acceptor

/-- The answer if one of the types is the top type, the bottom type, an error or
unknown. -/
def settled? (acceptor value : Ty) : Option Tristate :=
  if acceptor = value then some .yes
  else if acceptor = .error || value = .error then some .no
  else if acceptor = .mixed || value = .never then some .yes
  else if acceptor.isUnknown || value.isUnknown then some .no
  else none

def accepts (h : Hierarchy) (options : Options) (strict : Bool) (acceptor value : Ty) :
    Inquiry Tristate :=
  match settled? acceptor value with
  | some answer => pure answer
  | none =>
      match value with
      | .union flavor members =>
          if flavor = .benevolent && options.benevolentAcceptance then
            any (fun m => accepts h options strict acceptor m.1) members.attach
          else
            all (fun m => accepts h options strict acceptor m.1) members.attach
      | .keyword .mixed => pure .maybe
      | value =>
          match acceptor with
          | .union _ members =>
              any (fun m => accepts h options strict m.1 value) members.attach
          | .inter members =>
              all (fun m => accepts h options strict m.1 value) members.attach
          | acceptor =>
              match value with
              | .inter members => do
                  let byMember ←
                    any (fun m => accepts h options strict acceptor m.1) members.attach
                  if byMember = .yes then
                    return .yes
                  else
                    return byMember.or (← isContained value acceptor)
              | value => simple h strict acceptor value
termination_by acceptor.size + value.size
decreasing_by
  all_goals
    have := Ty.size_le_sizes m.2
    simp only [Ty.size]
    omega

end Acceptance

/-- Whether a value may be passed where another type is declared. -/
def accepts (h : Hierarchy) (options : Options) (strict : Bool) (acceptor value : Ty) :
    Inquiry Tristate := do
  Inquiry.fresh
  Acceptance.accepts h options strict acceptor value

end GradualTypes
