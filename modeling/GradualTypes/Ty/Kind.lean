import GradualTypes.Ty.Basic

/-!
# Kinds of types

Tests and partial views of the outermost form of a type.
-/

namespace GradualTypes
namespace Ty

/-- Whether a type stands for no type of the language. -/
def isMissing : Ty -> Bool
  | error => true
  | placeholder => true
  | _ => false

/-- Whether nothing but a number is known of a type. -/
def isUnknown : Ty -> Bool
  | unknown _ => true
  | _ => false

/-- Whether a type takes part by its name alone. -/
def isPrimitive : Ty -> Bool
  | keyword _ => true
  | unknown _ => true
  | _ => false

/-- Whether a type is one of the two that have no values. -/
def isBottom (t : Ty) : Bool :=
  t == error || t == never

def isLiteral : Ty -> Bool
  | literal _ => true
  | _ => false

def isArray : Ty -> Bool
  | array _ _ => true
  | _ => false

def isShape : Ty -> Bool
  | shape _ => true
  | _ => false

def isAccessory : Ty -> Bool
  | accessory _ => true
  | _ => false

def isConstantScalar : Ty -> Bool
  | literal _ => true
  | keyword .null => true
  | _ => false

def isConstant (t : Ty) : Bool :=
  t.isConstantScalar || t.isShape

/-- The built-in scalar type that contains a scalar type; a built-in type is its
own. -/
def base? : Ty -> Option Keyword
  | keyword k => some k
  | literal v => some v.base
  | range _ => some .int
  | _ => none

def range? : Ty -> Option IntRange
  | range r => some r
  | _ => none

def entries? : Ty -> Option (List (Entry Ty))
  | shape entries => some entries
  | _ => none

def unionMembers? : Ty -> Option (List Ty)
  | union _ members => some members
  | _ => none

def className? : Ty -> Option String
  | object cls _ => some cls
  | this cls => some cls
  | _ => none

def accessory? : Ty -> Option Accessory
  | accessory a => some a
  | _ => none

end Ty
end GradualTypes
