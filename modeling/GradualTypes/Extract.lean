import GradualTypes.Callable
import GradualTypes.Expansion
import GradualTypes.Ty.Kind

/-!
# Extracting members

Functions that collect the members of one kind from a type, in the order of the
members.  Unions are searched under one of two policies: under the strict one a
member without a match empties the result, under the lenient one it is skipped.
-/

namespace GradualTypes

inductive MemberKind where
  | array
  | shape
  /-- Literals, `null` and shapes. -/
  | constant
  | constantText
  /-- Literals and `null`. -/
  | constantScalar
  | range
  | accessory
deriving DecidableEq, Repr

structure Policy where
  /-- Also collect matching members of intersections. -/
  inIntersections : Bool
  /-- A member of a union without a match empties the result. -/
  strict : Bool
deriving DecidableEq, Repr

namespace MemberKind

def holds : MemberKind -> Ty -> Bool
  | array, t => t.isArray || t.isShape
  | shape, t => t.isShape
  | constant, t => t.isConstant
  | constantText, .literal (.text _) => true
  | constantScalar, t => t.isConstantScalar
  | range, .range _ => true
  | accessory, .accessory _ => true
  | _, _ => false

end MemberKind

namespace Ty

/-- The lists collected from the members of a union, put together. -/
def gather (strict : Bool) (found : List (List Ty)) : List Ty :=
  if strict && found.any List.isEmpty then [] else found.flatten

mutual

def extract (kind : MemberKind) (policy : Policy) : Ty -> List Ty
  | union _ members => gather policy.strict (extractEach kind policy members)
  | inter members => if policy.inIntersections then members.filter kind.holds else []
  | t => if kind.holds t then [t] else []

def extractEach (kind : MemberKind) (policy : Policy) : List Ty -> List (List Ty)
  | [] => []
  | t :: rest => extract kind policy t :: extractEach kind policy rest

end

/-!
# Members that are read off directly
-/

/-- The members of a union or intersection, or the type alone. -/
def directMembers : Ty -> List Ty
  | union _ members => members
  | inter members => members
  | t => [t]

def classNames (t : Ty) : List String :=
  t.directMembers.filterMap className?

def isHasProperty : Ty -> Bool
  | accessory (.hasProperty _) => true
  | _ => false

mutual

/-- The constraints on properties, at any depth of unions and intersections. -/
def propertyConstraints : Ty -> List Ty
  | union _ members => allPropertyConstraints members
  | inter members => allPropertyConstraints members
  | t => if isHasProperty t then [t] else []

def allPropertyConstraints : List Ty -> List Ty
  | [] => []
  | t :: rest => propertyConstraints t ++ allPropertyConstraints rest

end

mutual

/-- The first reference to the enclosing class, at any depth of unions and
intersections. -/
def thisType? : Ty -> Option Ty
  | union _ members => firstThisType? members
  | inter members => firstThisType? members
  | this cls => some (this cls)
  | _ => none

def firstThisType? : List Ty -> Option Ty
  | [] => none
  | t :: rest => (thisType? t).or (firstThisType? rest)

end

/-- Whether a type, or some member of it if it is a union, can certainly be
called. -/
def containsCallable (h : Hierarchy) (t : Ty) : Bool :=
  t.callability h = .yes ||
    (t.unionMembers?.getD []).any fun member => member.callability h = .yes

/-!
# Members with shapes expanded
-/

def concreteArrays (options : Options) (t : Ty) : Inquiry (List Ty) :=
  if t.isArray then pure [t] else Shape.concrete options t

/-- Put together what each member gives, as long as all members pass a test;
nothing if one does not. -/
def collectIf (test : Ty -> Bool) (expand : Ty -> Inquiry (List Ty)) :
    List Ty -> Inquiry (Option (List Ty))
  | [] => pure (some [])
  | t :: rest =>
      if test t then do
        let first ← expand t
        let others ← collectIf test expand rest
        return others.map (first ++ ·)
      else
        pure none

/-- The arrays of a type, with shapes expanded.  A union with a member that is no
array has none; an intersection has those of its members. -/
def arrays (options : Options) (t : Ty) : Inquiry (List Ty) :=
  match t with
  | union _ members => do
      let found ← collectIf MemberKind.array.holds (concreteArrays options) members
      return found.getD []
  | inter members => do
      let found ← (members.filter MemberKind.array.holds).mapM (concreteArrays options)
      return found.flatten
  | _ => concreteArrays options t

/-- The shapes of a type, expanded.  A union with a member that is no shape has
none. -/
def constantArrays (options : Options) (t : Ty) : Inquiry (List Ty) :=
  match t with
  | union _ members => do
      return (← collectIf isShape (Shape.concrete options) members).getD []
  | _ => Shape.concrete options t

def flattenMember (options : Options) (t : Ty) : Inquiry (List Ty) :=
  if t.isShape then Shape.concrete options t else pure [t]

/-- A type split into the members of its union, with shapes expanded. -/
def flatten (options : Options) (t : Ty) : Inquiry (List Ty) := do
  let found ← (t.unionMembers?.getD [t]).mapM (flattenMember options)
  return found.flatten

end Ty
end GradualTypes
