import GradualTypes.Ty.Basic

/-!
# Orders of types

## Codes

Every type has a code, a list of integers from which the type can be read back.
Lists of integers are ordered lexicographically, so codes order the types
totally.  This order has no meaning of its own; it is used to bring a list of
members into a form that depends only on which members there are.

## The canonical order

The members of a union or intersection are kept in the order of
`Ty.canonicalKey`: classes by name, then arrays, then scalars by kind, where
literals come before the type that contains them, and `null` last.  The key ends
in the code, so distinct types are never tied.
-/

namespace GradualTypes
namespace Ty

/-!
# Codes of the parts
-/

/-- A text in front of further integers.  A shorter text comes before its
continuations. -/
def textCode (s : String) (rest : List Int) : List Int :=
  s.toList.foldr (fun c code => (c.toNat + 1 : Int) :: code) (0 :: rest)

def boundCode : Option Int -> List Int -> List Int
  | none, rest => 0 :: rest
  | some n, rest => 1 :: n :: rest

def boolCode (b : Bool) (rest : List Int) : List Int :=
  (if b then 1 else 0) :: rest

def keyCode : Key -> List Int -> List Int
  | .int n, rest => 0 :: n :: rest
  | .text s, rest => 1 :: textCode s rest

def literalCode : Literal -> List Int -> List Int
  | .int n, rest => 0 :: n :: rest
  | .float x, rest => 1 :: x.orderKey :: rest
  | .text s, rest => 2 :: textCode s rest
  | .bool b, rest => 3 :: boolCode b rest

def accessoryCode : Accessory -> List Int -> List Int
  | .nonEmptyArray, rest => 0 :: rest
  | .nonEmptyString, rest => 1 :: rest
  | .hasProperty name, rest => 2 :: textCode name rest
  | .hasOffset key, rest => 3 :: keyCode key rest

def keywordCode : Keyword -> Int
  | .never => 2
  | .mixed => 3
  | .void => 4
  | .null => 5
  | .bool => 6
  | .int => 7
  | .float => 8
  | .string => 9
  | .object => 10
  | .callable => 11
  | .resource => 12

def flavorCode : Flavor -> Int
  | .plain => 0
  | .benevolent => 1

/-!
# Codes of types
-/

mutual

/-- The code of a type in front of further integers. -/
def codeOnto : Ty -> List Int -> List Int
  | placeholder, rest => 0 :: rest
  | error, rest => 1 :: rest
  | keyword k, rest => keywordCode k :: rest
  | unknown n, rest => 13 :: (n : Int) :: rest
  | literal v, rest => 14 :: literalCode v rest
  | range r, rest => 15 :: boundCode r.lo (boundCode r.hi rest)
  | object cls arguments, rest => 16 :: textCode cls (codeListOnto arguments rest)
  | this cls, rest => 17 :: textCode cls rest
  | array key value, rest => 18 :: codeOnto key (codeOnto value rest)
  | shape entries, rest => 19 :: codeEntriesOnto entries rest
  | union flavor members, rest => 20 :: flavorCode flavor :: codeListOnto members rest
  | inter members, rest => 21 :: codeListOnto members rest
  | accessory a, rest => 22 :: accessoryCode a rest

def codeListOnto : List Ty -> List Int -> List Int
  | [], rest => 0 :: rest
  | t :: ts, rest => 1 :: codeOnto t (codeListOnto ts rest)

def codeEntriesOnto : List (Entry Ty) -> List Int -> List Int
  | [], rest => 0 :: rest
  | ⟨key, value, optional⟩ :: es, rest =>
      1 :: keyCode key (boolCode optional (codeOnto value (codeEntriesOnto es rest)))

end

def code (t : Ty) : List Int :=
  codeOnto t []

/-!
# Sorted lists of distinct types
-/

/-- Put a type into a list sorted by code, unless it is already there. -/
def insertNew (t : Ty) (ts : List Ty) : List Ty :=
  go t.code ts
where
  go (code : List Int) : List Ty -> List Ty
    | [] => [t]
    | u :: rest =>
        if t = u then u :: rest
        else if u.code < code then u :: go code rest
        else t :: u :: rest

def distinct (ts : List Ty) : List Ty :=
  ts.foldr insertNew []

/-!
# The canonical order
-/

/-- The group of a type in the canonical order. -/
def canonicalRank : Ty -> Int
  | object _ _ => 0
  | this _ => 0
  | keyword .object => 1
  | keyword .callable => 2
  | shape _ => 3
  | array _ _ => 4
  | inter _ => 5
  | literal (.int _) => 6
  | range _ => 6
  | keyword .int => 7
  | literal (.float _) => 8
  | keyword .float => 9
  | literal (.text _) => 10
  | keyword .string => 11
  | literal (.bool _) => 12
  | keyword .bool => 13
  | accessory _ => 14
  | keyword .resource => 15
  | keyword .void => 16
  | keyword .null => 17
  | _ => 18

/-- The place of a type in its group by number; an open lower bound comes before
every number. -/
def canonicalNumber : Ty -> Option Int
  | this _ => some 1
  | literal (.int n) => some n
  | range r => r.lo
  | literal (.float x) => some x.orderKey
  | literal (.bool b) => some (if b then 1 else 0)
  | _ => some 0

/-- The place of a type in its group by text, among those of equal number. -/
def canonicalText : Ty -> String
  | object cls _ => cls
  | this cls => cls
  | literal (.text s) => s
  | _ => ""

def canonicalKey (t : Ty) : List Int :=
  t.canonicalRank ::
    boundCode t.canonicalNumber (textCode t.canonicalText t.code)

def insertCanonical (t : Ty) (ts : List Ty) : List Ty :=
  go t.canonicalKey ts
where
  go (key : List Int) : List Ty -> List Ty
    | [] => [t]
    | u :: rest =>
        if u.canonicalKey < key then u :: go key rest else t :: u :: rest

def sortCanonical (ts : List Ty) : List Ty :=
  ts.foldr insertCanonical []

end Ty
end GradualTypes
