import GradualTypes.Double.Basic
import GradualTypes.IntRange

/-!
# Types

## The types of the language

A type is a tree.  Its leaves are the built-in types named by a keyword, single
scalar values, integer intervals, references to the enclosing class and
accessories; its inner nodes are class references with template arguments,
arrays, shapes, unions and intersections.

Three leaves are not types of the language: `error` is the result of a
combination that makes no sense, `placeholder` stands for a type that has not
been filled in, and `unknown` for one of which only a number is known.

## Equality

Types are equal when their trees are.  The comparison and the hash are written
out by recursion, so that both can be computed inside proofs.
-/

namespace GradualTypes

inductive Keyword where
  | mixed
  | never
  | void
  | null
  | bool
  | int
  | float
  | string
  | object
  | callable
  | resource
deriving DecidableEq, Hashable, Repr

namespace Keyword

def name : Keyword -> String
  | mixed => "mixed"
  | never => "never"
  | void => "void"
  | null => "null"
  | bool => "bool"
  | int => "int"
  | float => "float"
  | string => "string"
  | object => "object"
  | callable => "callable"
  | resource => "resource"

end Keyword

inductive Key where
  | int (n : Int)
  | text (s : String)
deriving DecidableEq, Hashable, Repr

inductive Literal where
  | int (n : Int)
  | float (x : Double)
  | text (s : String)
  | bool (b : Bool)
deriving DecidableEq, Hashable, Repr

def Literal.base : Literal -> Keyword
  | int _ => .int
  | float _ => .float
  | text _ => .string
  | bool _ => .bool

/-- A constraint on values that says nothing else about them. -/
inductive Accessory where
  | nonEmptyArray
  | nonEmptyString
  | hasProperty (name : String)
  | hasOffset (key : Key)
deriving DecidableEq, Hashable, Repr

/-- Whether a constraint is one on arrays. -/
def Accessory.isOnArrays : Accessory -> Bool
  | nonEmptyArray => true
  | hasOffset _ => true
  | _ => false

/-- A plain union needs all its members to be accepted, a benevolent one only
some member. -/
inductive Flavor where
  | plain
  | benevolent
deriving DecidableEq, Hashable, Repr

/-- An entry of a shape: what is under a key, if the key is present. -/
structure Entry (α : Type) where
  key : Key
  value : α
  optional : Bool
deriving DecidableEq, Hashable, Repr

def Entry.mapValue {α β : Type} (f : α -> β) (e : Entry α) : Entry β :=
  ⟨e.key, f e.value, e.optional⟩

inductive Ty where
  | error
  | placeholder
  | unknown (number : Nat)
  | keyword (k : Keyword)
  | literal (v : Literal)
  | range (r : IntRange)
  | object (cls : String) (arguments : List Ty)
  /-- The type of the current instance of the enclosing class. -/
  | this (cls : String)
  | array (key value : Ty)
  /-- Arrays with exactly the listed keys, in the order of their declaration. -/
  | shape (entries : List (Entry Ty))
  | union (flavor : Flavor) (members : List Ty)
  | inter (members : List Ty)
  | accessory (a : Accessory)
deriving Inhabited

namespace Ty

abbrev mixed : Ty := keyword .mixed
abbrev never : Ty := keyword .never
abbrev null : Ty := keyword .null
abbrev bool : Ty := keyword .bool
abbrev int : Ty := keyword .int
abbrev float : Ty := keyword .float
abbrev string : Ty := keyword .string
abbrev callable : Ty := keyword .callable

/-!
# Equality of trees
-/

mutual

def same : Ty -> Ty -> Bool
  | error, error => true
  | placeholder, placeholder => true
  | unknown m, unknown n => m == n
  | keyword k, keyword l => decide (k = l)
  | literal v, literal w => decide (v = w)
  | range r, range s => decide (r = s)
  | object c as, object d bs => decide (c = d) && sameList as bs
  | this c, this d => decide (c = d)
  | array k v, array l w => same k l && same v w
  | shape es, shape fs => sameEntries es fs
  | union f as, union g bs => decide (f = g) && sameList as bs
  | inter as, inter bs => sameList as bs
  | accessory a, accessory b => decide (a = b)
  | _, _ => false

def sameList : List Ty -> List Ty -> Bool
  | [], [] => true
  | a :: as, b :: bs => same a b && sameList as bs
  | _, _ => false

def sameEntries : List (Entry Ty) -> List (Entry Ty) -> Bool
  | [], [] => true
  | ⟨k, v, o⟩ :: es, ⟨l, w, p⟩ :: fs =>
      decide (k = l) && o == p && same v w && sameEntries es fs
  | _, _ => false

end

mutual

theorem same_refl : (a : Ty) -> same a a = true
  | error => rfl
  | placeholder => rfl
  | unknown m => by simp [same]
  | keyword k => by simp [same]
  | literal v => by simp [same]
  | range r => by simp [same]
  | object c as => by simp [same, sameList_refl as]
  | this c => by simp [same]
  | array k v => by simp [same, same_refl k, same_refl v]
  | shape es => by simp [same, sameEntries_refl es]
  | union f as => by simp [same, sameList_refl as]
  | inter as => by simp [same, sameList_refl as]
  | accessory a => by simp [same]

theorem sameList_refl : (as : List Ty) -> sameList as as = true
  | [] => rfl
  | a :: as => by simp [sameList, same_refl a, sameList_refl as]

theorem sameEntries_refl : (es : List (Entry Ty)) -> sameEntries es es = true
  | [] => rfl
  | ⟨k, v, o⟩ :: es => by
      simp [sameEntries, same_refl v, sameEntries_refl es]

end

mutual

theorem eq_of_same : (a b : Ty) -> same a b = true -> a = b
  | error, b, h => by cases b <;> simp_all [same]
  | placeholder, b, h => by cases b <;> simp_all [same]
  | unknown m, b, h => by cases b <;> simp_all [same]
  | keyword k, b, h => by cases b <;> simp_all [same]
  | literal v, b, h => by cases b <;> simp_all [same]
  | range r, b, h => by cases b <;> simp_all [same]
  | object c as, b, h => by
      cases b with
      | object d bs =>
          simp only [same, Bool.and_eq_true, decide_eq_true_eq] at h
          rw [h.1, eq_of_sameList as bs h.2]
      | _ => simp [same] at h
  | this c, b, h => by cases b <;> simp_all [same]
  | array k v, b, h => by
      cases b with
      | array l w =>
          simp only [same, Bool.and_eq_true] at h
          rw [eq_of_same k l h.1, eq_of_same v w h.2]
      | _ => simp [same] at h
  | shape es, b, h => by
      cases b with
      | shape fs => rw [eq_of_sameEntries es fs h]
      | _ => simp [same] at h
  | union f as, b, h => by
      cases b with
      | union g bs =>
          simp only [same, Bool.and_eq_true, decide_eq_true_eq] at h
          rw [h.1, eq_of_sameList as bs h.2]
      | _ => simp [same] at h
  | inter as, b, h => by
      cases b with
      | inter bs => rw [eq_of_sameList as bs h]
      | _ => simp [same] at h
  | accessory a, b, h => by cases b <;> simp_all [same]

theorem eq_of_sameList : (as bs : List Ty) -> sameList as bs = true -> as = bs
  | [], bs, h => by cases bs <;> simp_all [sameList]
  | a :: as, bs, h => by
      cases bs with
      | nil => simp [sameList] at h
      | cons b bs =>
          simp only [sameList, Bool.and_eq_true] at h
          rw [eq_of_same a b h.1, eq_of_sameList as bs h.2]

theorem eq_of_sameEntries :
    (es fs : List (Entry Ty)) -> sameEntries es fs = true -> es = fs
  | [], fs, h => by cases fs <;> simp_all [sameEntries]
  | ⟨k, v, o⟩ :: es, fs, h => by
      cases fs with
      | nil => simp [sameEntries] at h
      | cons f fs =>
          rcases f with ⟨l, w, p⟩
          simp only [sameEntries, Bool.and_eq_true, decide_eq_true_eq, beq_iff_eq] at h
          rw [h.1.1.1, h.1.1.2, eq_of_same v w h.1.2, eq_of_sameEntries es fs h.2]

end

theorem same_iff {a b : Ty} : same a b = true ↔ a = b :=
  ⟨eq_of_same a b, fun h => h ▸ same_refl a⟩

instance : DecidableEq Ty := fun _ _ => decidable_of_iff _ same_iff

/-!
# Hashing
-/

mutual

def hashCode : Ty -> UInt64
  | error => 1
  | placeholder => 2
  | unknown n => mixHash 3 (hash n)
  | keyword k => mixHash 4 (hash k)
  | literal v => mixHash 5 (hash v)
  | range r => mixHash 6 (hash r)
  | object c as => mixHash 7 (mixHash (hash c) (hashList as))
  | this c => mixHash 8 (hash c)
  | array k v => mixHash 9 (mixHash (hashCode k) (hashCode v))
  | shape es => mixHash 10 (hashEntries es)
  | union f as => mixHash 11 (mixHash (hash f) (hashList as))
  | inter as => mixHash 12 (hashList as)
  | accessory a => mixHash 13 (hash a)

def hashList : List Ty -> UInt64
  | [] => 14
  | a :: as => mixHash (hashCode a) (hashList as)

def hashEntries : List (Entry Ty) -> UInt64
  | [] => 15
  | ⟨k, v, o⟩ :: es =>
      mixHash (mixHash (hash k) (hash o)) (mixHash (hashCode v) (hashEntries es))

end

instance : Hashable Ty := ⟨hashCode⟩

end Ty
end GradualTypes
