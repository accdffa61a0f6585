import GradualTypes.Inquiry
import GradualTypes.Ty.Shape

/-!
# Building types

The constructors of all types except unions and intersections.  Each one builds
the simplest type with the intended values and announces it together with the
texts in it: a class reference, for instance, announces the class name.
-/

namespace GradualTypes
namespace Build

open Inquiry

def int (n : Int) : Inquiry Ty :=
  built (.literal (.int n))

def float (x : Double) : Inquiry Ty :=
  built (.literal (.float x))

def text (s : String) : Inquiry Ty := do
  Inquiry.text s
  built (.literal (.text s))

def bool (b : Bool) : Inquiry Ty :=
  built (.literal (.bool b))

/-- The integers of an interval.  An inverted interval is `never`, one without
bounds is `int`, and one with a single integer is the literal. -/
def range (r : IntRange) : Inquiry Ty :=
  if r.isEmpty then
    pure .never
  else
    match r.lo, r.hi with
    | none, none => pure .int
    | some lo, some hi => if lo = hi then int lo else built (.range r)
    | _, _ => built (.range r)

def object (cls : String) (arguments : List Ty) : Inquiry Ty := do
  Inquiry.text cls
  built (.object cls arguments)

def this (cls : String) : Inquiry Ty := do
  Inquiry.text cls
  built (.this cls)

/-- An array type; an error inside it is an error. -/
def array (key value : Ty) : Inquiry Ty :=
  if key = .error ∨ value = .error then pure .error
  else built (.array key value)

/-- A shape with the given entries; an error inside it is an error.  A repeated
key keeps its first place and takes its last entry. -/
def shape (entries : List (Entry Ty)) : Inquiry Ty :=
  if entries.any (·.value == .error) then pure .error
  else built (.shape (Shape.ofList entries))

def accessory (a : Accessory) : Inquiry Ty :=
  built (.accessory a)

def hasProperty (name : String) : Inquiry Ty := do
  Inquiry.text name
  accessory (.hasProperty name)

/-- A text used as the key of an array element. -/
def textKey (s : String) : Inquiry Key := do
  Inquiry.text s
  pure (.text s)

/-- The type of a single key. -/
def key : Key -> Inquiry Ty
  | .int n => int n
  | .text s => text s

/-- A plain union as a benevolent one; any other type is returned as it is. -/
def markBenevolent : Ty -> Inquiry Ty
  | .union .plain members => built (.union .benevolent members)
  | t => pure t

end Build
end GradualTypes
