import GradualTypes.Double.Text
import GradualTypes.Text.Quoted
import GradualTypes.Ty.Shape

/-!
# The text of a type

A type is written in the syntax of annotations: `int<min, 3>`,
`array<int>&nonEmpty`, and a shape as its entries in braces.  The level says how
much of a literal is shown.  A benevolent union is a plain one in parentheses.
Below a fixed depth the text is cut off.
-/

namespace GradualTypes

inductive Detail where
  /-- Literals are shown as their base type and shapes as `array`. -/
  | typeOnly
  /-- Literals are shown, with doubles rounded for reading. -/
  | value
  /-- Doubles are shown in full. -/
  | precise
  /-- As `precise`; for keys of caches. -/
  | cache
deriving DecidableEq, Repr

namespace Render

def depth : Nat := 33

def literal (detail : Detail) (v : Literal) : String :=
  match detail, v with
  | .typeOnly, v => v.base.name
  | _, .int n => toString n
  | .value, .float x => x.rounded
  | _, .float x => x.literal
  | _, .text s => Text.quote s
  | _, .bool b => if b then "true" else "false"

def bound (open' : String) : Option Int -> String
  | some n => toString n
  | none => open'

def range (r : IntRange) : String :=
  "int<" ++ bound "min" r.lo ++ ", " ++ bound "max" r.hi ++ ">"

/-- A key before a colon; a text that is no identifier is quoted. -/
def key : Key -> String
  | .int n => toString n
  | .text s => if Text.isIdentifier s then s else Text.quote s

/-- A key on its own; every text is quoted. -/
def offset : Key -> String
  | .int n => toString n
  | .text s => Text.quote s

def accessory : Accessory -> String
  | .nonEmptyArray => "nonEmpty"
  | .nonEmptyString => "non-empty"
  | .hasProperty name => "hasProperty(" ++ name ++ ")"
  | .hasOffset k => "hasOffset(" ++ offset k ++ ")"

def parenthesized (text : String) : String :=
  "(" ++ text ++ ")"

/-- The first occurrences of the texts in a list. -/
def firstOccurrences (texts : List String) : List String :=
  texts.foldl (fun seen text => if seen.contains text then seen else seen ++ [text]) []

/-- One entry of a shape, given how its value is written.  The entries of a list
are written without keys. -/
def entry (write : Ty -> String) (isList : Bool) (e : Entry Ty) : String :=
  let value := write e.value
  if isList then value
  else key e.key ++ (if e.optional then "?" else "") ++ ": " ++ value

def shape (write : Ty -> String) (entries : List (Entry Ty)) : String :=
  let parts := entries.map (entry write (Shape.isList entries))
  "array\x7b" ++ String.intercalate ", " parts ++ "\x7d"

/-- The members of a union.  Members of equal text are written once. -/
def union (write : Ty -> String) (members : List Ty) : String :=
  let parts := members.map fun t =>
    match t with
    | .inter _ => parenthesized (write t)
    | _ => write t
  String.intercalate "|" (firstOccurrences parts)

def inter (write : Ty -> String) (members : List Ty) : String :=
  let parts := members.map fun t =>
    match t with
    | .union .plain _ => parenthesized (write t)
    | _ => write t
  String.intercalate "&" parts

def array (write : Ty -> String) (k v : Ty) : String :=
  if k = .mixed then
    if v = .mixed then "array" else "array<" ++ write v ++ ">"
  else
    "array<" ++ write k ++ ", " ++ write v ++ ">"

def object (write : Ty -> String) (cls : String) (arguments : List Ty) : String :=
  if arguments.isEmpty then cls
  else cls ++ "<" ++ String.intercalate ", " (arguments.map write) ++ ">"

/-- The text of a type with the given number of levels written out. -/
def upTo (detail : Detail) : Nat -> Ty -> String
  | 0, _ => "..."
  | levels + 1, t =>
      let write := upTo detail levels
      match t with
      | .error => "*ERROR*"
      | .placeholder => "*ERROR*"
      | .unknown n => "Type(" ++ toString n ++ ")"
      | .keyword k => k.name
      | .literal v => literal detail v
      | .range r => range r
      | .object cls arguments => object write cls arguments
      | .this cls => "$this(" ++ cls ++ ")"
      | .array k v => array write k v
      | .shape entries => if detail = .typeOnly then "array" else shape write entries
      | .union .plain members => union write members
      | .union .benevolent members => parenthesized (union write members)
      | .inter members => inter write members
      | .accessory a => accessory a

end Render

def Ty.render (detail : Detail) (t : Ty) : String :=
  Render.upTo detail Render.depth t

end GradualTypes
