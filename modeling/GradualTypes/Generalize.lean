import GradualTypes.Traversal

/-!
# Generalization

Literals, intervals and shapes are widened to types that do not tell single
values or keys.  The precision says how much is kept.
-/

namespace GradualTypes

inductive Precision where
  /-- Literals become their base type, and intervals become `int`. -/
  | lessSpecific
  /-- The sign of integers and the fact that texts and shapes are not empty are
  kept. -/
  | moreSpecific
  /-- Literals become their base type, but shapes keep their keys. -/
  | templateArgument
deriving DecidableEq, Repr

namespace Generalize

def signRange (n : Int) : IntRange :=
  if 0 < n then ⟨some 1, none⟩
  else if n < 0 then ⟨none, some (-1)⟩
  else ⟨some 0, none⟩

def literal (options : Options) (precision : Precision) (v : Literal) : Inquiry Ty :=
  match precision, v with
  | .moreSpecific, .int n => Build.range (signRange n)
  | .moreSpecific, .text s =>
      if s = "" then
        pure .string
      else do
        let constraint ← Build.accessory .nonEmptyString
        Intersection.of options [.string, constraint]
  | _, v => pure (.keyword v.base)

/-- The union of the keys of a shape and the union of its values; both are
`never` for the empty shape. -/
def keyAndValue (options : Options) (entries : List (Entry Ty)) :
    Inquiry (Ty × Ty) := do
  if entries.isEmpty then
    return (.never, .never)
  else
    let keys ← entries.mapM fun e => Build.key e.key
    let key ← Union.of options keys
    let value ← Union.of options (Ty.entryValues entries)
    return (key, value)

def shape (options : Options) (precision : Precision) (go : Ty -> Inquiry Ty)
    (entries : List (Entry Ty)) : Inquiry Ty := do
  let (key, value) ← keyAndValue options entries
  let key ← go key
  let value ← go value
  let array ← Build.array key value
  if precision = .moreSpecific ∧ Shape.hasRequired entries then
    let constraint ← Build.accessory .nonEmptyArray
    Intersection.of options [array, constraint]
  else
    return array

/-- What becomes of one node, given how to go on below it and how to generalize
the parts of a shape. -/
def node (options : Options) (precision : Precision) (go : Ty -> Inquiry Ty) (t : Ty)
    (descend : Unit -> Inquiry Ty) : Inquiry Ty :=
  match t with
  | .literal v => literal options precision v
  | .range _ => if precision = .lessSpecific then pure .int else descend ()
  | .shape entries =>
      if entries.isEmpty then pure t
      else if precision = .templateArgument then descend ()
      else shape options precision go entries
  | _ => descend ()

/-- Generalize a type in which shapes are nested less than the given depth. -/
def upTo (options : Options) (precision : Precision) : Nat -> Ty -> Inquiry Ty
  | 0, t => pure t
  | depth + 1, t =>
      Traversal.mapTree options (node options precision (upTo options precision depth)) t

end Generalize

/-- Generalize a type.  Shapes are nested at most as deep as the type is high. -/
def generalize (options : Options) (precision : Precision) (t : Ty) : Inquiry Ty :=
  Generalize.upTo options precision (t.height + 1) t

end GradualTypes
