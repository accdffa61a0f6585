/-!
# Settings and fixed limits

The settings a user may choose, with their defaults, and the two limits that
are built in.
-/

namespace GradualTypes

structure Options where
  /-- Strictness of an acceptance check that does not name its own. -/
  strictTypes : Bool
  /-- Most concrete shapes that one shape may be expanded into. -/
  maxShapeExpansion : Nat
  /-- Most shapes that one union merges. -/
  maxUnionShapeMerge : Nat
  /-- Most pieces that an intersection may be distributed into. -/
  maxIntersectionDistribution : Nat
  /-- Whether one accepted member of a benevolent union is enough. -/
  benevolentAcceptance : Bool
deriving DecidableEq, Repr

/-- Built-in bound on `maxShapeExpansion`, whatever is configured. -/
def shapeExpansionCeiling : Nat := 65536

/-- How deep a relation is followed before its answer is left undecided. -/
def relationDepth : Nat := 100

namespace Options

def default : Options where
  strictTypes := false
  maxShapeExpansion := 256
  maxUnionShapeMerge := 64
  maxIntersectionDistribution := 1024
  benevolentAcceptance := true

instance : Inhabited Options := ⟨Options.default⟩

def expansionLimit (options : Options) : Nat :=
  min options.maxShapeExpansion shapeExpansionCeiling

end Options
end GradualTypes
