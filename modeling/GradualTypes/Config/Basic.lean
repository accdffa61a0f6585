import GradualTypes.Options

/-!
# Configurations

A configuration sets some of the settings, and may name another configuration
that it is based on.  What it leaves unset is taken from its base, and in the end
from the defaults.
-/

namespace GradualTypes

structure Config where
  /-- The configuration that this one is based on. -/
  base : Option String
  strictTypes : Option Bool
  maxShapeExpansion : Option Nat
  maxUnionShapeMerge : Option Nat
  maxIntersectionDistribution : Option Nat
  benevolentAcceptance : Option Bool
deriving DecidableEq, Repr

namespace Config

def empty : Config where
  base := none
  strictTypes := none
  maxShapeExpansion := none
  maxUnionShapeMerge := none
  maxIntersectionDistribution := none
  benevolentAcceptance := none

instance : Inhabited Config := ⟨empty⟩

/-- Take what is unset from a base. -/
def inherit (config base : Config) : Config where
  base := none
  strictTypes := config.strictTypes.or base.strictTypes
  maxShapeExpansion := config.maxShapeExpansion.or base.maxShapeExpansion
  maxUnionShapeMerge := config.maxUnionShapeMerge.or base.maxUnionShapeMerge
  maxIntersectionDistribution :=
    config.maxIntersectionDistribution.or base.maxIntersectionDistribution
  benevolentAcceptance := config.benevolentAcceptance.or base.benevolentAcceptance

inductive Invalid where
  | noShapeExpansion
  | shapeExpansionOver (n : Nat)
  | noIntersectionDistribution
deriving DecidableEq, Repr

def Invalid.message : Invalid -> String
  | noShapeExpansion => "maxShapeExpansion must be at least 1"
  | shapeExpansionOver n =>
      "maxShapeExpansion must be at most " ++ toString shapeExpansionCeiling ++
        ", got " ++ toString n
  | noIntersectionDistribution => "maxIntersectionDistribution must be at least 1"

/-- The settings with everything unset taken from the defaults, unchecked. -/
def withDefaults (config : Config) : Options :=
  let defaults := Options.default
  { strictTypes := config.strictTypes.getD defaults.strictTypes
    maxShapeExpansion := config.maxShapeExpansion.getD defaults.maxShapeExpansion
    maxUnionShapeMerge := config.maxUnionShapeMerge.getD defaults.maxUnionShapeMerge
    maxIntersectionDistribution :=
      config.maxIntersectionDistribution.getD defaults.maxIntersectionDistribution
    benevolentAcceptance :=
      config.benevolentAcceptance.getD defaults.benevolentAcceptance }

def resolve (config : Config) : Except Invalid Options :=
  let options := config.withDefaults
  if options.maxShapeExpansion = 0 then
    .error .noShapeExpansion
  else if shapeExpansionCeiling < options.maxShapeExpansion then
    .error (.shapeExpansionOver options.maxShapeExpansion)
  else if options.maxIntersectionDistribution = 0 then
    .error .noIntersectionDistribution
  else
    .ok options

end Config
end GradualTypes
