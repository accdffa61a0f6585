import GradualTypes.Build
import GradualTypes.Options

/-!
# Expansion of shapes

A shape with optional entries describes one concrete shape for every choice of
the optional entries that are present.  The concrete shapes are listed in the
order of binary counting, where the first optional entry is the lowest digit.
-/

namespace GradualTypes
namespace Shape

/-- All choices of present entries, each one made required. -/
def choices : List (Entry Ty) -> List (List (Entry Ty))
  | [] => [[]]
  | e :: rest =>
      let present := { e with optional := false }
      if e.optional then
        (choices rest).flatMap fun tail => [tail, present :: tail]
      else
        (choices rest).map (present :: ·)

/-- The concrete shapes of a type, none if it is no shape.  A shape without
optional entries, or with more choices than the limit, is left as it is.  A shape
that repeats the one before it is left out. -/
def concrete (options : Options) (t : Ty) : Inquiry (List Ty) :=
  match t with
  | .shape entries =>
      if optionalCount entries = 0 then pure [t]
      else if options.expansionLimit < Nat.pow 2 (optionalCount entries) then pure [t]
      else List.eraseReps <$> (choices entries).mapM Build.shape
  | _ => pure []

end Shape
end GradualTypes
