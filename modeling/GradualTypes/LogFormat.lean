import GradualTypes.Text.Blank

/-!
# Formats of log output
-/

namespace GradualTypes

inductive LogFormat where
  | text
  | tree
  | json
deriving DecidableEq, Repr

namespace LogFormat

/-- The format that a word names; `text` for every other word. -/
def ofWord (s : String) : LogFormat :=
  match Text.normalWord s with
  | "tree" => tree
  | "json" => json
  | _ => text

end LogFormat
end GradualTypes
