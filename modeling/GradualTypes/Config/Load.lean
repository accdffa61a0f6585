import GradualTypes.Config.Decode
import GradualTypes.Config.Files

/-!
# Loading configurations

A configuration is loaded from a file together with all that it is based on, from
base to base.  A base is named by a path from the directory of the file that
names it.  Loading ends, because no file may occur twice on the way and there are
finitely many.
-/

namespace GradualTypes
namespace Config

inductive LoadError where
  | unreadable (path : String) (fault : ReadFault)
  | unparsable (path : String) (fault : Json.Fault)
  /-- The way came back to a file; its canonical name. -/
  | cycle (name : String)
deriving DecidableEq, Repr

def LoadError.message : LoadError -> String
  | unreadable path _ => "failed to read config: " ++ path
  | unparsable path _ => "failed to parse config: " ++ path
  | cycle name => "config extends cycle detected at " ++ name

theorem length_unvisited_lt {files visited : List (List String)} {place : List String}
    (known : place ∈ files) (new : place ∉ visited) :
    (files.filter (· ∉ place :: visited)).length <
      (files.filter (· ∉ visited)).length := by
  have fewer : ∀ x, (decide (x ∉ place :: visited)) =
      (decide (x ≠ place) && decide (x ∉ visited)) := by
    intro x
    simp [not_or]
  simp only [fewer, ← List.filter_filter]
  apply List.length_filter_lt_length_iff_exists.mpr
  exact ⟨place, List.mem_filter.mpr ⟨known, by simpa using new⟩, by simp⟩

/-- Load from a path, given the places of the files on the way to it. -/
def loadFrom (fs : FileSystem) (visited : List (List String)) (path : String) :
    Except LoadError Config :=
  if _new : fs.place path ∈ visited then
    .error (.cycle (fs.canonical path))
  else
    match _read : fs.read path with
    | .error fault => .error (.unreadable path fault)
    | .ok source =>
        match parse source with
        | .error fault => .error (.unparsable path fault)
        | .ok config =>
            match config.base with
            | none => .ok config
            | some name => do
                let base ←
                  loadFrom fs (fs.place path :: visited) (Path.ofBase path name)
                return config.inherit base
termination_by (fs.files.filter (· ∉ visited)).length
decreasing_by exact length_unvisited_lt (fs.mem_files _read) _new

/-- Load a configuration and all that it is based on. -/
def load (fs : FileSystem) (path : String) : Except LoadError Config :=
  loadFrom fs [] path

end Config
end GradualTypes
