import GradualTypes.Config.Path

/-!
# Files

`FileSystem` is what loading needs to know of files: their contents by path, and
a canonical name of each path, whose steps are the place by which two paths to one
file are recognized.  There are finitely many places of readable files.

`FileTree` is a file system given by its files and directories.
-/

namespace GradualTypes
namespace Config

inductive ReadFault where
  | notFound
  | isDirectory
  | notDirectory
  /-- The contents are no text. -/
  | invalidData
  /-- The path holds a character that no path can hold. -/
  | invalidPath
  | nameTooLong
deriving DecidableEq, Repr

structure FileSystem where
  /-- The places of the readable files. -/
  files : List (List String)
  canonical : String -> String
  read : String -> Except ReadFault String
  mem_files : ∀ {path source}, read path = .ok source ->
    Path.steps (canonical path) ∈ files

/-- The place that a path leads to. -/
def FileSystem.place (fs : FileSystem) (path : String) : List String :=
  Path.steps (fs.canonical path)

/-- Files with their contents, and directories, each by its parts from the root.
All directories on the way to them exist too. -/
structure FileTree where
  files : List (List String × ByteArray)
  directories : List (List String)

namespace FileTree

def isDirectory (tree : FileTree) (place : List String) : Bool :=
  tree.files.any (fun file => place.isPrefixOf file.1 && place != file.1) ||
    tree.directories.any place.isPrefixOf

def contents? (tree : FileTree) (place : List String) : Option ByteArray :=
  (tree.files.find? (·.1 == place)).map (·.2)

/-- The greatest length of a file name in bytes. -/
def maxName : Nat := 255

/-- The greatest length of a path in bytes. -/
def maxPath : Nat := 4095

def follow (tree : FileTree) (place : List String) :
    List String -> Except ReadFault (List String)
  | [] => .ok place
  | part :: rest =>
      if !tree.isDirectory place then .error .notDirectory
      else if Path.isIdle part then follow tree place rest
      else if part = ".." then follow tree place.dropLast rest
      else if maxName < part.utf8ByteSize then .error .nameTooLong
      else
        let next := place ++ [part]
        if tree.isDirectory next || (tree.contents? next).isSome then
          follow tree next rest
        else
          .error .notFound

def pathOf (place : List String) : String :=
  "/" ++ Path.ofParts place

/-- The absolute path of the place that a path leads to, or the path itself if it
leads nowhere. -/
def canonical (tree : FileTree) (path : String) : String :=
  match tree.follow [] (Path.parts path) with
  | .ok place => pathOf place
  | .error _ => path

/-- The contents of the file that a path of bounded length leads to. -/
def read (tree : FileTree) (path : String) : Except ReadFault String :=
  if path.contains '\x00' then .error .invalidPath
  else if path = "" then .error .notFound
  else if maxPath < path.utf8ByteSize then .error .nameTooLong
  else
    match tree.follow [] (Path.parts path) with
    | .error fault => .error fault
    | .ok place =>
        match tree.contents? place with
        | none => .error .isDirectory
        | some bytes =>
            match String.fromUTF8? bytes with
            | none => .error .invalidData
            | some source => .ok source

/-- The places of the files. -/
def places (tree : FileTree) : List (List String) :=
  tree.files.map fun file => Path.steps (pathOf file.1)

theorem steps_canonical_mem (tree : FileTree) {path source : String}
    (h : tree.read path = .ok source) :
    Path.steps (tree.canonical path) ∈ tree.places := by
  unfold read at h
  unfold canonical
  split at h
  · cases h
  · split at h
    · cases h
    · split at h
      · cases h
      · split at h
        · cases h
        · rename_i place hplace
          rw [hplace]
          split at h
          · cases h
          · rename_i bytes hbytes
            rcases Option.map_eq_some_iff.mp hbytes with ⟨file, hfile, -⟩
            have same := List.find?_some hfile
            simp only [beq_iff_eq] at same
            exact List.mem_map.mpr ⟨file, List.mem_of_find?_eq_some hfile, by rw [same]⟩

def toFileSystem (tree : FileTree) : FileSystem where
  files := tree.places
  canonical := tree.canonical
  read := tree.read
  mem_files := tree.steps_canonical_mem

end FileTree
end Config
end GradualTypes
