/-!
# Paths

Operations on the text of slash-separated paths.  A part of a path is what stands
between two slashes; empty parts and single dots do not lead anywhere.
-/

namespace GradualTypes
namespace Config
namespace Path

def parts (path : String) : List String :=
  (path.toList.splitOn '/').map String.ofList

def ofParts (parts : List String) : String :=
  String.intercalate "/" parts

def isIdle (part : String) : Bool :=
  part == "" || part == "."

/-- The parts of a path that lead somewhere. -/
def names (path : String) : List String :=
  (parts path).filter fun part => !isIdle part

def isAbsolute (path : String) : Bool :=
  path.toList.head? == some '/'

/-- Where a path starts: at the root or in the current directory, with or without a
dot for it. -/
def start (path : String) : String :=
  if isAbsolute path then "/"
  else if (parts path).head? == some "." then "."
  else ""

/-- The components of a path.  Paths with the same steps are the same path, written
in two ways. -/
def steps (path : String) : List String :=
  start path :: names path

def trimEnd (parts : List String) : List String :=
  (parts.reverse.dropWhile isIdle).reverse

/-- The directory in the path of a file. -/
def parent (path : String) : String :=
  match trimEnd (trimEnd (parts path)).dropLast with
  | [] => start path
  | kept => ofParts kept

/-- The last part of a path, unless it leads upwards. -/
def fileName? (path : String) : Option String :=
  (trimEnd (parts path)).getLast?.filter (· != "..")

/-- Whether a file name has a dot that is not its first character. -/
def hasExtension (name : String) : Bool :=
  (name.toList.drop 1).contains '.'

/-- Give a path the extension `json`, unless its file name has an extension. -/
def withExtension (path : String) : String :=
  match fileName? path with
  | none => path
  | some name =>
      if hasExtension name then path else ofParts (trimEnd (parts path)) ++ ".json"

def join (directory path : String) : String :=
  if isAbsolute path then path
  else if directory.toList.getLast?.all (· == '/') then directory ++ path
  else directory ++ "/" ++ path

/-- The path of a configuration that another one, at the given path, is based
on. -/
def ofBase (current name : String) : String :=
  join (parent current) (withExtension name)

end Path
end Config
end GradualTypes
