import GradualTypes.Shards
import GradualTypes.Ty.Basic

/-!
# Stores

A store keeps types as nodes.  A node is the root of a type, and it refers to the
types below it by their handles; nodes of any number of children refer to a list
or a shape of handles, which is stored in a table of its own.  Equal nodes are
stored once, so equal types have equal handles.

The handles below 100 are fixed: zero is that of the placeholder, and the next
ones are those of the error and the keywords.  The others follow in the order of
tickets.  Texts are kept as they are.
-/

namespace GradualTypes

structure Handle where
  number : UInt32
deriving DecidableEq, Hashable, Repr

structure ListHandle where
  number : UInt32
deriving DecidableEq, Hashable, Repr

structure ShapeHandle where
  number : UInt32
deriving DecidableEq, Hashable, Repr

inductive Node where
  | keyword (k : Keyword)
  | error
  | literal (v : Literal)
  | range (r : IntRange)
  | object (cls : String) (arguments : ListHandle)
  | this (cls : String)
  | array (key value : Handle)
  | shape (entries : ShapeHandle)
  | union (flavor : Flavor) (members : ListHandle)
  | inter (members : ListHandle)
  | accessory (a : Accessory)
deriving DecidableEq, Hashable, Repr

namespace Handle

def placeholder : Handle := ⟨0⟩

def error : Handle := ⟨1⟩

def keyword : Keyword -> Handle
  | .never => ⟨2⟩
  | .mixed => ⟨3⟩
  | .void => ⟨4⟩
  | .null => ⟨5⟩
  | .bool => ⟨6⟩
  | .int => ⟨7⟩
  | .float => ⟨8⟩
  | .string => ⟨9⟩
  | .object => ⟨10⟩
  | .callable => ⟨11⟩
  | .resource => ⟨12⟩

/-- The first number of a handle that is not fixed. -/
def firstFree : UInt32 := 100

def ofTicket (ticket : UInt32) : Handle :=
  ⟨firstFree + ticket⟩

/-- The node of a fixed handle.  The numbers up to 100 that no type has are left
without a node. -/
def fixedNode? (x : Handle) : Option Node :=
  match x.number.toNat with
  | 0 | 1 => some .error
  | 2 => some (.keyword .never)
  | 3 => some (.keyword .mixed)
  | 4 => some (.keyword .void)
  | 5 => some (.keyword .null)
  | 6 => some (.keyword .bool)
  | 7 => some (.keyword .int)
  | 8 => some (.keyword .float)
  | 9 => some (.keyword .string)
  | 10 => some (.keyword .object)
  | 11 => some (.keyword .callable)
  | 12 => some (.keyword .resource)
  | _ => none

end Handle

def Node.fixedHandle? : Node -> Option Handle
  | .keyword k => some (.keyword k)
  | .error => some .error
  | _ => none

structure Store where
  nodes : Shards Node
  /-- The lists of handles, of which the empty one is the first. -/
  lists : Numbering (List Handle)
  shapes : Numbering (List (Entry Handle))

namespace Store

def new : Store where
  nodes := .empty
  lists := Numbering.empty.enter []
  shapes := .empty

instance : Inhabited Store := ⟨new⟩

/-- The handle of a node, given how nodes are hashed.  A node that finds no room
gets the handle of the error. -/
def intern (hash : Node -> UInt64) (st : Store) (d : Node) : Handle × Store :=
  match d.fixedHandle? with
  | some x => (x, st)
  | none =>
      match st.nodes.enter hash d with
      | (some ticket, nodes) => (.ofTicket ticket, { st with nodes })
      | (none, nodes) => (.error, { st with nodes })

def lookup (st : Store) (x : Handle) : Option Node :=
  if x.number < Handle.firstFree then x.fixedNode?
  else st.nodes.item? (x.number - Handle.firstFree)

def internList (st : Store) (xs : List Handle) : ListHandle × Store :=
  if xs.isEmpty then
    (⟨0⟩, st)
  else
    let (n, lists) := st.lists.numberOf xs
    (⟨.ofNat n⟩, { st with lists })

/-- The list with a handle; a handle of no list is read as the empty one. -/
def list (st : Store) (l : ListHandle) : List Handle :=
  (st.lists.item? l.number.toNat).getD []

def internShape (st : Store) (entries : List (Entry Handle)) : ShapeHandle × Store :=
  let (n, shapes) := st.shapes.numberOf entries
  (⟨.ofNat n⟩, { st with shapes })

def shape (st : Store) (s : ShapeHandle) : List (Entry Handle) :=
  (st.shapes.item? s.number.toNat).getD []

end Store
end GradualTypes
