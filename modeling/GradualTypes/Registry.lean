import GradualTypes.Session
import GradualTypes.Store
import GradualTypes.Ty.Measure

/-!
# Registries

A session knows the types that were announced to it as trees.  A registry enters
them into a store, one after another: the node of a type is made of the handles
that its children have got before.  A type with a child that has no handle is
not entered.
-/

namespace GradualTypes

/-!
# Layers
-/

/-- The root of a type over its children. -/
inductive Layer (α : Type) where
  | keyword (k : Keyword)
  | error
  | literal (v : Literal)
  | range (r : IntRange)
  | object (cls : String) (arguments : List α)
  | this (cls : String)
  | array (key value : α)
  | shape (entries : List (Entry α))
  | union (flavor : Flavor) (members : List α)
  | inter (members : List α)
  | accessory (a : Accessory)

namespace Layer

variable {α β : Type}

def parts : Layer α -> List α
  | object _ arguments => arguments
  | array key value => [key, value]
  | shape entries => entries.map (·.value)
  | union _ members => members
  | inter members => members
  | _ => []

def map (f : α -> β) : Layer α -> Layer β
  | keyword k => keyword k
  | error => error
  | literal v => literal v
  | range r => range r
  | object cls arguments => object cls (arguments.map f)
  | this cls => this cls
  | array key value => array (f key) (f value)
  | shape entries => shape (entries.map (·.mapValue f))
  | union flavor members => union flavor (members.map f)
  | inter members => inter (members.map f)
  | accessory a => accessory a

end Layer

namespace Ty

/-- The root of a type that has a node.  The placeholder and the types of which
only a number is known have none. -/
def layer? : Ty -> Option (Layer Ty)
  | error => some .error
  | placeholder => none
  | unknown _ => none
  | keyword k => some (.keyword k)
  | literal v => some (.literal v)
  | range r => some (.range r)
  | object cls arguments => some (.object cls arguments)
  | this cls => some (.this cls)
  | array key value => some (.array key value)
  | shape entries => some (.shape entries)
  | union flavor members => some (.union flavor members)
  | inter members => some (.inter members)
  | accessory a => some (.accessory a)

def fixedHandle? : Ty -> Option Handle
  | error => some .error
  | placeholder => some .placeholder
  | keyword k => some (.keyword k)
  | _ => none

end Ty

namespace Store

/-- Intern a root, together with the list or the shape in it. -/
def internLayer (hash : Node -> UInt64) (st : Store) : Layer Handle -> Handle × Store
  | .keyword k => st.intern hash (.keyword k)
  | .error => st.intern hash .error
  | .literal v => st.intern hash (.literal v)
  | .range r => st.intern hash (.range r)
  | .object cls arguments =>
      let (l, st) := st.internList arguments
      st.intern hash (.object cls l)
  | .this cls => st.intern hash (.this cls)
  | .array key value => st.intern hash (.array key value)
  | .shape entries =>
      let (s, st) := st.internShape entries
      st.intern hash (.shape s)
  | .union flavor members =>
      let (l, st) := st.internList members
      st.intern hash (.union flavor l)
  | .inter members =>
      let (l, st) := st.internList members
      st.intern hash (.inter l)
  | .accessory a => st.intern hash (.accessory a)

/-- A node with its list or its shape written out. -/
def layer (st : Store) : Node -> Layer Handle
  | .keyword k => .keyword k
  | .error => .error
  | .literal v => .literal v
  | .range r => .range r
  | .object cls arguments => .object cls (st.list arguments)
  | .this cls => .this cls
  | .array key value => .array key value
  | .shape entries => .shape (st.shape entries)
  | .union flavor members => .union flavor (st.list members)
  | .inter members => .inter (st.list members)
  | .accessory a => .accessory a

/-- The handles of the children of a node. -/
def children (st : Store) (d : Node) : List Handle :=
  (st.layer d).parts

end Store

structure Registry where
  store : Store
  /-- The entered types with the handles they have got, in the order of entry. -/
  entries : List (Ty × Handle)

namespace Registry

def new : Registry where
  store := .new
  entries := []

def handle? (r : Registry) (t : Ty) : Option Handle :=
  match t.fixedHandle? with
  | some x => some x
  | none => r.entries.lookup t

def knows (r : Registry) (t : Ty) : Bool :=
  (r.handle? t).isSome

def handle (r : Registry) (t : Ty) : Handle :=
  (r.handle? t).getD .placeholder

def enter (hash : Node -> UInt64) (r : Registry) (t : Ty) : Registry :=
  match t.layer? with
  | none => r
  | some layer =>
      if layer.parts.all r.knows then
        let (x, store) := r.store.internLayer hash (layer.map r.handle)
        { store, entries := r.entries ++ [(t, x)] }
      else
        r

def enterAll (hash : Node -> UInt64) (r : Registry) (types : List Ty) : Registry :=
  types.foldl (enter hash) r

end Registry

/-- The types of a session in a store, given how nodes are hashed. -/
def Session.registry (hash : Node -> UInt64) (σ : Session) : Registry :=
  Registry.new.enterAll hash σ.types.items.toList

end GradualTypes
