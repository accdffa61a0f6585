import GradualTypes.Intersection

/-!
# Traversal of types

`mapChildren` maps the children of one node; `mapTree` lets a callback decide at
every node whether to go on below it.  A node whose children stay the same is
returned as it is, so that nothing is built again; a node with new children is
built by its constructor, so that unions and intersections are normalized.

Both work in any monad that can perform inquiries.
-/

namespace GradualTypes
namespace Traversal

/-- The entries of a shape with new values. -/
def withValues (entries : List (Entry Ty)) (values : List Ty) : List (Entry Ty) :=
  (entries.zip values).map fun pair => { pair.1 with value := pair.2 }

/-- A node like the given one over new children.  A benevolent union stays
benevolent. -/
def rebuild (options : Options) (t : Ty) (children : List Ty) : Inquiry Ty :=
  match t with
  | .object cls _ => Build.object cls children
  | .array _ _ =>
      match children with
      | [key, value] => Build.array key value
      | _ => pure t
  | .shape entries => Build.shape (withValues entries children)
  | .union .plain _ => Union.of options children
  | .union .benevolent _ => Union.benevolentOf options children
  | .inter _ => Intersection.of options children
  | _ => pure t

/-- A node over new children, or the node itself if they are the old ones. -/
def update (options : Options) (t : Ty) (children : List Ty) : Inquiry Ty :=
  if children = t.children then pure t else rebuild options t children

variable {m : Type -> Type} [Monad m] [MonadLiftT Inquiry m]

def mapChildren (options : Options) (f : Ty -> m Ty) (t : Ty) : m Ty := do
  let children ← t.children.mapM f
  monadLift (update options t children)

/-- Let a callback map a type from its root down.  It is given a node and the
result of going on below that node, which it may leave alone. -/
def mapTree (options : Options) (callback : Ty -> (Unit -> m Ty) -> m Ty) (t : Ty) :
    m Ty :=
  callback t fun _ => do
    let children ← t.children.attach.mapM fun child =>
      mapTree options callback child.1
    monadLift (update options t children)
termination_by t.size
decreasing_by exact Ty.size_lt_of_mem_children child.2

/-- What the callback is given at a node is to map the children in the same way. -/
theorem mapTree_eq [LawfulMonad m] (options : Options)
    (callback : Ty -> (Unit -> m Ty) -> m Ty) (t : Ty) :
    mapTree options callback t =
      callback t fun _ => mapChildren options (mapTree options callback) t := by
  rw [mapTree]
  simp [mapChildren]

/-- The union of what the members of a union are mapped to.  For a benevolent
union, members that are mapped to an error are left out, and only a failure of
all of them is one of the whole; any other type is mapped itself. -/
def mapUnion (options : Options) (transform : Ty -> m Ty) (t : Ty) : m Ty :=
  match t with
  | .union .benevolent members => do
      let results ← members.mapM transform
      monadLift (Union.of options (results.filter (· != .error)))
  | .union .plain members => do
      let results ← members.mapM transform
      monadLift (Union.of options results)
  | _ => transform t

/-- Without inquiries about the members, all that is left to do is to build the union. -/
theorem mapUnion_pure (options : Options) (g : Ty -> Ty) (flavor : Flavor) (members : List Ty) :
    mapUnion options (fun m => (pure (g m) : Inquiry Ty)) (.union flavor members) =
      Union.of options (match flavor with
        | .plain => members.map g
        | .benevolent => (members.map g).filter (· != .error)) := by
  cases flavor <;>
    · simp only [mapUnion, List.mapM_pure, pure_bind]
      rfl

end Traversal
end GradualTypes
