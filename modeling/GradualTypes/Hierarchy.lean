import GradualTypes.Tristate

/-!
# Class hierarchies

A hierarchy is a list of declarations of classes and interfaces.  Names are
compared without regard to ASCII case, so declarations hold them in lower case.
A name may be declared several times; the declarations then add up, and the last
one decides whether it is a class or an interface.

Questions about a class that is not declared are answered as far as nothing is
known about it.  The declared parents may form cycles: ancestors are found by a
search that visits each name once.
-/

namespace GradualTypes

inductive ClassKind where
  | plainClass
  | interface
  | unknown
deriving DecidableEq, Repr

structure Declaration where
  name : String
  kind : ClassKind
  parents : List String
  isFinal : Bool
  isInvokable : Bool
  properties : List String
deriving DecidableEq, Repr

namespace Declaration

/-- A declaration of a name as it is written. -/
def of (name : String) (kind : ClassKind) (parents : List String)
    (isFinal isInvokable : Bool) (properties : List String) : Declaration where
  name := name.toLower
  kind := kind
  parents := parents.map String.toLower
  isFinal := isFinal
  isInvokable := isInvokable
  properties := properties

end Declaration

structure Hierarchy where
  declarations : List Declaration
deriving DecidableEq, Repr

namespace Hierarchy

def empty : Hierarchy := ⟨[]⟩

instance : Inhabited Hierarchy := ⟨empty⟩

def of (h : Hierarchy) (name : String) : List Declaration :=
  h.declarations.filter (·.name == name)

def isDeclared (h : Hierarchy) (cls : String) : Bool :=
  h.declarations.any (·.name == cls.toLower)

def parents (h : Hierarchy) (name : String) : List String :=
  (h.of name).flatMap (·.parents)

/-!
# Ancestry
-/

/-- The number of parents in declarations whose names have not been visited. -/
def pending (h : Hierarchy) (visited : List String) : Nat :=
  ((h.declarations.filter fun d => !visited.contains d.name).flatMap (·.parents)).length

theorem pending_visit (h : Hierarchy) {visited : List String} {name : String}
    (new : visited.contains name = false) :
    h.pending (name :: visited) + (h.parents name).length = h.pending visited := by
  rcases h with ⟨declarations⟩
  induction declarations with
  | nil => rfl
  | cons d rest ih =>
      simp only [pending, parents, of, List.contains_cons] at ih ⊢
      by_cases same : d.name = name
      · subst same
        simp only [List.contains_eq_mem, decide_eq_false_iff_not] at new
        simp [new] at ih ⊢
        omega
      · by_cases seen : d.name ∈ visited
        · simpa [same, seen] using ih
        · simp [same, seen] at ih ⊢
          omega

/-- The names that can be reached from a stack of names through declared
parents, added to those already visited.  The parent that was declared last is
visited first. -/
def explore (h : Hierarchy) (visited : List String) :
    List String -> List String
  | [] => visited
  | name :: rest =>
      if visited.contains name then
        explore h visited rest
      else
        explore h (name :: visited) ((h.parents name).reverse ++ rest)
termination_by stack => h.pending visited + stack.length
decreasing_by
  · simp
  · rename_i new
    have := h.pending_visit (Bool.eq_false_iff.mpr new)
    simp only [List.length_append, List.length_reverse, List.length_cons]
    omega

/-- A class and all its ancestors, each once, in lower case, in the order in which
they are visited. -/
def ancestry (h : Hierarchy) (cls : String) : List String :=
  (h.explore [] [cls.toLower]).reverse

/-- Whether `child` has `parent` among its ancestors; no class is its own
subclass. -/
def isSubclassOf (h : Hierarchy) (child parent : String) : Bool :=
  child.toLower != parent.toLower && (h.ancestry child).contains parent.toLower

/-!
# Properties of classes
-/

def kind (h : Hierarchy) (cls : String) : ClassKind :=
  match (h.of cls.toLower).getLast? with
  | some d => d.kind
  | none => .unknown

def isFinal (h : Hierarchy) (cls : String) : Bool :=
  (h.of cls.toLower).any (·.isFinal)

/-- Whether a class or one of its ancestors has a declaration with a given
feature. -/
def inherits (h : Hierarchy) (cls : String) (feature : Declaration -> Bool) : Bool :=
  (h.ancestry cls).any fun name => (h.of name).any feature

/-- Whether instances of a class have a feature that subclasses may add: certainly
if the class inherits it, and certainly not if the class is final. -/
def hasFeature (h : Hierarchy) (cls : String) (feature : Declaration -> Bool) :
    Tristate :=
  if !h.isDeclared cls then .maybe
  else if h.inherits cls feature then .yes
  else if h.isFinal cls then .no
  else .maybe

/-- Whether a class is the built-in class of function values. -/
def isClosure (cls : String) : Bool :=
  cls.toLower == "closure"

def isInvokable (h : Hierarchy) (cls : String) : Tristate :=
  if isClosure cls then .yes else h.hasFeature cls (·.isInvokable)

/-- Whether instances of a class have a property.  Property names are compared
exactly. -/
def hasProperty (h : Hierarchy) (cls name : String) : Tristate :=
  h.hasFeature cls (·.properties.contains name)

/-!
# How two classes relate
-/

inductive Kinship where
  | same
  | subclass
  | superclass
  /-- Some instance may belong to both. -/
  | overlapping
  /-- No instance belongs to both. -/
  | disjoint
deriving DecidableEq, Repr

/-- The relation of two classes.  A final class shares no instance with a class
unrelated to it, and neither do two classes that are not interfaces. -/
def kinship (h : Hierarchy) (source target : String) : Kinship :=
  if source.toLower = target.toLower then .same
  else if h.isSubclassOf source target then .subclass
  else if h.isSubclassOf target source then .superclass
  else if h.isFinal source || h.isFinal target then .disjoint
  else if h.kind source = .plainClass ∧ h.kind target = .plainClass then .disjoint
  else .overlapping

end Hierarchy
end GradualTypes
