import GradualTypes.Proofs.ArrangedDistribution
import GradualTypes.Proofs.Constructed

/-!
# Constructor expressions

An expression says which constructors are called, one on the results of others.  The members of
a union or an intersection may be put in order by an arrangement; with the order of codes, the
constructors are those of the library.

An expression is free of an order if this is so at each union and each intersection on the way.
Then it has the same type under every arrangement.
-/

namespace GradualTypes

open Inquiry
open GradualTypes.Subtype (exact)
open GradualTypes.Ty (Formed)

variable {h : Hierarchy} {options : Options} {a : Arrangement} {t : Ty}

namespace Call

/-- A call in which members are put in order by an arrangement. -/
def inquiryBy (a : Arrangement) (options : Options) : Call -> Inquiry Ty
  | union members => Union.ofBy a options members
  | benevolent members => Union.benevolentOfBy a options members
  | inter members => Intersection.ofBy a options members
  | c => c.inquiry options

theorem inquiryBy_byCode (options : Options) : inquiryBy .byCode options = inquiry options := by
  funext c
  cases c with
  | union members => exact Union.ofBy_byCode options members
  | benevolent members => exact Intersection.gatherBy_byCode options .benevolent members
  | inter members => exact Intersection.ofBy_byCode options members
  | _ => rfl

/-- A call that does not depend on the order of members. -/
def IsOrderFree (h : Hierarchy) (options : Options) : Call -> Prop
  | union members => Union.JoinsFreely h options members
  | benevolent members => Union.JoinsFreely h options members
  | inter members => Intersection.IsOrderFree h options members
  | _ => True

theorem isOrderFree_of_leaf {c : Call} (hleaf : c.arguments = []) : c.IsOrderFree h options := by
  cases c with
  | union members => simp_all [arguments, IsOrderFree, Union.JoinsFreely, Union.IsOrderFree]
  | benevolent members => simp_all [arguments, IsOrderFree, Union.JoinsFreely, Union.IsOrderFree]
  | inter members => simp_all [arguments, IsOrderFree, Intersection.IsOrderFree]
  | _ => trivial

theorem value_inquiryBy (a : Arrangement) (hfinal : h.LeavesClosureFinal) {c : Call}
    (hformed : ∀ t ∈ c.arguments, Formed (Session.exactly h) t)
    (hcomplete : ∀ t ∈ c.arguments, Ty.IsComplete t) (hfree : c.IsOrderFree h options) :
    (c.inquiryBy a options).value (exact h) = (c.inquiry options).value (exact h) := by
  cases c with
  | union members => exact Union.value_ofBy a hfinal hformed hfree
  | benevolent members => exact Union.value_benevolentOfBy a hfinal hformed hfree
  | inter members => exact Intersection.value_ofBy hformed hcomplete a hfinal hfree
  | _ => rfl

end Call

/-!
# Expressions
-/

inductive Expr where
  | leaf (c : Call) (hleaf : c.arguments = []) (hnone : c ≠ .placeholder)
  | object (cls : String) (arguments : List Expr)
  | array (key value : Expr)
  | shape (entries : List (Entry Expr))
  | union (members : List Expr)
  | benevolent (members : List Expr)
  | inter (members : List Expr)

namespace Expr

/-- A property that passes from the parts of an expression to the whole. -/
structure IsHereditary (P : Expr -> Prop) : Prop where
  leaf : ∀ c hleaf hnone, P (.leaf c hleaf hnone)
  object : ∀ cls arguments, (∀ e ∈ arguments, P e) -> P (.object cls arguments)
  array : ∀ key value, P key -> P value -> P (.array key value)
  shape : ∀ entries : List (Entry Expr), (∀ d ∈ entries, P d.value) -> P (.shape entries)
  union : ∀ members, (∀ e ∈ members, P e) -> P (.union members)
  benevolent : ∀ members, (∀ e ∈ members, P e) -> P (.benevolent members)
  inter : ∀ members, (∀ e ∈ members, P e) -> P (.inter members)

mutual

theorem IsHereditary.holds {P : Expr -> Prop} (hP : IsHereditary P) : ∀ e : Expr, P e
  | .leaf c hleaf hnone => hP.leaf c hleaf hnone
  | .object cls arguments => hP.object cls arguments (hP.holdsAll arguments)
  | .array key value => hP.array key value (hP.holds key) (hP.holds value)
  | .shape entries => hP.shape entries (hP.holdsEntries entries)
  | .union members => hP.union members (hP.holdsAll members)
  | .benevolent members => hP.benevolent members (hP.holdsAll members)
  | .inter members => hP.inter members (hP.holdsAll members)

theorem IsHereditary.holdsAll {P : Expr -> Prop} (hP : IsHereditary P) :
    ∀ es : List Expr, ∀ e ∈ es, P e
  | [] => by simp
  | e :: rest => List.forall_mem_cons.mpr ⟨hP.holds e, hP.holdsAll rest⟩

theorem IsHereditary.holdsEntries {P : Expr -> Prop} (hP : IsHereditary P) :
    ∀ entries : List (Entry Expr), ∀ d ∈ entries, P d.value
  | [] => by simp
  | ⟨_, e, _⟩ :: rest => List.forall_mem_cons.mpr ⟨hP.holds e, hP.holdsEntries rest⟩

end

mutual

/-- Evaluate an expression, given what a call does. -/
def eval (make : Call -> Inquiry Ty) : Expr -> Inquiry Ty
  | leaf c _ _ => make c
  | object cls arguments => do make (.object cls (← evalAll make arguments))
  | array key value => do make (.array (← eval make key) (← eval make value))
  | shape entries => do make (.shape (← evalEntries make entries))
  | union members => do make (.union (← evalAll make members))
  | benevolent members => do make (.benevolent (← evalAll make members))
  | inter members => do make (.inter (← evalAll make members))

def evalAll (make : Call -> Inquiry Ty) : List Expr -> Inquiry (List Ty)
  | [] => pure []
  | e :: rest => do return (← eval make e) :: (← evalAll make rest)

def evalEntries (make : Call -> Inquiry Ty) : List (Entry Expr) -> Inquiry (List (Entry Ty))
  | [] => pure []
  | ⟨key, e, optional⟩ :: rest => do
      return ⟨key, ← eval make e, optional⟩ :: (← evalEntries make rest)

end

/-- The type of an expression for the relation without limits. -/
def typeOf (h : Hierarchy) (options : Options) (e : Expr) : Ty :=
  (e.eval (Call.inquiry options)).value (exact h)

section Value

attribute [local simp] eval evalAll evalEntries value_bind

variable (make : Call -> Inquiry Ty)

@[simp] theorem value_evalAll (es : List Expr) :
    (evalAll make es).value (exact h) = es.map fun e => (e.eval make).value (exact h) := by
  induction es with
  | nil => rfl
  | cons e rest ih => simp [ih]

@[simp] theorem value_evalEntries (entries : List (Entry Expr)) :
    (evalEntries make entries).value (exact h) =
      entries.map (Entry.mapValue fun e => (e.eval make).value (exact h)) := by
  induction entries with
  | nil => rfl
  | cons d rest ih => simp [Entry.mapValue, ih]

theorem value_object (cls : String) (arguments : List Expr) :
    ((object cls arguments).eval make).value (exact h) =
      (make (.object cls (arguments.map fun e => (e.eval make).value (exact h)))).value
        (exact h) := by
  simp

theorem value_array (key value : Expr) :
    ((array key value).eval make).value (exact h) =
      (make (.array ((key.eval make).value (exact h)) ((value.eval make).value (exact h)))).value
        (exact h) := by
  simp

theorem value_shape (entries : List (Entry Expr)) :
    ((shape entries).eval make).value (exact h) =
      (make (.shape (entries.map (Entry.mapValue fun e => (e.eval make).value (exact h))))).value
        (exact h) := by
  simp

theorem value_union (members : List Expr) :
    ((union members).eval make).value (exact h) =
      (make (.union (members.map fun e => (e.eval make).value (exact h)))).value (exact h) := by
  simp

theorem value_benevolent (members : List Expr) :
    ((benevolent members).eval make).value (exact h) =
      (make (.benevolent (members.map fun e => (e.eval make).value (exact h)))).value
        (exact h) := by
  simp

theorem value_inter (members : List Expr) :
    ((inter members).eval make).value (exact h) =
      (make (.inter (members.map fun e => (e.eval make).value (exact h)))).value (exact h) := by
  simp

end Value

mutual

/-- Each call on the way is free of an order. -/
def IsOrderFree (h : Hierarchy) (options : Options) : Expr -> Prop
  | leaf _ _ _ => True
  | object _ arguments => AllOrderFree h options arguments
  | array key value => IsOrderFree h options key ∧ IsOrderFree h options value
  | shape entries => EntriesOrderFree h options entries
  | union members => AllOrderFree h options members ∧
      (Call.union (members.map (typeOf h options))).IsOrderFree h options
  | benevolent members => AllOrderFree h options members ∧
      (Call.benevolent (members.map (typeOf h options))).IsOrderFree h options
  | inter members => AllOrderFree h options members ∧
      (Call.inter (members.map (typeOf h options))).IsOrderFree h options

def AllOrderFree (h : Hierarchy) (options : Options) : List Expr -> Prop
  | [] => True
  | e :: rest => IsOrderFree h options e ∧ AllOrderFree h options rest

def EntriesOrderFree (h : Hierarchy) (options : Options) : List (Entry Expr) -> Prop
  | [] => True
  | ⟨_, e, _⟩ :: rest => IsOrderFree h options e ∧ EntriesOrderFree h options rest

end

section Parts

attribute [local simp] IsOrderFree AllOrderFree EntriesOrderFree

theorem allOrderFree_iff {es : List Expr} :
    AllOrderFree h options es ↔ ∀ e ∈ es, e.IsOrderFree h options := by
  induction es with
  | nil => simp
  | cons e rest ih => simp [ih]

theorem entriesOrderFree_iff {entries : List (Entry Expr)} :
    EntriesOrderFree h options entries ↔ ∀ d ∈ entries, d.value.IsOrderFree h options := by
  induction entries with
  | nil => simp
  | cons d rest ih => simp [ih]

end Parts

/-!
# The types of expressions
-/

theorem proper_value {c : Call} (hc : c ≠ .placeholder)
    (hproper : ∀ t ∈ c.arguments, Formed (Session.exactly h) t ∧ Ty.IsComplete t) :
    Formed (Session.exactly h) ((c.inquiry options).value (exact h)) ∧
      Ty.IsComplete ((c.inquiry options).value (exact h)) := by
  have hformed : ∀ t ∈ c.arguments, Formed (Session.exactly h) t := fun t ht => (hproper t ht).1
  exact ((Call.meets_inquiry hformed).and_free (Call.meets_inquiry_complete h hc hformed
    fun t ht => (hproper t ht).2)).value fun _ _ _ => rfl

theorem forall_entryValues {P : Ty -> Prop} {f : Expr -> Ty} {entries : List (Entry Expr)}
    (hall : ∀ d ∈ entries, P (f d.value)) :
    ∀ t ∈ Ty.entryValues (entries.map (Entry.mapValue f)), P t := by
  rw [Ty.entryValues, List.map_map]
  exact List.forall_mem_map.mpr hall

/-- The types of expressions are formed and complete. -/
theorem proper_typeOf (h : Hierarchy) (options : Options) : ∀ e : Expr,
    Formed (Session.exactly h) (e.typeOf h options) ∧ Ty.IsComplete (e.typeOf h options) := by
  apply IsHereditary.holds
  constructor
  case leaf =>
    intro c hleaf hnone
    exact proper_value hnone (by simp [hleaf])
  case object =>
    intro cls arguments ih
    rw [typeOf, value_object]
    exact proper_value (by simp) (List.forall_mem_map.mpr ih)
  case array =>
    intro key value ihkey ihvalue
    rw [typeOf, value_array]
    exact proper_value (by simp)
      (List.forall_mem_cons.mpr ⟨ihkey, List.forall_mem_singleton.mpr ihvalue⟩)
  case shape =>
    intro entries ih
    rw [typeOf, value_shape]
    exact proper_value (by simp) (forall_entryValues ih)
  case union =>
    intro members ih
    rw [typeOf, value_union]
    exact proper_value (by simp) (List.forall_mem_map.mpr ih)
  case benevolent =>
    intro members ih
    rw [typeOf, value_benevolent]
    exact proper_value (by simp) (List.forall_mem_map.mpr ih)
  case inter =>
    intro members ih
    rw [typeOf, value_inter]
    exact proper_value (by simp) (List.forall_mem_map.mpr ih)

/-- Parts that have their types under an arrangement give the call its type. -/
theorem value_call (a : Arrangement) (hfinal : h.LeavesClosureFinal) {c : Call}
    (hproper : ∀ t ∈ c.arguments, Formed (Session.exactly h) t ∧ Ty.IsComplete t)
    (hfree : c.IsOrderFree h options) :
    (c.inquiryBy a options).value (exact h) = (c.inquiry options).value (exact h) :=
  Call.value_inquiryBy a hfinal (fun t ht => (hproper t ht).1) (fun t ht => (hproper t ht).2) hfree

/-- An expression that is free of an order has the same type under every arrangement. -/
theorem value_eval (a : Arrangement) (hfinal : h.LeavesClosureFinal) : ∀ e : Expr,
    e.IsOrderFree h options ->
      (e.eval (Call.inquiryBy a options)).value (exact h) = e.typeOf h options := by
  have hvalues : ∀ {members : List Expr}, (∀ e ∈ members, e.IsOrderFree h options ->
      (e.eval (Call.inquiryBy a options)).value (exact h) = e.typeOf h options) ->
      AllOrderFree h options members ->
      (members.map fun e => (e.eval (Call.inquiryBy a options)).value (exact h)) =
        members.map (typeOf h options) := fun ih hfree =>
    List.map_congr_left fun e he => ih e he (allOrderFree_iff.mp hfree e he)
  have hproper : ∀ {members : List Expr}, ∀ t ∈ members.map (typeOf h options),
      Formed (Session.exactly h) t ∧ Ty.IsComplete t :=
    List.forall_mem_map.mpr fun e _ => proper_typeOf h options e
  apply IsHereditary.holds
  constructor
  case leaf =>
    intro c hleaf hnone _
    rw [typeOf, eval, eval]
    exact value_call a hfinal (by simp [hleaf]) (Call.isOrderFree_of_leaf hleaf)
  case object =>
    intro cls arguments ih hfree
    rw [typeOf, value_object, value_object, hvalues ih hfree]
    exact value_call a hfinal hproper trivial
  case array =>
    intro key value ihkey ihvalue hfree
    rw [typeOf, value_array, value_array, ihkey hfree.1, ihvalue hfree.2]
    rfl
  case shape =>
    intro entries ih hfree
    have hentries : (entries.map (Entry.mapValue fun e =>
        (e.eval (Call.inquiryBy a options)).value (exact h))) =
          entries.map (Entry.mapValue (typeOf h options)) :=
      List.map_congr_left fun d hd => congrArg (Entry.mk d.key · d.optional)
        (ih d hd (entriesOrderFree_iff.mp hfree d hd))
    rw [typeOf, value_shape, value_shape, hentries]
    rfl
  case union =>
    intro members ih hfree
    rw [typeOf, value_union, value_union, hvalues ih hfree.1]
    exact value_call a hfinal hproper hfree.2
  case benevolent =>
    intro members ih hfree
    rw [typeOf, value_benevolent, value_benevolent, hvalues ih hfree.1]
    exact value_call a hfinal hproper hfree.2
  case inter =>
    intro members ih hfree
    rw [typeOf, value_inter, value_inter, hvalues ih hfree.1]
    exact value_call a hfinal hproper hfree.2

end Expr
end GradualTypes
