import GradualTypes.Proofs.Formed
import GradualTypes.Proofs.Transitivity
import GradualTypes.Proofs.Values

/-!
# Relations that obey the rules of containment

A union is above its members and an intersection below its members in more than one
sense: by the answers of the relation, and by the values of the types.  Both senses
are preorders that contain whatever the rules of certain containment derive from
them, and the arguments about unions and intersections use nothing else.

Such an argument needs types in which every node is filled in.
-/

namespace GradualTypes

namespace Ty

variable {replies : Ty -> Ty -> Tristate -> Prop} {t : Ty}

/-- No part of the type is a placeholder. -/
def IsComplete (t : Ty) : Prop :=
  Everywhere (· ≠ .placeholder) t

theorem isComplete_keyword (k : Keyword) : IsComplete (.keyword k) :=
  .leaf (by simp) rfl

theorem isComplete_literal (v : Literal) : IsComplete (.literal v) :=
  .leaf (by simp) rfl

theorem isComplete_range (r : IntRange) : IsComplete (.range r) :=
  .leaf (by simp) rfl

theorem isComplete_shape {entries : List (Entry Ty)}
    (hentries : ∀ e ∈ entries, IsComplete e.value) : IsComplete (.shape entries) := by
  refine .intro (by simp) ?_
  intro c hc
  rcases List.mem_map.mp hc with ⟨e, he, rfl⟩
  exact hentries e he

theorem isComplete_union {flavor : Flavor} {members : List Ty} :
    IsComplete (.union flavor members) ↔ ∀ m ∈ members, IsComplete m := by
  constructor
  · intro ht m hm
    exact ht.inside hm
  · exact fun hmembers => .intro (by simp) hmembers

theorem isComplete_inter {members : List Ty} :
    IsComplete (.inter members) ↔ ∀ m ∈ members, IsComplete m := by
  constructor
  · intro ht m hm
    exact ht.inside hm
  · exact fun hmembers => .intro (by simp) hmembers

theorem Formed.isUnknown (ht : Formed replies t) : t.isUnknown = false := by
  cases t with
  | unknown n => exact ht.here.elim
  | _ => rfl

/-- A formed and complete type that is neither an error nor an extreme is
ordinary. -/
theorem Formed.isOrdinary (ht : Formed replies t) (hcomplete : IsComplete t)
    (herror : t ≠ .error) (hmixed : t ≠ .mixed) (hnever : t ≠ .never) : t.isOrdinary = true := by
  have hplaceholder := hcomplete.here
  unfold Ty.isOrdinary
  rw [ht.isUnknown]
  cases t <;> simp_all [isMissing]

end Ty

namespace Subtype

open Ty (Everywhere)

variable {h : Hierarchy} {R : Ty -> Ty -> Prop} {calls : Value -> Prop} {members : List Ty}
  {a b c s t : Ty}

/-- A preorder on types, as far as they are free of repeated keys, that contains what
the rules of certain containment derive from it. -/
structure IsContainment (h : Hierarchy) (R : Ty -> Ty -> Prop) : Prop where
  refl : ∀ t, R t t
  trans : ∀ {a b c}, Everywhere Ty.HasDistinctKeys a -> R a b -> R b c -> R a c
  rule : ∀ {s t}, Certain h R s t -> R s t

theorem isContainment_contained (hfinal : h.LeavesClosureFinal) :
    IsContainment h (Contained h) where
  refl := Contained.refl
  trans := Contained.trans hfinal
  rule := Certain.contained

theorem isContainment_includes (h : Hierarchy) (calls : Value -> Prop) :
    IsContainment h (Includes calls) where
  refl := fun _ _ hv => hv
  trans := fun _ hab hbc v hv => hbc v (hab v hv)
  rule := Certain.includes

theorem isContainment_true (h : Hierarchy) : IsContainment h fun _ _ => True where
  refl := fun _ => trivial
  trans := fun _ _ _ => trivial
  rule := fun _ => trivial

namespace IsContainment

variable (hR : IsContainment h R)
include hR

/-- A member of a union on the right may stand for the union. -/
theorem union_right {flavor : Flavor} (hs : s.isOrdinary = true) (hunion : s.unionMembers? = none)
    (ht : t ∈ members) (hst : R s t) : R s (.union flavor members) :=
  hR.rule (.union_right hs hunion ht hst)

/-- A type that is above all members of a union is above the union. -/
theorem union_left {flavor : Flavor} (ht : t.isUnknown = false) (hmissing : t.isMissing = false)
    (hnever : t ≠ .never) (hne : members ≠ []) (hall : ∀ m ∈ members, R m t) :
    R (.union flavor members) t := by
  by_cases hmixed : t = .mixed
  · subst hmixed
    exact hR.rule (.mixed rfl)
  · apply hR.rule (.union_left ?_ hne hall)
    simp [Ty.isOrdinary, ht, hmissing, hmixed, hnever]

end IsContainment

/-!
# Lists of types that cover others
-/

/-- Each type of the first list is contained in one of the second list. -/
def Covers (R : Ty -> Ty -> Prop) (members result : List Ty) : Prop :=
  ∀ m ∈ members, ∃ u ∈ result, R m u

theorem IsContainment.covers_of_subset (hR : IsContainment h R) {result : List Ty}
    (hsubset : ∀ m ∈ members, m ∈ result) : Covers R members result :=
  fun m hm => ⟨m, hsubset m hm, hR.refl m⟩

theorem Covers.trans (hR : IsContainment h R) {middle result : List Ty}
    (hkeys : ∀ m ∈ members, Everywhere Ty.HasDistinctKeys m) (hfirst : Covers R members middle)
    (hsecond : Covers R middle result) : Covers R members result := by
  intro m hm
  rcases hfirst m hm with ⟨u, hu, hmu⟩
  rcases hsecond u hu with ⟨v, hv, huv⟩
  exact ⟨v, hv, hR.trans (hkeys m hm) hmu huv⟩

end Subtype
end GradualTypes
