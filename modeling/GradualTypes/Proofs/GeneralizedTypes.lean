import GradualTypes.Proofs.Distributivity
import GradualTypes.Proofs.Widening

/-!
# Generalized types in a session

A type is not always contained in what it is generalized to.  The members of an intersection may
share a value, and yet be found to share none when they are wider; and an intersection that was
not distributed may be so when its members become simpler.

Apart from this and from the depth limit, generalization widens.
-/

namespace GradualTypes
namespace Session

open Inquiry
open GradualTypes.Subtype (exact)

variable {h : Hierarchy} {options options₁ options₂ made : Options} {σ σ' : Session} {t : Ty}
  {precision : Precision}

/-!
# Types that generalization does not widen
-/

/-- Whether a type is contained in what it is generalized to. -/
def isBelowGeneralized (options : Options) (precision : Precision) (t : Ty) : Inquiry Tristate := do
  let r ← generalize options precision t
  isSubtype t r

/-- A type that is constructed within the limit without any error inside, and that is not found to
be contained in what a new session generalizes it to. -/
structure EscapesGeneralization (precision : Precision) (t : Ty) : Prop where
  constructed : ConstructedWithin .empty .default t
  noError : t.Everywhere fun s => (s != .error) = true
  escapes : ((new .empty .default).perform (isBelowGeneralized .default precision t)).1 ≠ .yes

theorem escapesGeneralization_of_calls {calls : List Call} {given : List Ty} {r : Tristate}
    (hcalls : ∀ c ∈ calls, c ≠ .placeholder)
    (hgiven : Call.results? .empty .default [] calls = some given) (ht : t ∈ given)
    (hnoError : t.everyTo (· != .error) 4 = true)
    (hbelow : LeadsTo .empty (isBelowGeneralized .default precision t) r) (hr : r ≠ .yes) :
    EscapesGeneralization precision t := by
  refine ⟨ConstructedWithin.of_calls hcalls hgiven t ht, Ty.everywhere_of_everyTo hnoError, ?_⟩
  rw [hbelow.perform]
  exact hr

/-- The empty shape is in two array types that are found to share no value. -/
theorem escapesGeneralization_disjoint :
    EscapesGeneralization .lessSpecific
      (.inter [.shape [⟨.text "x", .string, true⟩], .array .string .int]) := by
  let shape := Ty.shape [⟨.text "x", .string, true⟩]
  let array := Ty.array .string .int
  have hgiven : Call.results? .empty .default [] [.keyword .string, .keyword .int,
      .array .string .int, .shape [⟨.text "x", .string, true⟩], .inter [shape, array]] =
        some [.inter [shape, array], shape, array, .int, .string] := by cbv
  have hbelow : LeadsTo .empty (isBelowGeneralized .default .lessSpecific (.inter [shape, array])) .no := by
    constructor <;> cbv
  exact escapesGeneralization_of_calls (by simp) hgiven (by simp [shape, array]) (by decide) hbelow
    (by decide)

/-- The members of an undistributed intersection go over to unions of base types. -/
theorem escapesGeneralization_undistributed :
    EscapesGeneralization .lessSpecific undistributed := by
  obtain ⟨calls, hcalls, hmade⟩ := results?_undistributed
  have hbelow : LeadsTo .empty (isBelowGeneralized .default .lessSpecific undistributed) .maybe := by
    constructor <;> cbv
  exact escapesGeneralization_of_calls hcalls hmade List.mem_cons_self (by decide) hbelow (by decide)

/-- The ways in which a type is not below what it is generalized to: members that are found to
share no value once they are wider, and an intersection that was not distributed. -/
theorem generalization_escapes :
    EscapesGeneralization .lessSpecific
        (.inter [.shape [⟨.text "x", .string, true⟩], .array .string .int]) ∧
      EscapesGeneralization .lessSpecific undistributed :=
  ⟨escapesGeneralization_disjoint, escapesGeneralization_undistributed⟩

/-!
# Types that are below what they are generalized to
-/

/-- A type is found to be contained in what it is generalized to, if no intersection inside has a
union among its members, and no two members of one share no value once they are wider.  In this
no question may meet the limit.  The type may be generalized in any session, and compared in
another one. -/
theorem isSubtype_generalized (hfinal : h.LeavesClosureFinal) (ht : ConstructedWithin h options t)
    (htogether : KeepsTogether h made precision t) (hσ : Reachable h options₁ σ)
    (hσ' : Reachable h options₂ σ')
    (hwithin : σ.Within (answer relationDepth) (generalize made precision t))
    (hlimit : (σ'.perform (isSubtype t (σ.perform (generalize made precision t)).1)).2.limited =
      false) :
    (σ'.perform (isSubtype t (σ.perform (generalize made precision t)).1)).1 = .yes := by
  rw [hσ'.isSubtype_eq hlimit, hσ.value_of_within hwithin]
  exact (widens_generalized hfinal ht.formed ht.complete htogether).above

/-- A shape that goes over to an array, with an integer and an intersection inside. -/
theorem isSubtype_generalized_shape :
    let σ := new .empty .default
    let named := Ty.inter [.object "C" [], .accessory (.hasProperty "p")]
    let t := Ty.shape [⟨.text "a", .literal (.int 1), false⟩, ⟨.text "b", named, true⟩]
    (σ.perform (isSubtype t (σ.perform (generalize .default .moreSpecific t)).1)).1 = .yes := by
  intro σ named t
  have hgiven : Call.results? .empty .default [] [.int 1, .object "C" [], .hasProperty "p",
      .inter [.object "C" [], .accessory (.hasProperty "p")],
      .shape [⟨.text "a", .literal (.int 1), false⟩, ⟨.text "b", named, true⟩]] =
        some [t, named, .accessory (.hasProperty "p"), .object "C" [], .literal (.int 1)] := by cbv
  have hsame : [Ty.object "C" [], .accessory (.hasProperty "p")].map
      (generalized .empty .default .moreSpecific) =
        [.object "C" [], .accessory (.hasProperty "p")] := by cbv
  have hnamed : StaysTogether .empty (generalized .empty .default .moreSpecific) named := by
    intro members heq
    obtain rfl : [Ty.object "C" [], .accessory (.hasProperty "p")] = members := Ty.inter.inj heq
    rw [hsame]
    exact ⟨by decide, Intersection.not_isPartedAmong_pair rfl rfl (by decide +kernel)⟩
  have htogether : KeepsTogether .empty .default .moreSpecific t := by
    have hother : Ty.IsAboutIntersections
        (StaysTogether .empty (generalized .empty .default .moreSpecific)) :=
      isAboutIntersections_staysTogether _
    have hleaf : ∀ u : Ty, u.children = [] -> (∀ members, u ≠ .inter members) ->
        KeepsTogether .empty .default .moreSpecific u :=
      fun u hu hinter => .intro (hother u hinter) (by simp [hu])
    refine .intro (hother t (by simp [t])) ?_
    rw [show t.children = [.literal (.int 1), named] from rfl, List.forall_mem_cons,
      List.forall_mem_singleton]
    refine ⟨hleaf _ rfl (by simp), .intro hnamed ?_⟩
    rw [show named.children = [.object "C" [], .accessory (.hasProperty "p")] from rfl,
      List.forall_mem_cons, List.forall_mem_singleton]
    exact ⟨hleaf _ rfl (by simp), hleaf _ rfl (by simp)⟩
  have hmade := ConstructedWithin.of_calls (by simp) hgiven t List.mem_cons_self
  have hgeneralized : LeadsTo .empty (generalize .default .moreSpecific t)
      (.inter [.array (.inter [.string, .accessory .nonEmptyString])
        (.union .plain [named, .range ⟨some 1, none⟩]), .accessory .nonEmptyArray]) := by
    constructor <;> cbv
  have hnew : Reachable .empty .default σ := .new
  refine isSubtype_generalized Hierarchy.isLawful_empty.closure hmade htogether hnew hnew
    (perform_new hgeneralized.light).1 ?_
  rw [hgeneralized.perform]
  exact isSubtype_not_limited _ (by decide)

end Session
end GradualTypes
