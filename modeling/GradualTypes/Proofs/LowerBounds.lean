import Mathlib
import GradualTypes.Proofs.Constructed
import GradualTypes.Proofs.Pieces
import GradualTypes.Proofs.Storage

/-!
# Intersections as lower bounds

An intersection is not always below its members in the sense of the relation.  It loses
that in three ways: where a class extends the final class of closures, so that the
relation is not transitive; where two pieces are shapes with the same keys, which are
merged to a wider shape; and where an alternative is an intersection that was not
distributed, since `bool` and hulls may be put in the place of what it contains.

Without these it is a lower bound, however many unions are distributed.
-/

namespace GradualTypes

open Inquiry
open GradualTypes.Intersection (HasComparablePieces HasDistributedAlternatives HasFewPieces IsPiece)
open GradualTypes.Subtype (Contained exact)
open GradualTypes.Ty (Formed)

variable {h : Hierarchy} {options : Options}

/-!
# Types constructed within the limit
-/

/-- A call of a constructor none of whose questions meets the depth limit. -/
def Session.ConstructsWithin (options : Options) (σ : Session) (c : Call) : Prop :=
  c ≠ .placeholder ∧ σ.CallWithin options c

/-- A type that a run of such calls has returned. -/
def ConstructedWithin (h : Hierarchy) (options : Options) (t : Ty) : Prop :=
  ∃ σ ts, Run h options (Session.ConstructsWithin options) σ ts ∧ t ∈ ts

theorem Run.imp {allowed allowed' : Session -> Call -> Prop} {σ : Session} {ts : List Ty}
    (hrun : Run h options allowed σ ts) (himp : ∀ σ c, allowed σ c -> allowed' σ c) :
    Run h options allowed' σ ts := by
  induction hrun with
  | new => exact .new
  | call c _ harguments hc ih => exact .call c ih harguments (himp _ _ hc)
  | ask s t _ ih => exact .ask s t ih

namespace ConstructedWithin

variable {t : Ty}

theorem formed (ht : ConstructedWithin h options t) : Formed (Session.exactly h) t := by
  rcases ht with ⟨σ, ts, hrun, hmem⟩
  exact (hrun.imp fun _ _ hc => hc.2).formed_of_within.1 t hmem

theorem complete (ht : ConstructedWithin h options t) : Ty.IsComplete t := by
  rcases ht with ⟨σ, ts, hrun, hmem⟩
  exact (hrun.imp fun _ _ hc => hc.1).complete t hmem

theorem constructed (ht : ConstructedWithin h options t) : Constructed h options t := by
  rcases ht with ⟨σ, ts, hrun, hmem⟩
  exact ⟨σ, ts, hrun.imp fun _ _ hc => hc.1, hmem⟩

theorem built (ht : ConstructedWithin h options t) : Built h options t := by
  rcases ht with ⟨σ, ts, hrun, hmem⟩
  exact ⟨σ, ts, hrun.imp fun _ _ _ => trivial, hmem⟩

/-- Calls that can be followed within the limit construct their results. -/
theorem of_calls {calls : List Call} {ts : List Ty} (hcalls : ∀ c ∈ calls, c ≠ .placeholder)
    (hresults : Call.results? h options [] calls = some ts) :
    ∀ t ∈ ts, ConstructedWithin h options t := by
  have hnew : Run h options (Session.ConstructsWithin options) (.new h options) [] := .new
  obtain ⟨σ, hrun, -⟩ := hnew.exists_calls rfl hresults fun c hc σ hwithin =>
    ⟨hcalls c hc, hwithin⟩
  exact fun t ht => ⟨σ, ts, hrun, ht⟩

end ConstructedWithin

namespace Session

variable {options₁ options₂ options₃ : Options} {σ σ' : Session} {members : List Ty} {m : Ty}

/-!
# Intersections that are not below a member
-/

/-- Two types that are constructed within the depth limit, and whose intersection has
few pieces and is made within the limit, but is not found to be below the first type. -/
structure ExceedsFirst (h : Hierarchy) (a b : Ty) : Prop where
  constructed : ∀ t ∈ [a, b], ConstructedWithin h .default t
  noError : ∀ t ∈ [a, b], t ≠ .error
  few : HasFewPieces .default [a, b]
  within : (new h .default).Within (answer relationDepth) (Intersection.of .default [a, b])
  decided : ((new h .default).perform (isSubtype
    ((new h .default).perform (Intersection.of .default [a, b])).1 a)).2.limited = false
  notBelow : ((new h .default).perform (isSubtype
    ((new h .default).perform (Intersection.of .default [a, b])).1 a)).1 ≠ .yes

theorem exceedsFirst_of_calls {calls : List Call} {ts kept : List Ty} {a b r : Ty}
    (hcalls : ∀ c ∈ calls, c ≠ .placeholder)
    (hresults : Call.results? h .default [] calls = some ts)
    (hinter : Call.results? h .default ts [.inter [a, b]] = some (r :: ts))
    (herror : ∀ t ∈ [a, b], t ≠ .error)
    (hprepare : Intersection.prepare [a, b] = .inr kept)
    (hfew : Intersection.pieces kept ≤ Options.default.maxIntersectionDistribution)
    (hweight : Subtype.weight r a ≤ relationDepth) (hanswer : exact h r a ≠ .yes) :
    ExceedsFirst h a b := by
  rcases Call.results?_single hinter with ⟨hmem, hlight, hvalue⟩
  rcases perform_new (h := h) hlight with ⟨hwithin, hperform⟩
  have hmade : ((new h .default).perform (Intersection.of .default [a, b])).1 = r :=
    hperform.trans hvalue
  have hdecided := isSubtype_not_limited (new h .default) hweight
  refine ⟨?_, herror, ?_, hwithin, ?_, ?_⟩
  · exact fun t ht => ConstructedWithin.of_calls hcalls hresults t (hmem t ht)
  · intro kept' hkept'
    rw [hprepare] at hkept'
    cases hkept'
    exact hfew
  · rw [hmade]
    exact hdecided
  · rw [hmade, Reachable.new.isSubtype_eq hdecided]
    exact hanswer

/-- Two pieces that are shapes with the same key become one shape, and a value of one of
them may come with the surplus key of the other. -/
theorem exceedsFirst_shapes :
    let entry (n : Int) : Entry Ty := ⟨.text "x", .literal (.int n), false⟩
    let surplus : Entry Ty := ⟨.text "y", .int, true⟩
    ExceedsFirst .empty (.union .plain [.shape [entry 1], .shape [entry 2, surplus]])
      (.union .plain [.shape [entry 1, surplus], .shape [entry 2]]) := by
  intro entry surplus
  let a := Ty.union .plain [.shape [entry 1], .shape [entry 2, surplus]]
  let b := Ty.union .plain [.shape [entry 1, surplus], .shape [entry 2]]
  let calls : List Call := [.int 1, .int 2, .keyword .int, .shape [entry 1], .shape [entry 2],
    .shape [entry 1, surplus], .shape [entry 2, surplus],
    .union [.shape [entry 1], .shape [entry 2, surplus]],
    .union [.shape [entry 1, surplus], .shape [entry 2]]]
  let ts : List Ty := [b, a, .shape [entry 2, surplus], .shape [entry 1, surplus],
    .shape [entry 2], .shape [entry 1], .int, .literal (.int 2), .literal (.int 1)]
  let merged := Ty.shape [⟨.text "x", .union .plain [.literal (.int 1), .literal (.int 2)], false⟩]
  have hcalls : ∀ c ∈ calls, c ≠ .placeholder := by simp [calls]
  have hresults : Call.results? .empty .default [] calls = some ts := by decide +kernel
  have hinter : Call.results? .empty .default ts [.inter [a, b]] = some (merged :: ts) := by cbv
  have hprepare : Intersection.prepare [a, b] = .inr [a, b] := by decide +kernel
  exact exceedsFirst_of_calls hcalls hresults hinter (by decide) hprepare (by decide)
    (by decide) (by decide +kernel)

/-- Where a class extends the class of closures, it is below that class but not
certainly callable. -/
theorem exceedsFirst_closure :
    let h : Hierarchy := ⟨[Declaration.of "Sub" .plainClass ["Closure"] false false []]⟩
    ExceedsFirst h (.inter [.object "Sub" [], .callable]) (.object "Closure" []) := by
  intro h
  let sub := Ty.object "Sub" []
  let closure := Ty.object "Closure" []
  let both := Ty.inter [sub, .callable]
  let calls : List Call := [.object "Sub" [], .keyword .callable, .inter [sub, .callable],
    .object "Closure" []]
  let ts : List Ty := [closure, both, .callable, sub]
  have hcalls : ∀ c ∈ calls, c ≠ .placeholder := by simp [calls]
  have hresults : Call.results? h .default [] calls = some ts := by cbv
  have hprepare : Intersection.prepare [both, closure] = .inr [.callable, closure, sub] := by
    decide +kernel
  have hof : (Call.inter [both, closure]).inquiry .default =
      Intersection.reduce [.callable, closure, sub] :=
    Intersection.of_compared (by simp) (by simp) hprepare (by decide +kernel)
  have hinter : Call.results? h .default ts [.inter [both, closure]] = some (sub :: ts) := by
    rw [Call.results?, hof, Intersection.reduce, Intersection.narrowAll_nil]
    simp only [Intersection.narrowAll_single]
    decide +kernel
  exact exceedsFirst_of_calls hcalls hresults hinter (by decide) hprepare (by decide)
    (by decide) (by decide +kernel)

/-- An intersection of two unions, which is not distributed if further members make it
have too many pieces. -/
def undistributed : Ty :=
  .inter [.union .plain [.literal (.text "a"), .literal (.bool true)],
    .union .plain [.literal (.text "b"), .literal (.bool true)]]

/-- Three wide unions that contain the first one of the two raise the number of pieces
over the limit. -/
def wideUnions : List (List Ty) :=
  let a := Ty.literal (.text "a")
  let yes := Ty.literal (.bool true)
  let void := Ty.keyword .void
  let object := Ty.keyword .object
  let resource := Ty.keyword .resource
  [[object, .int, .float, a, yes, resource, .null], [object, .int, .float, a, yes, void, .null],
    [.int, .float, a, yes, resource, void, .null]]

/-- The types that are made on the way to the intersection, the last one first. -/
def beforeUndistributed : List Ty :=
  wideUnions.map (.union .plain) ++ [.union .plain [.literal (.text "b"), .literal (.bool true)],
    .union .plain [.literal (.text "a"), .literal (.bool true)], .keyword .resource,
    .keyword .object, .keyword .void, .null, .float, .int, .bool, .literal (.bool false),
    .literal (.bool true), .literal (.text "b"), .literal (.text "a")]

/-- Calls that make the intersection. -/
theorem results?_undistributed :
    ∃ calls : List Call, (∀ c ∈ calls, c ≠ .placeholder) ∧
      Call.results? .empty .default [] calls = some (undistributed :: beforeUndistributed) := by
  let a := Ty.literal (.text "a")
  let b := Ty.literal (.text "b")
  let yes := Ty.literal (.bool true)
  let calls : List Call := [.text "a", .text "b", .bool true, .bool false, .keyword .bool,
    .keyword .int, .keyword .float, .keyword .null, .keyword .void, .keyword .object,
    .keyword .resource, .union [a, yes], .union [b, yes]] ++ wideUnions.reverse.map .union
  let constraints : List Ty :=
    wideUnions.reverse.map (.union .plain) ++ [.union .plain [a, yes], .union .plain [b, yes]]
  have hunions : Call.results? .empty .default [] calls = some beforeUndistributed := by
    decide +kernel
  have hinter : Call.results? .empty .default beforeUndistributed [.inter constraints] =
      some (undistributed :: beforeUndistributed) := by
    have hof : (Call.inter constraints).inquiry .default = Intersection.reduce constraints :=
      Intersection.of_compared (by simp [constraints]) (by simp [constraints, wideUnions])
        (by decide +kernel) (by decide +kernel)
    rw [Call.results?, hof]
    cbv
  exact ⟨calls ++ [.inter constraints], by simp [calls, wideUnions], Call.results?_append hunions hinter⟩

/-- Where an alternative is an intersection that was not distributed, both boolean
literals may be among the pieces while `bool` is not below the alternatives. -/
theorem exceedsFirst_undistributed :
    ExceedsFirst .empty (.union .plain [undistributed, .literal (.bool false)]) .bool := by
  let no := Ty.literal (.bool false)
  let source := Ty.union .plain [undistributed, no]
  obtain ⟨calls, hcalls, hmade⟩ := results?_undistributed
  have hsource : Call.results? .empty .default (undistributed :: beforeUndistributed)
      [.union [undistributed, no]] = some (source :: undistributed :: beforeUndistributed) := by
    decide +kernel
  have hcalls' : ∀ c ∈ calls ++ [.union [undistributed, no]], c ≠ .placeholder := by
    rw [List.forall_mem_append]
    exact ⟨hcalls, by simp⟩
  have hinter : Call.results? .empty .default (source :: undistributed :: beforeUndistributed)
      [.inter [source, .bool]] =
        some (.bool :: source :: undistributed :: beforeUndistributed) := by cbv
  have hprepare : Intersection.prepare [source, .bool] = .inr [.bool, source] := by decide +kernel
  exact exceedsFirst_of_calls hcalls' (Call.results?_append hmade hsource) hinter (by decide)
    hprepare (by decide) (by decide) (by decide +kernel)

/-- The three ways in which an intersection fails to be a lower bound: pieces that are
shapes with the same key, a class that extends the class of closures, and an alternative
that was not distributed. -/
theorem intersection_not_lower :
    let entry (n : Int) : Entry Ty := ⟨.text "x", .literal (.int n), false⟩
    let surplus : Entry Ty := ⟨.text "y", .int, true⟩
    let h : Hierarchy := ⟨[Declaration.of "Sub" .plainClass ["Closure"] false false []]⟩
    let a := Ty.literal (.text "a")
    let b := Ty.literal (.text "b")
    let yes := Ty.literal (.bool true)
    let no := Ty.literal (.bool false)
    ExceedsFirst .empty (.union .plain [.shape [entry 1], .shape [entry 2, surplus]])
        (.union .plain [.shape [entry 1, surplus], .shape [entry 2]]) ∧
      ExceedsFirst h (.inter [.object "Sub" [], .callable]) (.object "Closure" []) ∧
      ExceedsFirst .empty
        (.union .plain [.inter [.union .plain [a, yes], .union .plain [b, yes]], no]) .bool :=
  ⟨exceedsFirst_shapes, exceedsFirst_closure, exceedsFirst_undistributed⟩

/-!
# Intersections that are below all members
-/

/-- An intersection is a lower bound of its members for the relation itself: if it is
distributed completely and no two incomparable pieces are shapes with the same keys,
every session answers `yes` for each member, unless a question meets the depth limit.
The members may have been made in other sessions, with any options. -/
theorem isSubtype_intersection (hfinal : h.LeavesClosureFinal)
    (hmembers : ∀ t ∈ members, ConstructedWithin h options t) (herror : ∀ t ∈ members, t ≠ .error)
    (hfew : HasFewPieces options₁ members) (hdistributed : HasDistributedAlternatives members)
    (hpieces : HasComparablePieces h options₁ members) (hσ : Reachable h options₂ σ)
    (hσ' : Reachable h options₃ σ')
    (hwithin : σ.Within (answer relationDepth) (Intersection.of options₁ members))
    (hm : m ∈ members)
    (hlimit : (σ'.perform
      (isSubtype (σ.perform (Intersection.of options₁ members)).1 m)).2.limited = false) :
    (σ'.perform (isSubtype (σ.perform (Intersection.of options₁ members)).1 m)).1 = .yes := by
  have hdistributable : Intersection.IsDistributable h options₁ members :=
    ⟨fun t ht => ⟨(hmembers t ht).formed, (hmembers t ht).complete⟩, herror, hdistributed, hfew⟩
  have hlower := Intersection.isLower hfinal hdistributable hpieces
  have hvalue : (σ.perform (Intersection.of options₁ members)).1 =
      (Intersection.of options₁ members).value (exact h) := by
    rcases hσ.kept with ⟨htruthful, rfl, -⟩
    exact run_eq_value (isReliable_answer relationDepth) htruthful hwithin
  rw [hσ'.isSubtype_eq hlimit, hvalue]
  exact hlower.below m hm

/-- Two unions with shapes of the same key, one of which contains the other one. -/
theorem isSubtype_intersection_shapes :
    let σ := new .empty .default
    let wide := Ty.shape [⟨.text "x", .int, false⟩]
    let slim := Ty.shape [⟨.text "x", .literal (.int 1), false⟩]
    let a := Ty.union .plain [wide, .int]
    let b := Ty.union .plain [slim, .string]
    let r := (σ.perform (Intersection.of .default [a, b])).1
    r = slim ∧ (σ.perform (isSubtype r a)).1 = .yes ∧ (σ.perform (isSubtype r b)).1 = .yes := by
  intro σ wide slim a b r
  have hresults : Call.results? .empty .default [] [.keyword .int, .keyword .string, .int 1,
      .shape [⟨.text "x", .int, false⟩], .shape [⟨.text "x", .literal (.int 1), false⟩],
      .union [wide, .int], .union [slim, .string]] =
        some [b, a, slim, wide, .literal (.int 1), .string, .int] := by decide +kernel
  have hconstructed : ∀ t ∈ [a, b], ConstructedWithin .empty .default t := by
    have hall := ConstructedWithin.of_calls (by simp) hresults
    rw [List.forall_mem_cons, List.forall_mem_singleton]
    exact ⟨hall a (by simp), hall b (by simp)⟩
  have hprepare : Intersection.prepare [a, b] = .inr [a, b] := by decide +kernel
  have hfew : HasFewPieces .default [a, b] := by
    intro kept hkept
    rw [hprepare] at hkept
    cases hkept
    decide
  -- the four pieces are the slim shape and three times `never`
  have hpiece : ∀ t, IsPiece .empty .default [a, b] t -> t = slim ∨ t = .never := by
    have hvalue : ∀ s ∈ [wide, .int], ∀ u ∈ [slim, .string],
        (Intersection.of .default [s, u]).value (exact .empty) = slim ∨
          (Intersection.of .default [s, u]).value (exact .empty) = .never := by
      simp only [List.mem_cons, List.not_mem_nil, or_false]
      rintro s (rfl | rfl) u (rfl | rfl)
      · exact Or.inl (by cbv)
      · exact Or.inr (by cbv)
      · exact Or.inr (by cbv)
      · exact Or.inr (by cbv)
    have hflat : ∀ s ∈ [wide, .int], ∀ u ∈ [slim, .string],
        ∀ t ∈ [s, u].flatMap Intersection.membersOf, t.unionMembers? = none := by decide
    have hparts : ∀ s ∈ [wide, .int], Intersection.prepare ([b] ++ [s]) = .inr [s, b] ∧
        Intersection.toDistribute? Options.default.maxIntersectionDistribution [s, b] =
          some (.plain, [slim, .string], [s]) := by decide +kernel
    intro t ht
    obtain ⟨s, hs, ht⟩ := ht.exists_part hprepare (by rfl)
    obtain ⟨u, hu, ht⟩ := ht.exists_part (hparts s hs).1 (hparts s hs).2
    rw [ht.eq_value (hflat s hs u hu)]
    exact hvalue s hs u hu
  have hdistributed : HasDistributedAlternatives [a, b] := by
    unfold HasDistributedAlternatives
    decide
  have hpieces : HasComparablePieces .empty .default [a, b] := by
    intro e f he hf _
    have heq : ∀ e, IsPiece .empty .default [a, b] (.shape e) -> .shape e = slim :=
      fun e he => (hpiece _ he).resolve_right (by simp)
    rw [heq e he, heq f hf]
    exact Or.inl (.refl slim)
  have hinter : Call.results? .empty .default [b, a] [.inter [a, b]] = some [slim, b, a] := by cbv
  rcases Call.results?_single hinter with ⟨-, hlight, hvalue⟩
  rcases perform_new hlight with ⟨hwithin, hmade⟩
  have hr : r = slim := hmade.trans hvalue
  have hyes : ∀ t ∈ [a, b], Subtype.weight slim t ≤ relationDepth ->
      (σ.perform (isSubtype r t)).1 = .yes := by
    intro t ht hweight
    refine isSubtype_intersection Hierarchy.isLawful_empty.closure hconstructed (by decide) hfew
      hdistributed hpieces .new .new hwithin ht ?_
    show (σ.perform (isSubtype r t)).2.limited = false
    rw [hr]
    exact isSubtype_not_limited _ hweight
  exact ⟨hr, hyes a (by simp) (by decide), hyes b (by simp) (by decide)⟩

end Session
end GradualTypes
