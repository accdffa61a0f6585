import GradualTypes.Proofs.Distributivity
import GradualTypes.Proofs.Narrowing

/-!
# Intersections of related types in a session

The intersection of a type with itself, or with a type above it, need not be that type.  Two
members of intersections may be found to share no value although one intersection is below the
other.  Of two spellings of a class an intersection keeps the first one, whichever type it comes
from, and a class that extends the class of closures ousts `callable`.  Shapes with the same keys
that the narrower type had no budget to merge are merged again.  An intersection that was not
distributed may be so when it is made again, and one with too many pieces is not distributed.

Apart from this and from the depth limit such an intersection is the narrower type.
-/

namespace GradualTypes
namespace Session

open Inquiry
open GradualTypes.Intersection (HasFewPieces IsSettled PrefersNarrower)
open GradualTypes.Subtype (Contained exact)
open GradualTypes.Union (HasOneShapePerKeys IsDistributed membersOf)

variable {h : Hierarchy} {options options₁ options₂ made : Options} {σ σ' : Session} {a b t u : Ty}

/-!
# Intersections that are not the narrower type
-/

/-- Two types that are constructed within the limit without any benevolent union, the first
one of which is found to be below the second one and not the other way round, while their
intersection in a new session is not the first one. -/
structure EscapesIntersection (h : Hierarchy) (options : Options) (a b : Ty) : Prop where
  constructed : ∀ t ∈ [a, b], ConstructedWithin h options t
  inhabited : ∀ t ∈ [a, b], t ≠ .error ∧ t ≠ .never
  plain : ∀ t ∈ [a, b], t.Everywhere fun s => s.isPlain = true
  below : ((new h options).perform (isSubtype a b)).1 = .yes
  notAbove : ((new h options).perform (isSubtype b a)).1 ≠ .yes
  differs : ((new h options).perform (Intersection.of options [a, b])).1 ≠ a

theorem escapesIntersection_of_calls {calls : List Call} {given : List Ty} {r : Tristate}
    (hcalls : ∀ c ∈ calls, c ≠ .placeholder)
    (hgiven : Call.results? h options [] calls = some given)
    (hmem : ∀ t ∈ [a, b], t ∈ given ∧ t.everyTo Ty.isPlain 4 = true)
    (hinhabited : ∀ t ∈ [a, b], t ≠ .error ∧ t ≠ .never)
    (hbelow : LeadsTo h (isSubtype a b) .yes) (habove : LeadsTo h (isSubtype b a) r)
    (hr : r ≠ .yes) (hinter : LeadsTo h (Intersection.of options [a, b]) u) (hne : u ≠ a) :
    EscapesIntersection h options a b where
  constructed := fun t ht => ConstructedWithin.of_calls hcalls hgiven t (hmem t ht).1
  inhabited := hinhabited
  plain := fun t ht => Ty.everywhere_of_everyTo (hmem t ht).2
  below := hbelow.perform options
  notAbove := by rwa [habove.perform]
  differs := by rwa [hinter.perform]

/-- Two array types are found to share no value, although a shape below one of them is a
member of the intersection with the other one. -/
theorem escapesIntersection_disjoint :
    let shape := Ty.shape [⟨.text "x", .string, true⟩]
    EscapesIntersection .empty .default (.inter [shape, .array .string .int])
      (.array .string .string) := by
  intro shape
  let ints := Ty.array .string .int
  let strings := Ty.array .string .string
  have hgiven : Call.results? .empty .default [] [.keyword .string, .keyword .int,
      .shape [⟨.text "x", .string, true⟩], .array .string .int, .inter [shape, ints],
      .array .string .string] =
        some [strings, .inter [shape, ints], ints, shape, .int, .string] := by cbv
  have hbelow : LeadsTo .empty (isSubtype (.inter [shape, ints]) strings) .yes := by
    constructor <;> cbv
  have habove : LeadsTo .empty (isSubtype strings (.inter [shape, ints])) .no := by
    constructor <;> cbv
  have hinter : LeadsTo .empty (Intersection.of .default [.inter [shape, ints], strings])
      .never := by
    constructor <;> cbv
  exact escapesIntersection_of_calls (by simp) hgiven (by decide +kernel) (by decide) hbelow habove
    (by decide) hinter (by decide)

/-- An intersection keeps the first one of two spellings of a class. -/
theorem escapesIntersection_spelling :
    EscapesIntersection .empty .default (.object "c" [])
      (.union .plain [.object "C" [], .string]) := by
  let lower := Ty.object "c" []
  let upper := Ty.union .plain [.object "C" [], .string]
  have hgiven : Call.results? .empty .default [] [.keyword .string, .object "C" [], .object "c" [],
      .union [.object "C" [], .string]] =
        some [upper, lower, .object "C" [], .string] := by decide +kernel
  have hbelow : LeadsTo .empty (isSubtype lower upper) .yes := by
    constructor <;> cbv
  have habove : LeadsTo .empty (isSubtype upper lower) .maybe := by
    constructor <;> cbv
  have hinter : LeadsTo .empty (Intersection.of .default [lower, upper]) (.object "C" []) := by
    constructor <;> cbv
  exact escapesIntersection_of_calls (by simp) hgiven (by decide +kernel) (by decide) hbelow habove
    (by decide) hinter (by decide)

/-- A class below the class of closures ousts that class, but not `callable`. -/
theorem escapesIntersection_closure :
    let h : Hierarchy := ⟨[Declaration.of "Sub" .plainClass ["Closure"] false false []]⟩
    EscapesIntersection h .default (.inter [.object "Sub" [], .callable])
      (.object "Closure" []) := by
  intro h
  let sub := Ty.object "Sub" []
  let closure := Ty.object "Closure" []
  let both := Ty.inter [sub, .callable]
  have hgiven : Call.results? h .default [] [.object "Sub" [], .keyword .callable,
      .inter [sub, .callable], .object "Closure" []] = some [closure, both, .callable, sub] := by
    cbv
  have hbelow : LeadsTo h (isSubtype both closure) .yes := by
    constructor <;> decide +kernel
  have habove : LeadsTo h (isSubtype closure both) .maybe := by
    constructor <;> decide +kernel
  have hinter : LeadsTo h (Intersection.of .default [both, closure]) sub := by
    have hof : Intersection.of .default [both, closure] =
        Intersection.reduce [.callable, closure, sub] :=
      Intersection.of_compared (by simp) (by simp) (by decide +kernel) (by decide +kernel)
    rw [hof, Intersection.reduce, Intersection.narrowAll_nil]
    simp only [Intersection.narrowAll_single]
    constructor <;> decide +kernel
  exact escapesIntersection_of_calls (by simp) hgiven (by decide +kernel) (by decide) hbelow habove
    (by decide) hinter (by decide)

/-- Of three shapes with the same key a budget of two lets a union merge two, and distribution
the other ones. -/
theorem escapesIntersection_shapes :
    let shape (v : Ty) : Ty := .shape [⟨.text "x", v, false⟩]
    let pair := Ty.union .plain [.literal (.int 1), .literal (.int 2)]
    EscapesIntersection .empty { Options.default with maxUnionShapeMerge := 2 }
      (.union .plain [shape (.literal (.int 3)), shape pair]) (.array .string .int) := by
  intro shape pair
  let options : Options := { Options.default with maxUnionShapeMerge := 2 }
  let one := Ty.literal (.int 1)
  let two := Ty.literal (.int 2)
  let three := Ty.literal (.int 3)
  let slim := Ty.union .plain [shape three, shape pair]
  let wide := Ty.array .string .int
  have hgiven : Call.results? .empty options [] [.int 1, .int 2, .int 3, .keyword .string,
      .keyword .int, .shape [⟨.text "x", one, false⟩], .shape [⟨.text "x", two, false⟩],
      .shape [⟨.text "x", three, false⟩], .union [shape one, shape two, shape three],
      .array .string .int] =
        some [wide, slim, shape three, shape two, shape one, .int, .string, three, two, one] := by
    decide +kernel
  have hbelow : LeadsTo .empty (isSubtype slim wide) .yes := by
    constructor <;> decide +kernel
  have habove : LeadsTo .empty (isSubtype wide slim) .maybe := by
    constructor <;> decide +kernel
  have hinter : LeadsTo .empty (Intersection.of options [slim, wide])
      (shape (.union .plain [one, two, three])) := by
    constructor <;> cbv
  exact escapesIntersection_of_calls (by simp) hgiven (by decide +kernel) (by decide) hbelow habove
    (by decide) hinter (by decide)

/-- A union that has too many pieces is not distributed over. -/
theorem escapesIntersection_pieces :
    let both := Ty.inter [.accessory (.hasProperty "a"), .accessory (.hasProperty "b")]
    EscapesIntersection .empty { Options.default with maxIntersectionDistribution := 1 } both
      (.union .plain [both, .string]) := by
  intro both
  let options : Options := { Options.default with maxIntersectionDistribution := 1 }
  let a := Ty.accessory (.hasProperty "a")
  let b := Ty.accessory (.hasProperty "b")
  let wide := Ty.union .plain [both, .string]
  have hgiven : Call.results? .empty options [] [.keyword .string, .hasProperty "a",
      .hasProperty "b", .inter [a, b], .union [both, .string]] =
        some [wide, both, b, a, .string] := by cbv
  have hbelow : LeadsTo .empty (isSubtype both wide) .yes := by
    constructor <;> cbv
  have habove : LeadsTo .empty (isSubtype wide both) .maybe := by
    constructor <;> cbv
  have hinter : LeadsTo .empty (Intersection.of options [both, wide]) (.inter [a, b, wide]) := by
    constructor <;> cbv
  exact escapesIntersection_of_calls (by simp) hgiven (by decide +kernel) (by decide) hbelow habove
    (by decide) hinter (by decide)

/-- A type that is constructed within the limit without any benevolent union and whose
intersection with itself in a new session is another type. -/
structure EscapesOwnIntersection (h : Hierarchy) (options : Options) (t : Ty) : Prop where
  constructed : ConstructedWithin h options t
  inhabited : t ≠ .error ∧ t ≠ .never
  plain : t.Everywhere fun s => s.isPlain = true
  differs : ((new h options).perform (Intersection.of options [t, t])).1 ≠ t

/-- An intersection that was not distributed becomes distributed when it is made again. -/
theorem escapesOwnIntersection_undistributed :
    EscapesOwnIntersection .empty .default undistributed := by
  obtain ⟨calls, hcalls, hmade⟩ := results?_undistributed
  have hinter : LeadsTo .empty (Intersection.of .default [undistributed, undistributed])
      (.literal (.bool true)) := by
    constructor <;> cbv
  refine ⟨ConstructedWithin.of_calls hcalls hmade _ List.mem_cons_self, by decide, ?_, ?_⟩
  · exact Ty.everywhere_of_everyTo (n := 4) (by decide)
  · rw [hinter.perform]
    decide

end Session
end GradualTypes
