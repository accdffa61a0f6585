import GradualTypes.Proofs.Absorption
import GradualTypes.Proofs.Distributivity

/-!
# Unions of related types in a session

The union of a type with itself, or with a type below it, need not be that type.  Shapes with
the same keys that an earlier union had no budget to merge are merged by the next one.  Of two
spellings of a class a union keeps the last one, whichever type it comes from.  A class that
extends the class of closures absorbs what an alternative of the wider type stands for, and a
boolean literal that an intersection would absorb becomes `bool` with another one before.

Apart from this and from the depth limit such a union is the wider type.
-/

namespace GradualTypes
namespace Session

open Inquiry
open GradualTypes.Subtype (Contained exact weight)
open GradualTypes.Union (HasLastSpellings IsDistributed KeepsShapes membersOf)

variable {h : Hierarchy} {options options₁ options₂ made : Options} {σ σ' : Session} {a b u : Ty}

/-!
# Unions that are not the wider type
-/

/-- Two types that are constructed within the limit, the first one of which is found to be
below the second one and not the other way round, while their union in a new session is not
the second one. -/
structure EscapesUnion (h : Hierarchy) (options : Options) (a b : Ty) : Prop where
  constructed : ∀ t ∈ [a, b], ConstructedWithin h options t
  noError : ∀ t ∈ [a, b], t ≠ .error
  plain : b.isPlain = true
  below : ((new h options).perform (isSubtype a b)).1 = .yes
  notAbove : ((new h options).perform (isSubtype b a)).1 ≠ .yes
  differs : ((new h options).perform (Union.of options [a, b])).1 ≠ b

theorem escapesUnion_of_calls {calls : List Call} {given : List Ty} {r : Tristate}
    (hcalls : ∀ c ∈ calls, c ≠ .placeholder)
    (hgiven : Call.results? h options [] calls = some given)
    (hmem : ∀ t ∈ [a, b], t ∈ given ∧ t ≠ .error) (hplain : b.isPlain = true)
    (hbelow : LeadsTo h (isSubtype a b) .yes) (habove : LeadsTo h (isSubtype b a) r)
    (hr : r ≠ .yes) (hunion : LeadsTo h (Union.of options [a, b]) u) (hne : u ≠ b) :
    EscapesUnion h options a b where
  constructed := fun t ht => ConstructedWithin.of_calls hcalls hgiven t (hmem t ht).1
  noError := fun t ht => (hmem t ht).2
  plain := hplain
  below := hbelow.perform options
  notAbove := by rwa [habove.perform]
  differs := by rwa [hunion.perform]

/-- A union keeps the last one of two spellings of a class. -/
theorem escapesUnion_spelling :
    EscapesUnion .empty .default (.object "c" []) (.union .plain [.object "C" [], .string]) := by
  let lower := Ty.object "c" []
  let upper := Ty.union .plain [.object "C" [], .string]
  have hgiven : Call.results? .empty .default [] [.keyword .string, .object "C" [], .object "c" [],
      .union [.object "C" [], .string]] =
        some [upper, lower, .object "C" [], .string] := by decide +kernel
  have hbelow : LeadsTo .empty (isSubtype lower upper) .yes := by
    constructor <;> cbv
  have habove : LeadsTo .empty (isSubtype upper lower) .maybe := by
    constructor <;> cbv
  have hunion : LeadsTo .empty (Union.of .default [lower, upper])
      (.union .plain [lower, .string]) := by
    constructor <;> cbv
  exact escapesUnion_of_calls (by simp) hgiven (by decide +kernel) rfl hbelow habove (by decide)
    hunion (by decide)

/-- A class below the class of closures is absorbed by it, and the class of closures by
`callable`. -/
theorem escapesUnion_closure :
    let h : Hierarchy := ⟨[Declaration.of "Bar" .plainClass ["Closure"] false false []]⟩
    EscapesUnion h .default (.object "Closure" []) (.union .plain [.object "Bar" [], .callable]) := by
  intro h
  let closure := Ty.object "Closure" []
  let wide := Ty.union .plain [.object "Bar" [], .callable]
  have hgiven : Call.results? h .default [] [.keyword .callable, .object "Closure" [],
      .object "Bar" [], .union [.object "Bar" [], .callable]] =
        some [wide, .object "Bar" [], closure, .callable] := by decide +kernel
  have hbelow : LeadsTo h (isSubtype closure wide) .yes := by
    constructor <;> decide +kernel
  have habove : LeadsTo h (isSubtype wide closure) .maybe := by
    constructor <;> decide +kernel
  have hunion : LeadsTo h (Union.of .default [closure, wide]) .callable := by
    constructor <;> decide +kernel
  exact escapesUnion_of_calls (by simp) hgiven (by decide +kernel) rfl hbelow habove (by decide)
    hunion (by decide)

/-- A boolean literal becomes `bool` with another one before an intersection absorbs it. -/
theorem escapesUnion_undistributed :
    EscapesUnion .empty .default (.literal (.bool true))
      (.union .plain [undistributed, .literal (.bool false)]) := by
  let wide := Ty.union .plain [undistributed, .literal (.bool false)]
  obtain ⟨calls, hcalls, hmade⟩ := results?_undistributed
  have hwide : Call.results? .empty .default (undistributed :: beforeUndistributed)
      [.union [undistributed, .literal (.bool false)]] =
        some (wide :: undistributed :: beforeUndistributed) := by decide +kernel
  have hcalls' : ∀ c ∈ calls ++ [.union [undistributed, .literal (.bool false)]],
      c ≠ .placeholder := by
    rw [List.forall_mem_append]
    exact ⟨hcalls, by simp⟩
  have hbelow : LeadsTo .empty (isSubtype (.literal (.bool true)) wide) .yes := by
    constructor <;> decide +kernel
  have habove : LeadsTo .empty (isSubtype wide (.literal (.bool true))) .maybe := by
    constructor <;> decide +kernel
  have hunion : LeadsTo .empty (Union.of .default [.literal (.bool true), wide])
      (.union .plain [undistributed, .bool]) := by
    constructor <;> decide +kernel
  exact escapesUnion_of_calls hcalls' (Call.results?_append hmade hwide) (by decide +kernel) rfl
    hbelow habove (by decide) hunion (by decide)

/-- A type that is constructed within the limit and whose union with itself in a new session
is another type. -/
structure EscapesOwnUnion (h : Hierarchy) (options : Options) (t : Ty) : Prop where
  constructed : ConstructedWithin h options t
  noError : t ≠ .error
  differs : ((new h options).perform (Union.of options [t, t])).1 ≠ t

/-- Of three shapes with the same key a budget of two lets a union merge two, and the union
of the result with itself the other ones. -/
theorem escapesOwnUnion_shapes :
    let shape (v : Ty) : Ty := .shape [⟨.text "x", v, false⟩]
    let pair := Ty.union .plain [.literal (.int 1), .literal (.int 2)]
    EscapesOwnUnion .empty { Options.default with maxUnionShapeMerge := 2 }
      (.union .plain [shape (.literal (.int 3)), shape pair]) := by
  intro shape pair
  let options : Options := { Options.default with maxUnionShapeMerge := 2 }
  let one := Ty.literal (.int 1)
  let two := Ty.literal (.int 2)
  let three := Ty.literal (.int 3)
  let t := Ty.union .plain [shape three, shape pair]
  have hgiven : Call.results? .empty options [] [.int 1, .int 2, .int 3,
      .shape [⟨.text "x", one, false⟩], .shape [⟨.text "x", two, false⟩],
      .shape [⟨.text "x", three, false⟩], .union [shape one, shape two, shape three]] =
        some [t, shape three, shape two, shape one, three, two, one] := by decide +kernel
  have hunion : LeadsTo .empty (Union.of options [t, t])
      (shape (.union .plain [one, two, three])) := by
    constructor <;> cbv
  refine ⟨ConstructedWithin.of_calls (by simp) hgiven t List.mem_cons_self, by simp, ?_⟩
  rw [hunion.perform]
  decide

end Session
end GradualTypes
