import GradualTypes.Proofs.DistributiveLaw
import GradualTypes.Proofs.UnionGrouping

/-!
# Intersections with a union in a session

An intersection with a union is not always the union of the intersections with its parts.
Where shapes with the same keys are merged or intervals are joined, the union has more in
common with another type than its parts have; where it is found to share no value with
that type, it has less than a part that is below the union.  An intersection that was not
distributed may be so when it is made again, and a class that extends the class of closures
makes the relation intransitive.  Last, of two spellings of a class a union keeps one.

Apart from this and from the depth limit it makes no difference which comes first.
-/

namespace GradualTypes

open Inquiry
open GradualTypes.Intersection (HasFewPieces IsCross IsPart IsShare KeepsPieces common)
open GradualTypes.Subtype (Contained exact)

variable {h : Hierarchy}

/-- Whether a type is no benevolent union. -/
def Ty.isPlain : Ty -> Bool
  | union .benevolent _ => false
  | _ => true

namespace Session

variable {α β : Type} {options made : Options} {q : Inquiry α} {r : α} {a b c l p u v x y : Ty}

/-!
# Results that exact answers lead to
-/

/-- An inquiry that asks light questions only comes to a result if exact answers lead it. -/
structure LeadsTo (h : Hierarchy) (q : Inquiry α) (r : α) : Prop where
  light : isLight h q = true
  value : q.value (exact h) = r

theorem LeadsTo.pure (h : Hierarchy) (r : α) : LeadsTo h (Pure.pure r) r :=
  ⟨rfl, rfl⟩

theorem LeadsTo.bind {f : α -> Inquiry β} {s : β} (hq : LeadsTo h q r) (hf : LeadsTo h (f r) s) :
    LeadsTo h (q >>= f) s where
  light := by rw [isLight_bind, hq.light, hq.value, hf.light]; rfl
  value := by rw [value_bind, hq.value, hf.value]

theorem LeadsTo.perform (hq : LeadsTo h q r) (options : Options) :
    ((new h options).perform q).1 = r :=
  (perform_new hq.light).2.trans hq.value

/-- A session makes something of an inquiry and does not meet the limit on the way. -/
def Yields (h : Hierarchy) (q : Inquiry α) (r : α) : Prop :=
  ∃ options σ, Reachable h options σ ∧ σ.Within (answer relationDepth) q ∧ (σ.perform q).1 = r

theorem Yields.value (hq : Yields h q r) : q.value (exact h) = r := by
  obtain ⟨options, σ, hσ, hwithin, rfl⟩ := hq
  exact (hσ.value_of_within hwithin).symm

theorem yields_of_light (hq : isLight h q = true) : Yields h q ((new h options).perform q).1 :=
  ⟨options, new h options, .new, (perform_new hq).1, rfl⟩

theorem LeadsTo.yields (hq : LeadsTo h q r) : Yields h q r :=
  hq.perform .default ▸ yields_of_light hq.light

/-!
# Intersections that depend on the order
-/

/-- The intersection of the union of two types with a third one, and the union of their
intersections with it. -/
def bothOrders (options : Options) (a b c : Ty) : Inquiry (Ty × Ty) := do
  let u ← Union.of options [a, b]
  let l ← Intersection.of options [u, c]
  let p ← Intersection.of options [a, c]
  let q ← Intersection.of options [b, c]
  let r ← Union.of options [p, q]
  return (l, r)

/-- Three types that are constructed within the limit without any benevolent union, and
that make a difference in a new session. -/
structure DependsOnOrder (h : Hierarchy) (a b c : Ty) : Prop where
  constructed : ∀ t ∈ [a, b, c], ConstructedWithin h .default t
  plain : ∀ t ∈ [a, b, c], t.Everywhere fun s => s.isPlain = true
  few : ∀ t ∈ [a, b, ((new h .default).perform (Union.of .default [a, b])).1],
    HasFewPieces .default [t, c]
  differs : ((new h .default).perform (bothOrders .default a b c)).1.1 ≠
    ((new h .default).perform (bothOrders .default a b c)).1.2

theorem dependsOnOrder_of_calls {calls : List Call} {given : List Ty} {r : Ty}
    (hcalls : ∀ c ∈ calls, c ≠ .placeholder)
    (hgiven : Call.results? h .default [] calls = some given)
    (hmem : ∀ t ∈ [a, b, c], t ∈ given ∧ t.everyTo Ty.isPlain 4 = true)
    (hu : LeadsTo h (Union.of .default [a, b]) u)
    (hfew : ∀ t ∈ [a, b, u], HasFewPieces .default [t, c])
    (hboth : LeadsTo h (bothOrders .default a b c) (l, r)) (hne : l ≠ r) :
    DependsOnOrder h a b c := by
  refine ⟨fun t ht => ?_, fun t ht => Ty.everywhere_of_everyTo (hmem t ht).2, ?_, ?_⟩
  · exact ConstructedWithin.of_calls hcalls hgiven t (hmem t ht).1
  · rw [hu.perform]
    exact hfew
  · rw [hboth.perform]
    exact hne

/-- One of two adjacent intervals has only an integer in common with a third interval. -/
theorem dependsOnOrder_integers :
    let between (lo hi : Int) : IntRange := ⟨some lo, some hi⟩
    DependsOnOrder .empty (.range (between 0 4)) (.range (between 5 9)) (.range (between 4 6)) := by
  intro between
  have hgiven : Call.results? .empty .default [] [.range (between 4 6), .range (between 5 9),
      .range (between 0 4)] =
        some [.range (between 0 4), .range (between 5 9), .range (between 4 6)] := by
    decide +kernel
  have hboth : LeadsTo .empty (bothOrders .default (.range (between 0 4)) (.range (between 5 9))
      (.range (between 4 6)))
      (.range (between 4 6), .union .plain [.literal (.int 4), .range (between 5 6)]) := by
    constructor <;> cbv
  exact dependsOnOrder_of_calls (by simp) hgiven (by decide +kernel) ⟨by decide +kernel, by rfl⟩
    (by decide +kernel) hboth (by simp)

/-- The merged shape has more values than the two alternatives. -/
theorem dependsOnOrder_alternatives :
    let pair (m n : Int) : List (Entry Ty) :=
      [⟨.text "x", .literal (.int m), false⟩, ⟨.text "y", .literal (.int n), false⟩]
    DependsOnOrder .empty (.shape (pair 1 1)) (.shape (pair 2 2)) (.shape (pair 1 2)) := by
  intro pair
  have hgiven : Call.results? .empty .default [] [.int 1, .int 2, .shape (pair 1 2),
      .shape (pair 2 2), .shape (pair 1 1)] =
        some [.shape (pair 1 1), .shape (pair 2 2), .shape (pair 1 2), .literal (.int 2),
          .literal (.int 1)] := by
    decide +kernel
  have hboth : LeadsTo .empty (bothOrders .default (.shape (pair 1 1)) (.shape (pair 2 2))
      (.shape (pair 1 2))) (.shape (pair 1 2), .never) := by
    constructor <;> cbv
  exact dependsOnOrder_of_calls (by simp) hgiven (by decide +kernel) ⟨by decide +kernel, by rfl⟩
    (by decide +kernel) hboth (by simp)

/-- Two pieces are merged that were not alternatives of one type. -/
theorem dependsOnOrder_pieces :
    let pair (n : Int) : Ty :=
      .shape [⟨.text "x", .literal (.int n), false⟩, ⟨.text "y", .literal (.int n), false⟩]
    let items (n : Int) : Ty := .array .string (.literal (.int n))
    DependsOnOrder .empty (.union .plain [pair 1, items 2]) (items 1)
      (.union .plain [pair 2, items 1]) := by
  intro pair items
  let either := Ty.union .plain [.literal (.int 1), .literal (.int 2)]
  let merged := Ty.shape [⟨.text "x", either, false⟩, ⟨.text "y", either, false⟩]
  have hgiven : Call.results? .empty .default [] [.keyword .string, .int 1, .int 2,
      .shape [⟨.text "x", .literal (.int 1), false⟩, ⟨.text "y", .literal (.int 1), false⟩],
      .shape [⟨.text "x", .literal (.int 2), false⟩, ⟨.text "y", .literal (.int 2), false⟩],
      .array .string (.literal (.int 1)), .array .string (.literal (.int 2)),
      .union [pair 2, items 1], .union [pair 1, items 2]] =
        some [.union .plain [pair 1, items 2], .union .plain [pair 2, items 1], items 2, items 1,
          pair 2, pair 1, .literal (.int 2), .literal (.int 1), .string] := by
    decide +kernel
  have hboth : LeadsTo .empty (bothOrders .default (.union .plain [pair 1, items 2]) (items 1)
      (.union .plain [pair 2, items 1]))
      (.union .plain [pair 2, items 1], .union .plain [merged, items 1]) := by
    constructor <;> cbv
  exact dependsOnOrder_of_calls (by simp) hgiven (by decide +kernel) ⟨by decide +kernel, by rfl⟩
    (by decide +kernel) hboth (by simp [pair, merged])

/-- The union of two array types that contain the empty shape is found to share no value with
a third one. -/
theorem dependsOnOrder_disjoint :
    DependsOnOrder .empty (.shape []) (.array .int .string) (.array .int .int) := by
  have hgiven : Call.results? .empty .default [] [.keyword .int, .keyword .string,
      .array .int .int, .array .int .string, .shape []] =
        some [.shape [], .array .int .string, .array .int .int, .string, .int] := by
    decide +kernel
  have hboth : LeadsTo .empty (bothOrders .default (.shape []) (.array .int .string)
      (.array .int .int)) (.never, .shape []) := by
    constructor <;> cbv
  exact dependsOnOrder_of_calls (by simp) hgiven (by decide +kernel) ⟨by decide +kernel, by rfl⟩
    (by decide +kernel) hboth (by simp)

/-- An alternative that was not distributed becomes distributed on its own. -/
theorem dependsOnOrder_undistributed :
    DependsOnOrder .empty undistributed .int .mixed := by
  obtain ⟨calls, hcalls, hmade⟩ := results?_undistributed
  have hmixed : Call.results? .empty .default (undistributed :: beforeUndistributed)
      [.keyword .mixed] = some (.mixed :: undistributed :: beforeUndistributed) := by
    decide +kernel
  have hcalls' : ∀ c ∈ calls ++ [.keyword .mixed], c ≠ .placeholder := by
    rw [List.forall_mem_append]
    exact ⟨hcalls, by simp⟩
  have hboth : LeadsTo .empty (bothOrders .default undistributed .int .mixed)
      (.union .plain [undistributed, .int], .union .plain [.int, .literal (.bool true)]) := by
    constructor <;> cbv
  exact dependsOnOrder_of_calls hcalls' (Call.results?_append hmade hmixed) (by decide +kernel)
    ⟨by decide +kernel, by rfl⟩ (by decide +kernel) hboth (by decide)

theorem leadsTo_bothOrders {q r : Ty} (hu : LeadsTo h (Union.of options [a, b]) u)
    (hl : LeadsTo h (Intersection.of options [u, c]) l)
    (hp : LeadsTo h (Intersection.of options [a, c]) p)
    (hq : LeadsTo h (Intersection.of options [b, c]) q)
    (hr : LeadsTo h (Union.of options [p, q]) r) : LeadsTo h (bothOrders options a b c) (l, r) :=
  hu.bind (hl.bind (hp.bind (hq.bind (hr.bind (.pure h (l, r))))))

/-- If two types are to be compared, the intersection is what their reduction leads to. -/
theorem leadsTo_of_pair {s t r : Ty} (x y : Ty)
    (hprepare : Intersection.prepare [s, t] = .inr [x, y])
    (hdistribute : Intersection.toDistribute? options.maxIntersectionDistribution [x, y] = none)
    (hreduce : LeadsTo h (Intersection.reduce [x, y]) r) :
    LeadsTo h (Intersection.of options [s, t]) r := by
  rw [Intersection.of_compared (by simp) (by simp) hprepare hdistribute]
  exact hreduce

example : LeadsTo .empty (Intersection.of .default [.int, .mixed]) .int :=
  ⟨by decide +kernel, by decide +kernel⟩

/-- A class below the class of closures, but not below `callable`. -/
theorem dependsOnOrder_closure :
    let h : Hierarchy := ⟨[Declaration.of "Sub" .plainClass ["Closure"] false false []]⟩
    DependsOnOrder h (.object "Closure" []) .callable (.object "Sub" []) := by
  intro h
  let sub := Ty.object "Sub" []
  let closure := Ty.object "Closure" []
  have hgiven : Call.results? h .default [] [.keyword .callable, .object "Closure" [],
      .object "Sub" []] = some [sub, closure, .callable] := by decide +kernel
  have hu : LeadsTo h (Union.of .default [closure, .callable]) .callable :=
    ⟨by decide +kernel, by decide +kernel⟩
  have hl : LeadsTo h (Intersection.of .default [.callable, sub]) (.inter [sub, .callable]) := by
    refine leadsTo_of_pair .callable sub (by decide +kernel) (by decide +kernel) ?_
    rw [Intersection.reduce_pair]
    constructor <;> decide +kernel
  have hp : LeadsTo h (Intersection.of .default [closure, sub]) sub := by
    refine leadsTo_of_pair closure sub (by decide +kernel) (by decide +kernel) ?_
    rw [Intersection.reduce_pair]
    constructor <;> decide +kernel
  have hr : LeadsTo h (Union.of .default [sub, .inter [sub, .callable]]) sub :=
    ⟨by decide +kernel, by decide +kernel⟩
  exact dependsOnOrder_of_calls (by simp) hgiven (by decide +kernel) hu (by decide +kernel)
    (leadsTo_bothOrders hu hl hp hl hr) (by decide)

/-- The union has kept the last one of two spellings of a class, but what they have in common
with another type is put in the other order. -/
theorem dependsOnOrder_spelling :
    let named := Ty.accessory (.hasProperty "p")
    DependsOnOrder .empty (.inter [.object "c" [], named]) (.object "C" []) named := by
  intro named
  let upper := Ty.object "C" []
  let lower := Ty.object "c" []
  have hgiven : Call.results? .empty .default [] [.object "C" [], .object "c" [],
      .hasProperty "p", .inter [lower, named]] =
        some [.inter [lower, named], named, lower, upper] := by cbv
  have hu : LeadsTo .empty (Union.of .default [.inter [lower, named], upper]) upper := by
    constructor <;> cbv
  have hboth : LeadsTo .empty (bothOrders .default (.inter [lower, named]) upper named)
      (.inter [upper, named], .inter [lower, named]) := by
    constructor <;> cbv
  exact dependsOnOrder_of_calls (by simp) hgiven (by decide +kernel) hu (by decide +kernel) hboth
    (by decide)

/-- The pieces of two intervals that overlap, of which one has a single integer in common with
a third one, and of a shape. -/
theorem keepsPieces_intervals :
    let between (lo hi : Int) : Ty := .range ⟨some lo, some hi⟩
    let wide := Ty.shape [⟨.text "x", .int, false⟩]
    let one := Ty.shape [⟨.text "x", .literal (.int 1), false⟩]
    KeepsPieces .empty .default (.union .plain [between 0 4, .string])
      (.union .plain [wide, between 3 9]) (.union .plain [one, between 4 12])
      (.union .plain [wide, between 0 9, .string]) := by
  intro between wide one
  let meet (x y : Ty) : Ty :=
    if y = one then if x = wide then one else .never
    else if x = wide ∨ x = .string then .never
    else if x = between 0 4 then .literal (.int 4)
    else between 4 9
  have hmeet : ∀ x ∈ [between 0 4, .string, wide, between 3 9] ++ [wide, between 0 9, .string],
      ∀ y ∈ [one, between 4 12], common .empty .default x y = meet x y := by
    intro x hx y hy
    simp only [List.cons_append, List.nil_append, List.mem_cons, List.not_mem_nil,
      or_false] at hx hy
    rcases hx with rfl | rfl | rfl | rfl | rfl | rfl | rfl <;> rcases hy with rfl | rfl <;> cbv
  exact Intersection.keepsPieces_of_table rfl hmeet (by decide +kernel) (by decide +kernel)
    (by decide +kernel) (by decide +kernel) (by decide +kernel)

end Session
end GradualTypes
