import GradualTypes.Generalize
import GradualTypes.Proofs.Distributivity

/-!
# Benevolent unions that are rewritten

What rewrites a benevolent union member by member puts the marker back on the result, whatever
the members become: this holds for the children of a node, for a tree, and for a generalization.
An intersection that is distributed over a benevolent union does so too, if no plain union is
distributed before.

The union of what an operation makes of the members is an ordinary union.  It is benevolent only
if all results are.
-/

namespace GradualTypes

open Inquiry

/-- The flavor of a union. -/
def Ty.flavor? : Ty -> Option Flavor
  | union flavor _ => some flavor
  | _ => none

theorem Ty.flavor?_of_flat {t : Ty} (hflat : t.unionMembers? = none) : t.flavor? = none := by
  cases t <;> first | rfl | cases hflat

theorem Ty.flavor?_eq_some {t : Ty} {flavor : Flavor} (hflavor : t.flavor? = some flavor) :
    ∃ members, t = .union flavor members := by
  cases t <;> cases hflavor
  exact ⟨_, rfl⟩

/-- An inquiry that may do anything keeps to terms that allow everything. -/
theorem Inquiry.keepsTo_free {α : Type} (replies : Ty -> Ty -> Tristate -> Prop) (q : Inquiry α) :
    q.KeepsTo (.free replies) := by
  induction q with
  | done a => trivial
  | ask s t next ih => exact ⟨trivial, fun r _ => ih r⟩
  | announce t next ih => exact ⟨trivial, ih ()⟩
  | announceText s next ih => exact ih ()
  | restart next ih => exact ⟨trivial, ih ()⟩

/-- An inquiry whose result is no plain union. -/
def KeepsBenevolence (replies : Ty -> Ty -> Tristate -> Prop) (q : Inquiry Ty) : Prop :=
  q.Meets (.free replies) fun t => t.flavor? ≠ some .plain

variable {replies : Ty -> Ty -> Tristate -> Prop} {options : Options} {members : List Ty} {x : Ty}

/-!
# Marked unions
-/

theorem Build.keepsBenevolence_markBenevolent (t : Ty) :
    KeepsBenevolence replies (markBenevolent t) := by
  unfold markBenevolent
  split
  · exact ⟨trivial, by simp [Ty.flavor?]⟩
  · rename_i hplain
    intro hflavor
    obtain ⟨members, rfl⟩ := Ty.flavor?_eq_some hflavor
    exact hplain members rfl

theorem Union.keepsBenevolence_benevolentOf (ts : List Ty) :
    KeepsBenevolence replies (benevolentOf options ts) :=
  Meets.bind (keepsTo_free replies (of options ts)) fun t _ => Build.keepsBenevolence_markBenevolent t

namespace Traversal

theorem keepsBenevolence_update (children : List Ty) :
    KeepsBenevolence replies (update options (.union .benevolent members) children) := by
  unfold update
  split
  · show (Ty.union .benevolent members).flavor? ≠ some .plain
    simp [Ty.flavor?]
  · exact Union.keepsBenevolence_benevolentOf children

theorem keepsBenevolence_mapChildren (f : Ty -> Inquiry Ty) :
    KeepsBenevolence replies (mapChildren options f (.union .benevolent members)) :=
  Meets.bind (keepsTo_free replies (members.mapM f)) fun children _ => keepsBenevolence_update children

/-- A callback that goes on below a benevolent union keeps it benevolent. -/
theorem keepsBenevolence_mapTree {callback : Ty -> (Unit -> Inquiry Ty) -> Inquiry Ty}
    (hcallback : ∀ descend, callback (.union .benevolent members) descend = descend ()) :
    KeepsBenevolence replies (mapTree options callback (.union .benevolent members)) := by
  rw [mapTree, hcallback]
  exact Meets.bind (keepsTo_free replies _) fun children _ => keepsBenevolence_update children

end Traversal

theorem Generalize.keepsBenevolence_generalize (precision : Precision) :
    KeepsBenevolence replies (generalize options precision (.union .benevolent members)) :=
  Traversal.keepsBenevolence_mapTree fun _ => rfl

/-!
# Intersections
-/

namespace Intersection

/-- A benevolent union and types that are no plain unions leave only benevolent unions to
distribute over. -/
theorem keepsBenevolence_of (hx : ∀ m ∈ membersOf x, m.flavor? ≠ some .plain) :
    KeepsBenevolence replies (of options [.union .benevolent members, x]) := by
  have hflat : ∀ t ∈ [.union .benevolent members, x].flatMap membersOf,
      t.flavor? ≠ some .plain := by
    intro t ht
    rcases List.mem_flatMap.mp ht with ⟨s, hs, hts⟩
    rcases List.mem_pair.mp hs with rfl | rfl
    · rw [List.mem_singleton.mp hts]
      simp [Ty.flavor?]
    · exact hx t hts
  cases hprepare : prepare [.union .benevolent members, x] with
  | inl t =>
      rw [of_settled (by simp) (by simp) hprepare]
      show t.flavor? ≠ some .plain
      cases prepares_of_eq hprepare with
      | single ht hopen hothers => exact hflat t ht
      | _ => simp [Ty.flavor?]
  | inr kept =>
      cases prepares_of_eq hprepare with
      | several htwo hnodup hopen hmem =>
          have hkept : ∀ t ∈ kept, t.flavor? ≠ some .plain := fun t ht => hflat t ((hmem t).mp ht).1
          cases hdistribute : toDistribute? options.maxIntersectionDistribution kept with
          | none =>
              rw [of_compared (by simp) (by simp) hprepare hdistribute]
              refine (meets_reduce_from replies kept).imp fun t ht => ?_
              rcases ht with (ht | hscalar) | ⟨left, rfl, -⟩
              · exact hkept t ht
              · have hflat := Ty.unionMembers?_of_isSimple (Ty.isSimple_of_isScalar hscalar)
                simp [Ty.flavor?_of_flat hflat]
              · simp [Ty.flavor?]
          | some found =>
              obtain ⟨flavor, alternatives, rest⟩ := found
              rw [of_distributed (by simp) (by simp) hprepare hdistribute]
              have hfirst := (mem_of_firstUnion? (firstUnion?_of_toDistribute? hdistribute)).1
              cases flavor with
              | plain => exact absurd rfl (hkept _ hfirst)
              | benevolent =>
                  exact Meets.bind (keepsTo_free replies _) fun parts _ =>
                    Union.keepsBenevolence_benevolentOf parts

end Intersection

/-!
# Unions of results
-/

/-- The union of types none of which is a plain union has the flavor of them together. -/
theorem Union.hasFlavor_of {ts : List Ty} (hformed : ∀ t ∈ ts, Ty.Formed replies t)
    (hplain : ∀ t ∈ ts, t.flavor? ≠ some .plain) :
    (of options ts).Meets (.building replies) (HasFlavor (flavorOf ts)) := by
  match ts with
  | [] => exact hasFlavor_of_flat rfl
  | [t] =>
      have hone : of options [t] = pure t := by simp [of, upTo]
      rw [hone]
      rintro (_ | _) alternatives rfl
      · exact absurd rfl (hplain _ List.mem_cons_self)
      · rfl
  | t :: u :: rest =>
      exact (meets_upTo hformed fun _ ht => Ty.height_le_heights ht).imp
        fun _ hr => hr.2.2 (by simp)

/-- The union of what the members become is benevolent only if all results that are no errors
are, where `never` counts as benevolent. -/
theorem Traversal.meets_mapUnion {g : Ty -> Ty} (hformed : ∀ m ∈ members, Ty.Formed replies (g m))
    (hplain : ∀ m ∈ members, (g m).flavor? ≠ some .plain) :
    (mapUnion options (fun m => (pure (g m) : Inquiry Ty)) (.union .benevolent members)).Meets
      (.building replies) fun t => ∀ flavor, t.flavor? = some flavor ->
        (flavor = .benevolent ↔
          ∀ m ∈ members, g m ≠ .error -> Union.keepsBenevolence (g m) = true) := by
  let results := (members.map g).filter (· != .error)
  have hresults : ∀ t ∈ results, ∃ m ∈ members, g m = t := by
    intro t ht
    exact List.mem_map.mp (List.mem_filter.mp ht).1
  have hflavor : Union.flavorOf results = .benevolent ↔
      ∀ m ∈ members, g m ≠ .error -> Union.keepsBenevolence (g m) = true := by
    simp [Union.flavorOf, results]
  rw [mapUnion_pure]
  refine (Union.hasFlavor_of (fun t ht => ?_) fun t ht => ?_).imp fun r hr flavor hr' => ?_
  · obtain ⟨m, hm, rfl⟩ := hresults t ht
    exact hformed m hm
  · obtain ⟨m, hm, rfl⟩ := hresults t ht
    exact hplain m hm
  · obtain ⟨alternatives, rfl⟩ := Ty.flavor?_eq_some hr'
    rw [← hflavor, hr flavor alternatives rfl]

/-!
# Rewrites in a session
-/

namespace Session

open GradualTypes.Intersection (HasFewPieces)
open GradualTypes.Traversal (mapChildren mapTree mapUnion)

variable {h : Hierarchy} {options₁ made : Options} {σ : Session} {t : Ty} {q : Inquiry Ty}

/-- A benevolent union that is constructed within the limit, and of which an inquiry makes a
plain union in a new session. -/
structure LosesBenevolence (h : Hierarchy) (options : Options) (t : Ty) (q : Inquiry Ty) : Prop where
  constructed : ConstructedWithin h options t
  benevolent : t.flavor? = some .benevolent
  plain : ((new h options).perform q).1.flavor? = some .plain

theorem losesBenevolence_of_calls {calls : List Call} {given : List Ty} {r : Ty}
    (hcalls : ∀ c ∈ calls, c ≠ .placeholder)
    (hgiven : Call.results? h options [] calls = some given) (ht : t ∈ given)
    (hbenevolent : t.flavor? = some .benevolent) (hq : LeadsTo h q r)
    (hplain : r.flavor? = some .plain) : LosesBenevolence h options t q := by
  refine ⟨ConstructedWithin.of_calls hcalls hgiven t ht, hbenevolent, ?_⟩
  rw [hq.perform]
  exact hplain

/-- Where all members stay the same, their union is plain. -/
theorem losesBenevolence_mapUnion :
    let t := Ty.union .benevolent [.int, .string]
    LosesBenevolence .empty .default t (mapUnion .default pure t) := by
  intro t
  have hgiven : Call.results? .empty .default [] [.keyword .int, .keyword .string,
      .benevolent [.int, .string]] = some [t, .string, .int] := by decide +kernel
  have hmapped : LeadsTo .empty (mapUnion .default pure t) (.union .plain [.int, .string]) := by
    constructor <;> decide +kernel
  exact losesBenevolence_of_calls (by simp) hgiven (by simp) rfl hmapped rfl

/-- Of an intersection that has too many pieces, and of which one union is dropped only later, the
first union that is left is distributed first. -/
theorem losesBenevolence_undistributed :
    let options : Options := { Options.default with maxIntersectionDistribution := 18 }
    let t := Ty.union .benevolent [.literal (.bool true), .null]
    let first := Ty.union .plain [.literal (.text "a"), .literal (.bool true), .null]
    let second := Ty.union .plain [.literal (.text "b"), .literal (.bool true), .null]
    ConstructedWithin .empty options (.inter [first, second]) ∧
      HasFewPieces options [t, .inter [first, second]] ∧
      LosesBenevolence .empty options t (Intersection.of options [t, .inter [first, second]]) := by
  intro options t first second
  let a := Ty.literal (.text "a")
  let b := Ty.literal (.text "b")
  let yes := Ty.literal (.bool true)
  let wide := Ty.union .plain [.int, a, yes, .null]
  have hgiven : Call.results? .empty options [] [.text "a", .text "b", .bool true, .keyword .null,
      .keyword .int, .union [a, yes, .null], .union [b, yes, .null], .union [.int, a, yes, .null],
      .inter [first, second, wide], .benevolent [yes, .null]] =
        some [t, .inter [first, second], wide, second, first, .int, .null, yes, b, a] := by
    cbv
  have hinter : LeadsTo .empty (Intersection.of options [t, .inter [first, second]])
      (.union .plain [yes, .null]) := by
    constructor <;> cbv
  refine ⟨ConstructedWithin.of_calls (by simp) hgiven _ (by simp), by decide, ?_⟩
  exact losesBenevolence_of_calls (by simp) hgiven (by simp) rfl hinter rfl

/-- Two ways in which a benevolent union becomes a plain one, although neither the results for its
members nor the other type are plain unions: the union of the results, and the intersection with
one that was not distributed. -/
theorem benevolence_lost :
    let t := Ty.union .benevolent [.int, .string]
    let options : Options := { Options.default with maxIntersectionDistribution := 18 }
    let t' := Ty.union .benevolent [.literal (.bool true), .null]
    let x := Ty.inter [.union .plain [.literal (.text "a"), .literal (.bool true), .null],
      .union .plain [.literal (.text "b"), .literal (.bool true), .null]]
    ((∀ m ∈ t.children, ConstructedWithin .empty .default m ∧ m ≠ .error ∧ m.flavor? = none) ∧
        LosesBenevolence .empty .default t (mapUnion .default pure t)) ∧
      ((ConstructedWithin .empty options x ∧ x.flavor? = none ∧ HasFewPieces options [t', x]) ∧
        LosesBenevolence .empty options t' (Intersection.of options [t', x])) := by
  intro t options t' x
  obtain ⟨hx, hfew, hlost⟩ := losesBenevolence_undistributed
  refine ⟨⟨?_, losesBenevolence_mapUnion⟩, ⟨hx, rfl, hfew⟩, hlost⟩
  have hgiven : Call.results? .empty .default [] [.keyword .int, .keyword .string] =
      some [.string, .int] := by decide +kernel
  have hmade := ConstructedWithin.of_calls (by simp) hgiven
  intro m hm
  refine ⟨hmade m ?_, ?_⟩
  · simpa [t, Ty.children, or_comm] using hm
  · rcases List.mem_pair.mp hm with rfl | rfl <;> decide

/-- What a session makes of a benevolent union is no plain union, whether its children are mapped,
a callback goes on below it, it is generalized, or it is intersected with a type that neither is a
plain union nor has one among its members.  The union of what its members become is benevolent just if
all of these are that are no errors, where `never` counts as benevolent. -/
theorem flavor_of_rewritten (hσ : Reachable h options₁ σ) {f : Ty -> Inquiry Ty} {g : Ty -> Ty}
    {callback : Ty -> (Unit -> Inquiry Ty) -> Inquiry Ty}
    (hcallback : ∀ descend, callback (.union .benevolent members) descend = descend ())
    (hg : ∀ m ∈ members, Constructed h options (g m) ∧ (g m).flavor? ≠ some .plain)
    (hx : ∀ m ∈ Intersection.membersOf x, m.flavor? ≠ some .plain) (precision : Precision) :
    let t := Ty.union .benevolent members
    let results := mapUnion made (fun m => (pure (g m) : Inquiry Ty)) t
    (∀ q ∈ [mapChildren made f t, mapTree made callback t, generalize made precision t,
        Intersection.of made [t, x]], (σ.perform q).1.flavor? ≠ some .plain) ∧
      ∀ flavor, (σ.perform results).1.flavor? = some flavor ->
        (flavor = .benevolent ↔
          ∀ m ∈ members, g m ≠ .error -> Union.keepsBenevolence (g m) = true) := by
  intro t results
  constructor
  · have hkeeps : ∀ q ∈ [mapChildren made f t, mapTree made callback t, generalize made precision t,
        Intersection.of made [t, x]], KeepsBenevolence (Run.soundly h) q := by
      simp only [List.forall_mem_cons, List.not_mem_nil, false_imp_iff, implies_true, and_true]
      exact ⟨Traversal.keepsBenevolence_mapChildren f, Traversal.keepsBenevolence_mapTree hcallback,
        Generalize.keepsBenevolence_generalize precision, Intersection.keepsBenevolence_of hx⟩
    exact fun q hq => hσ.meets (hkeeps q hq)
  · exact hσ.meets (Traversal.meets_mapUnion (fun m hm => (hg m hm).1.formed)
      fun m hm => (hg m hm).2).free

/-- An integer and a text, of which the first becomes a benevolent union and the second nothing. -/
theorem flavor_of_rewritten_integers :
    let σ := new .empty .default
    let t := Ty.union .benevolent [.literal (.int 1), .string]
    let g (m : Ty) : Ty := if m = .string then .never else .union .benevolent [.int, .string]
    let callback (_ : Ty) (descend : Unit -> Inquiry Ty) : Inquiry Ty := descend ()
    let results := mapUnion .default (fun m => (pure (g m) : Inquiry Ty)) t
    (∀ q ∈ [mapChildren .default (fun _ => pure .int) t, mapTree .default callback t,
        generalize .default .lessSpecific t, Intersection.of .default [t, .string]],
      (σ.perform q).1.flavor? ≠ some .plain) ∧
      ∀ flavor, (σ.perform results).1.flavor? = some flavor ->
        (flavor = .benevolent ↔ ∀ m ∈ [.literal (.int 1), .string],
          g m ≠ .error -> Union.keepsBenevolence (g m) = true) := by
  intro σ t g callback results
  have hgiven : Call.results? .empty .default [] [.keyword .string, .keyword .int, .keyword .never,
      .benevolent [.int, .string]] =
        some [.union .benevolent [.int, .string], .never, .int, .string] := by decide +kernel
  have hmade := ConstructedWithin.of_calls (by simp) hgiven
  have hg : ∀ m ∈ [.literal (.int 1), .string],
      Constructed .empty .default (g m) ∧ (g m).flavor? ≠ some .plain := by
    rw [List.forall_mem_cons, List.forall_mem_singleton]
    constructor
    · exact ⟨(hmade _ (by simp [g])).constructed, by decide⟩
    · exact ⟨(hmade _ (by simp [g])).constructed, by decide⟩
  exact flavor_of_rewritten .new (fun _ => rfl) hg (by decide) .lessSpecific

end Session
end GradualTypes
