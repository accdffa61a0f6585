import GradualTypes.Proofs.Announcements
import GradualTypes.Proofs.Storage

/-!
# Stored intersections

The members of a stored intersection are independent of one another, since they were
formed by a reduction.  They contain a union only where distribution was given up: the
call that has compared them with one another found too many pieces.

That call need not be one of the run.  An intersection may be stored on the way to
another type, as a piece of an intersection that is distributed; the piece is then an
intersection of its own.  So the statement is about every stored intersection, and
says that there is such a call.
-/

namespace GradualTypes
namespace Intersection

open Inquiry
open GradualTypes.Subtype (exact)
open GradualTypes.Ty (Formed)

variable {h : Hierarchy} {options : Options} {members sources : List Ty}

/-!
# Normal members
-/

/-- The form of the members of every intersection.  No session finds one of them to be
contained in another one, and none that stays within the limit finds two of them to
share no value. -/
structure IsNormal (h : Hierarchy) (members : List Ty) : Prop where
  two : 2 ≤ members.length
  nodup : members.Nodup
  isMember : ∀ m ∈ members, IsMember m
  ranges : ∀ r s, Ty.range r ∈ members -> Ty.range s ∈ members -> r = s
  sorted : Ty.IsCanonical members
  unrelated : ∀ x ∈ members, ∀ y ∈ members, x ≠ y -> ∀ options σ,
    Session.Reachable h options σ -> (σ.perform (isSubtype x y)).1 ≠ .yes
  overlapping : ∀ x ∈ members, ∀ y ∈ members, x ≠ y -> ∀ options σ σ',
    Session.Reachable h options σ -> Session.Reachable h options σ' ->
    (σ.perform (isSubtype x y)).2.limited = false ->
    (σ'.perform (isSubtype y x)).2.limited = false ->
    ¬ ((σ.perform (isSubtype x y)).1 = .no ∧ (σ'.perform (isSubtype y x)).1 = .no)

theorem isNormal_of_formed (hformed : Formed (Session.exactly h) (.inter members)) :
    IsNormal h members := by
  rcases hformed.here with ⟨htwo, hmember, hsorted, hindependent⟩
  have hdifferent : ∀ x y, Independent (Session.exactly h) x y -> x ≠ y := by
    rintro x y ⟨-, r, r', hr, -, hne, -⟩ rfl
    exact hne (hr.trans (Subtype.exact_self h x))
  constructor
  · exact htwo
  · exact hindependent.imp (hdifferent _ _)
  · exact hmember
  · intro r s hr hs
    by_contra hne
    rcases hindependent.forall hr hs fun heq => hne (Ty.range.inj heq) with ⟨hnone, -⟩
    rcases hnone with hnone | hnone <;> cases hnone
  · exact hsorted
  · intro x hx y hy hne options σ hσ hyes
    rcases hindependent.forall hx hy hne with ⟨-, r, r', rfl, -, hno, -⟩
    exact hno (hσ.contained hyes)
  · intro x hx y hy hne options σ σ' hσ hσ' hlimit hlimit'
    rcases hindependent.forall hx hy hne with ⟨-, r, r', rfl, rfl, -, -, hno⟩
    rw [hσ.isSubtype_eq hlimit, hσ'.isSubtype_eq hlimit']
    exact hno

/-!
# The call that builds an intersection
-/

/-- The intersection of the given types compares what they bring in and leaves these
members, if all questions are followed to their end. -/
structure Builds (h : Hierarchy) (options : Options) (sources members : List Ty) : Prop where
  two : 2 ≤ sources.length
  formed : ∀ t ∈ sources, Formed (Session.exactly h) t
  compares : ∃ kept, prepare sources = .inr kept ∧
    toDistribute? options.maxIntersectionDistribution kept = none
  result : (of options sources).value (exact h) = .inter members

/-- The members of a reduced intersection were given or are scalar. -/
theorem isFrom_of_reduce {kept : List Ty} {relation : Ty -> Ty -> Tristate}
    (hkept : ∀ m ∈ kept, ∀ members, m ≠ .inter members)
    (hresult : (reduce kept).value relation = .inter members) : IsFrom kept members := by
  have hfrom := (meets_reduce_from (fun s t r => r = relation s t) kept).value fun _ _ _ => rfl
  rw [hresult] at hfrom
  rcases hfrom with (hmem | hscalar) | ⟨left, heq, hleft⟩
  · exact absurd rfl (hkept _ hmem members)
  · cases hscalar
  · rwa [Ty.inter.inj heq]

/-- The call that builds an intersection with a union inside has found too many
pieces. -/
theorem Builds.lt_pieces (hbuilds : Builds h options sources members) {flavor : Flavor}
    {alternatives : List Ty} (hmem : .union flavor alternatives ∈ members) :
    ∃ kept, prepare sources = .inr kept ∧ options.maxIntersectionDistribution < pieces kept := by
  rcases hbuilds.compares with ⟨kept, hprepare, hnone⟩
  have hprepared := prepare_spec hbuilds.formed
  rw [hprepare] at hprepared
  have hnil : sources ≠ [] := List.ne_nil_of_length_pos (by have := hbuilds.two; omega)
  have hsingle : ∀ t, sources ≠ [t] := by
    rintro t rfl
    exact absurd hbuilds.two (by simp)
  have hresult := hbuilds.result
  rw [of_compared hnil hsingle hprepare hnone] at hresult
  have hfrom := isFrom_of_reduce (fun m hm => (hprepared.2 m hm).2.2.2.2) hresult
  have hkept := (hfrom _ hmem).resolve_right (by simp [Ty.isScalar])
  exact ⟨kept, hprepare, lt_pieces_of_mem hkept hnone⟩

/-!
# Every stored intersection is built by a call
-/

/-- An intersection is built by some call. -/
def IsBuilt (h : Hierarchy) (options : Options) (t : Ty) : Prop :=
  ∀ members, t = .inter members -> ∃ sources, Builds h options sources members

/-- Terms of exact answers under which only intersections that a call builds are
announced. -/
def building (h : Hierarchy) (options : Options) : Terms :=
  ⟨fun _ _ => True, Session.exactly h, IsBuilt h options, True⟩

theorem isLax_building (h : Hierarchy) (options : Options) : (building h options).IsLax where
  asks := fun _ _ => trivial
  announces := fun _ ht members heq => absurd heq (ht members)
  restarts := trivial

/-- What is announced on closing is the result. -/
theorem keepsTo_close {terms : Terms} {relation : Ty -> Ty -> Tristate} {left : List Ty}
    (hresult : terms.announces ((close left).value relation)) : (close left).KeepsTo terms := by
  match left with
  | [] => exact ⟨hresult, trivial⟩
  | [t] => trivial
  | _ :: _ :: _ => exact ⟨hresult, trivial⟩

theorem keepsTo_reduce {kept : List Ty}
    (hresult : IsBuilt h options ((reduce kept).value (exact h))) :
    (reduce kept).KeepsTo (building h options) := by
  have hlax := isLax_building h options
  refine ⟨trivial, ?_⟩
  have hvalue : (narrowAll [] kept).Meets (building h options)
      fun result => result = (narrowAll [] kept).value (exact h) :=
    (keepsTo_narrowAll hlax [] kept).eq_value fun _ _ _ hr => hr
  apply hvalue.bind
  rintro result rfl
  unfold reduce at hresult
  rw [value_bind, value_bind] at hresult
  generalize (narrowAll [] kept).value (exact h) = result at hresult
  cases result with
  | none => trivial
  | some left => exact keepsTo_close hresult

theorem keepsTo_of (hformed : ∀ m ∈ members, Formed (Session.exactly h) m) :
    (of options members).KeepsTo (building h options) := by
  have hintersects := intersects_of options members
  generalize hof : of options members = q at hintersects ⊢
  induction hintersects with
  | empty => exact keepsTo_pure _
  | single t => exact keepsTo_pure _
  | settled hmany hprepare => exact keepsTo_pure _
  | @compared members kept hmany hprepare hdistribute =>
      apply keepsTo_reduce
      intro left hleft
      exact ⟨members, hmany, hformed, ⟨kept, hprepare, hdistribute⟩, hof ▸ hleft⟩
  | distributed hmany hprepare hdistribute _ ih =>
      have hprepared := prepare_spec hformed
      rw [hprepare] at hprepared
      apply (keepsTo_mapM fun t ht => ?_).bind
      · exact fun parts => keepsTo_gather (isLax_building h options) options _ parts
      · exact ih t ht (formed_piece hprepared.2 hdistribute ht) rfl

end Intersection

open Inquiry
open GradualTypes.Ty (Formed)

variable {h : Hierarchy} {options : Options}

theorem Call.keepsTo_inquiry {c : Call}
    (harguments : ∀ t ∈ c.arguments, Formed (Session.exactly h) t) :
    (c.inquiry options).KeepsTo (Intersection.building h options) := by
  have hlax := Intersection.isLax_building h options
  have hbuilt : ∀ t : Ty, t.isSimple = true ->
      (built t).KeepsTo (Intersection.building h options) := by
    intro t ht
    apply keepsTo_built hlax
    rintro members rfl
    cases ht
  cases c with
  | int n => exact hbuilt _ rfl
  | float x => exact hbuilt _ rfl
  | text s => exact hbuilt _ rfl
  | bool b => exact hbuilt _ rfl
  | range r => exact Build.keepsTo_range hlax r
  | object cls arguments => exact hbuilt _ rfl
  | this cls => exact hbuilt _ rfl
  | array key value =>
      simp only [inquiry, Build.array]
      split
      · exact keepsTo_pure _
      · exact hbuilt _ rfl
  | shape entries => exact Build.keepsTo_shape hlax entries
  | accessory a => exact hbuilt _ rfl
  | hasProperty name => exact hbuilt _ rfl
  | union members => exact Union.keepsTo_of hlax options members
  | benevolent members => exact Union.keepsTo_benevolentOf hlax options members
  | markBenevolent t => exact Build.keepsTo_markBenevolent hlax t
  | inter members => exact Intersection.keepsTo_of harguments
  | _ => exact keepsTo_pure _

namespace Run

variable {σ : Session} {ts : List Ty}

/-- If no call of a run met the depth limit, each stored intersection is built by a
call with the options of the run. -/
theorem isBuilt_of_within (hrun : Run h options (Session.CallWithin options) σ ts) :
    ∀ t ∈ σ.types.items, Intersection.IsBuilt h options t := by
  have hliteral : ∀ t : Ty, t.isLiteral = true -> Intersection.IsBuilt h options t := by
    rintro t ht members rfl
    cases ht
  induction hrun with
  | new => simp [Session.new, Numbering.empty]
  | @call σ ts c hrun harguments hwithin ih =>
      rcases hrun.reachable.kept with ⟨htruthful, rfl, -⟩
      have hmeets : (c.inquiry options).KeepsTo (Intersection.building σ.hierarchy options) :=
        Call.keepsTo_inquiry fun t ht => hrun.formed_of_within.1 t (harguments t ht)
      have hfollows := Session.run_follows_of_within (P := Intersection.IsBuilt σ.hierarchy options)
        (Session.isReliable_answer relationDepth) htruthful hwithin hmeets (fun _ _ _ hr => hr)
        (fun _ ht => ht) (fun v => hliteral _ rfl)
      exact fun t ht => (hfollows.1.types t ht).elim (ih t) id
  | @ask σ ts s t hrun ih =>
      rcases hrun.reachable.kept with ⟨htruthful, -, -⟩
      have hfollows := (Session.isReliable_answer relationDepth s t { σ with limited := false }
        htruthful).follows
      exact fun u hu => (hfollows.types u hu).elim (ih u) (hliteral u)

end Run
end GradualTypes
