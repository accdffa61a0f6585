import GradualTypes.Proofs.IntersectionForm
import GradualTypes.Proofs.UnionBounds

/-!
# Intersections are below their members

Reducing the members of an intersection only replaces a member by a narrower one: one
of two related members by the other, and two intervals by their common part.  So
whatever is left lies below all that was given, in every sense of containment that
obeys the rules and that the answers `yes` respect.

What lies below a member need not lie below an intersection with that member: the
relation compares an intersection with a union only through the members of the union.
So the statement about a whole intersection is about members that are not taken apart.
-/

namespace GradualTypes

namespace IntRange

variable {r s : IntRange}

theorem meet_within_left (r s : IntRange) : (r.meet s).within r = true := by
  rcases r with ⟨lo, hi⟩
  rcases s with ⟨lo', hi'⟩
  rw [within_iff]
  cases lo <;> cases hi <;> cases lo' <;> cases hi' <;> simp [meet] <;> omega

theorem meet_within_right (r s : IntRange) : (r.meet s).within s = true := by
  rcases r with ⟨lo, hi⟩
  rcases s with ⟨lo', hi'⟩
  rw [within_iff]
  cases lo <;> cases hi <;> cases lo' <;> cases hi' <;> simp [meet] <;> omega

/-- An interval of another one is open only where that one is. -/
theorem open_of_within (hwithin : r.within s = true) (hlo : r.lo = none) (hhi : r.hi = none) :
    s.lo = none ∧ s.hi = none := by
  rw [within_iff, hlo, hhi] at hwithin
  rcases s with ⟨lo, hi⟩
  cases lo <;> cases hi <;> simp_all

end IntRange

namespace Intersection

open Inquiry
open GradualTypes.Subtype (IsContainment)
open GradualTypes.Ty (Formed)

variable {h : Hierarchy} {R : Ty -> Ty -> Prop} {replies : Ty -> Ty -> Tristate -> Prop}
  {members : List Ty} {t u : Ty}

/-!
# Two members
-/

/-- What is built of a part of an interval lies below the interval. -/
theorem below_of_within (hR : IsContainment h R) {r s : IntRange} (hs : s.lo ≠ s.hi)
    (hwithin : r.within s = true)
    (ht : (t = .int ∧ r.lo = none ∧ r.hi = none) ∨
      (∃ n, t = .literal (.int n) ∧ r.lo = some n ∧ r.hi = some n) ∨ (t = .range r ∧ r.lo ≠ r.hi)) :
    R t (.range s) := by
  rcases ht with ⟨-, hlo, hhi⟩ | ⟨n, rfl, hlo, hhi⟩ | ⟨rfl, -⟩
  · have hopen := IntRange.open_of_within hwithin hlo hhi
    exact absurd (hopen.1.trans hopen.2.symm) hs
  · have hn : r.contains n = true := by
      rw [IntRange.contains_iff, hlo, hhi]
      simp
    exact hR.rule (.fits rfl rfl (.literal_range (IntRange.contains_of_within hn hwithin)))
  · exact hR.rule (.fits rfl rfl (.range_range hwithin))

/-- A meeting in which each type that is given up contains the one that stays. -/
def IsNarrowing (replies : Ty -> Ty -> Tristate -> Prop) (R : Ty -> Ty -> Prop)
    (earlier later : Ty) : Meeting -> Prop
  | .keep => R earlier later
  | .replace => R later earlier
  | .narrowed u => (Formed replies u ∧ Ty.IsComplete u) ∧ R u earlier ∧ R u later
  | _ => True

theorem meets_meetRanges_below (hR : IsContainment h R) {earlier later : Ty}
    (hearlier : Formed replies earlier) (hlater : Formed replies later) :
    (meetRanges earlier later).Meets (.free replies) (IsNarrowing replies R earlier later) := by
  unfold meetRanges
  split
  · rename_i r s
    dsimp only
    split
    · trivial
    · rename_i hcommon
      have hcommon' : (r.meet s).isEmpty = false := by simpa using hcommon
      apply (Build.meets_range_cases hcommon').free.bind
      intro u hu
      refine ⟨?_, ?_, ?_⟩
      · rcases hu with ⟨rfl, -⟩ | ⟨n, rfl, -⟩ | ⟨rfl, hne⟩
        · exact ⟨Ty.formed_keyword _, Ty.isComplete_keyword _⟩
        · exact ⟨Ty.formed_literal _, Ty.isComplete_literal _⟩
        · exact ⟨Ty.formed_range hcommon' hne, Ty.isComplete_range _⟩
      · exact below_of_within hR hearlier.here.2 (IntRange.meet_within_left r s) hu
      · exact below_of_within hR hlater.here.2 (IntRange.meet_within_right r s) hu
  · trivial

theorem meets_meet_below (hR : IsContainment h R) (hyes : ∀ s t, replies s t .yes -> R s t)
    {earlier later : Ty} (hearlier : Formed replies earlier) (hlater : Formed replies later) :
    (meet earlier later).Meets (.free replies) (IsNarrowing replies R earlier later) := by
  apply meets_meet_of trivial trivial
  · exact hyes earlier later
  · exact hyes later earlier
  · exact fun _ _ => trivial
  · exact fun _ _ _ _ _ _ _ => meets_meetRanges_below hR hearlier hlater

/-!
# All members
-/

/-- What is left of some types: formed and complete types, and below each given type
one of them. -/
structure IsBelowAll (replies : Ty -> Ty -> Tristate -> Prop) (R : Ty -> Ty -> Prop)
    (members left : List Ty) : Prop where
  proper : ∀ r ∈ left, Formed replies r ∧ Ty.IsComplete r
  below : ∀ m ∈ members, ∃ r ∈ left, R r m

theorem IsBelowAll.refl (hR : IsContainment h R)
    (hproper : ∀ m ∈ members, Formed replies m ∧ Ty.IsComplete m) :
    IsBelowAll replies R members members where
  proper := hproper
  below := fun m hm => ⟨m, hm, hR.refl m⟩

/-- What is left of narrower types, each of which takes the place of wider ones. -/
theorem IsBelowAll.narrow (hR : IsContainment h R) {left narrower : List Ty}
    (hleft : IsBelowAll replies R members left)
    (hproper : ∀ u ∈ narrower, Formed replies u ∧ Ty.IsComplete u)
    (hnarrower : ∀ m ∈ left, ∃ u ∈ narrower, R u m) : IsBelowAll replies R members narrower where
  proper := hproper
  below := by
    intro m hm
    rcases hleft.below m hm with ⟨r, hr, hrm⟩
    rcases hnarrower r hr with ⟨u, hu, hur⟩
    exact ⟨u, hu, hR.trans (hproper u hu).1.hasDistinctKeys hur hrm⟩

/-- Each member stays or is given up for a narrower one. -/
theorem outlives_isBelowAll (hR : IsContainment h R)
    (hyes : ∀ s t, replies s t .yes -> R s t) :
    Outlives (.free replies) (IsBelowAll replies R members) True where
  perm := by
    intro ts us hperm hts
    refine ⟨fun r hr => hts.proper r (hperm.mem_iff.mpr hr), fun m hm => ?_⟩
    rcases hts.below m hm with ⟨r, hr, hrm⟩
    exact ⟨r, hperm.mem_iff.mp hr, hrm⟩
  meet := by
    intro t u others hstart
    rcases List.forall_mem_cons.mp hstart.proper with ⟨ht, hrest⟩
    rcases List.forall_mem_cons.mp hrest with ⟨hu, hothers⟩
    have hnarrow : ∀ v, (Formed replies v ∧ Ty.IsComplete v) -> R v t -> R v u ->
        IsBelowAll replies R members (v :: others) := by
      intro v hv hvt hvu
      refine hstart.narrow hR (List.forall_mem_cons.mpr ⟨hv, hothers⟩) ?_
      refine List.forall_mem_cons.mpr ⟨?_, List.forall_mem_cons.mpr ⟨?_, fun m hm => ?_⟩⟩
      · exact ⟨v, List.mem_cons_self, hvt⟩
      · exact ⟨v, List.mem_cons_self, hvu⟩
      · exact ⟨m, List.mem_cons_of_mem _ hm, hR.refl m⟩
    refine (meets_meet_below hR hyes ht.1 hu.1).imp fun meeting hmeeting => ?_
    cases meeting with
    | keep => exact hnarrow t ht (hR.refl t) hmeeting
    | replace => exact hnarrow u hu hmeeting (hR.refl u)
    | narrowed v => exact hnarrow v hmeeting.1 hmeeting.2.1 hmeeting.2.2
    | disjoint => trivial
    | both => trivial

/-!
# The type of what is left
-/

/-- A complete type that is below those of some types that are not taken apart. -/
structure IsBelow (R : Ty -> Ty -> Prop) (members : List Ty) (t : Ty) : Prop where
  complete : Ty.IsComplete t
  below : ∀ m ∈ members, m.isSimple = true -> m.isOrdinary = true -> R t m

theorem meets_reduce_below (hR : IsContainment h R) (hyes : ∀ s t, replies s t .yes -> R s t)
    (hproper : ∀ m ∈ members, Formed replies m ∧ Ty.IsComplete m) :
    (reduce members).Meets (.free replies) (IsBelow R members) := by
  apply meets_reduce_of (outlives_isBelowAll hR hyes) trivial (.refl hR hproper)
  · intro _
    refine ⟨Ty.isComplete_keyword _, fun m hm _ _ => ?_⟩
    exact hR.rule (.never (hproper m hm).1.isUnknown)
  · intro t hleft
    refine ⟨(hleft.proper t List.mem_cons_self).2, fun m hm _ _ => ?_⟩
    rcases hleft.below m hm with ⟨r, hr, hrm⟩
    rcases List.mem_singleton.mp hr with rfl
    exact hrm
  · intro left hleft
    refine ⟨trivial, Ty.isComplete_inter.mpr fun r hr => (hleft.proper r hr).2, ?_⟩
    intro m hm hsimple hordinary
    rcases hleft.below m hm with ⟨r, hr, hrm⟩
    exact hR.rule (.inter_left hordinary hsimple hr hrm)

/-!
# Complete intersections
-/

theorem isComplete_of_mem_membersOf (ht : Ty.IsComplete t) {m : Ty} (hm : m ∈ membersOf t) :
    Ty.IsComplete m := by
  cases t with
  | inter members => exact Ty.isComplete_inter.mp ht m hm
  | _ =>
      rcases List.mem_singleton.mp hm with rfl
      exact ht

theorem isComplete_prepare (hcomplete : ∀ m ∈ members, Ty.IsComplete m) :
    match prepare members with
    | .inl t => Ty.IsComplete t
    | .inr kept => ∀ m ∈ kept, Ty.IsComplete m := by
  have hflat := forall_flatMap fun m hm t ht => isComplete_of_mem_membersOf (hcomplete m hm) ht
  have hprepares := prepares_prepare members
  generalize prepare members = result at hprepares
  cases hprepares with
  | error herror => exact .leaf (by simp) rfl
  | never herror hnever => exact Ty.isComplete_keyword _
  | mixed hmixed => exact Ty.isComplete_keyword _
  | single ht hopen hothers => exact hflat _ ht
  | several htwo hnodup hopen hmem => exact fun m hm => hflat m ((hmem m).mp hm).1

theorem meets_gather_complete (h : Hierarchy) {options : Options} {flavor : Flavor}
    {parts : List Ty} (hparts : ∀ t ∈ parts, Formed replies t ∧ Ty.IsComplete t) :
    (gather options flavor parts).Meets (.free replies) Ty.IsComplete := by
  have hR := Subtype.isContainment_true h
  have hformed : ∀ t ∈ parts, Formed replies t := fun t ht => (hparts t ht).1
  have hcomplete : ∀ t ∈ parts, Ty.IsComplete t := fun t ht => (hparts t ht).2
  cases flavor with
  | plain =>
      apply (Union.meets_of_above hR (fun _ _ _ => trivial) hformed hcomplete).imp
      exact fun t ht => ht.complete
  | benevolent =>
      apply (Union.meets_benevolentOf_above hR (fun _ _ _ => trivial) hformed hcomplete).imp
      exact fun t ht => ht.complete

/-- The intersection of complete types is complete. -/
theorem meets_of_complete (h : Hierarchy) {options : Options}
    (hformed : ∀ m ∈ members, Formed replies m) (hcomplete : ∀ m ∈ members, Ty.IsComplete m) :
    (of options members).Meets (.free replies) Ty.IsComplete := by
  have hintersects := intersects_of options members
  generalize of options members = q at hintersects ⊢
  induction hintersects with
  | empty => exact Ty.isComplete_keyword _
  | single t => exact hcomplete t List.mem_cons_self
  | settled hmany hprepare =>
      have hprepared := isComplete_prepare hcomplete
      rw [hprepare] at hprepared
      exact hprepared
  | compared hmany hprepare hdistribute =>
      have hprepared := prepare_spec hformed
      have hpreparedComplete := isComplete_prepare hcomplete
      rw [hprepare] at hprepared hpreparedComplete
      apply (meets_reduce_below (Subtype.isContainment_true h) (fun _ _ _ => trivial)
        fun m hm => ⟨(hprepared.2 m hm).1, hpreparedComplete m hm⟩).imp
      exact fun t ht => ht.complete
  | @distributed members kept alternatives rest flavor hmany hprepare hdistribute _ ih =>
      have hprepared := prepare_spec hformed
      have hpreparedComplete := isComplete_prepare hcomplete
      rw [hprepare] at hprepared hpreparedComplete
      rcases mem_of_firstUnion? (firstUnion?_of_toDistribute? hdistribute) with ⟨hmem, hrest⟩
      have hparts : ∀ t ∈ alternatives, (of options (rest ++ [t])).Meets (.free replies)
          fun u => Formed replies u ∧ Ty.IsComplete u := by
        intro t ht
        have hpiece := formed_piece hprepared.2 hdistribute ht
        apply (meets_of hpiece).and_free
        refine ih t ht hpiece (List.forall_mem_append.mpr ⟨fun m hm => ?_, ?_⟩)
        · exact hpreparedComplete m (hrest m hm)
        · exact List.forall_mem_singleton.mpr ((hpreparedComplete _ hmem).inside ht)
      exact (meets_mapM_all hparts).bind fun parts hall => meets_gather_complete h hall

end Intersection
end GradualTypes
