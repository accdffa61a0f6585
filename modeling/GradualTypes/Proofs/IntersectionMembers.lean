import GradualTypes.Proofs.Distribution

/-!
# Intersections of simple types

An intersection of types that bring in neither unions nor further intersections is not
distributed.  If they bring in one interval at most, it is not narrowed either.  So it is made of
types that were brought in, whatever answers the comparisons get.
-/

namespace GradualTypes
namespace Intersection

open Inquiry

variable {replies : Ty -> Ty -> Tristate -> Prop} {options : Options}
  {members kept : List Ty} {s t : Ty}

/-- Not both of two types are intervals. -/
def IsSingle (s t : Ty) : Prop :=
  s.range? = none ∨ t.range? = none

/-!
# Reduction
-/

theorem IsSingle.symm (hst : IsSingle s t) : IsSingle t s :=
  Or.symm hst

theorem meets_meet_single (hst : IsSingle s t) :
    (meet s t).Meets (.free replies) fun meeting => ∀ u, meeting ≠ .narrowed u := by
  apply meets_meet_of trivial trivial
  · simp
  · simp
  · simp
  · intro _ _ _ _ _ _ _
    unfold meetRanges
    split
    · rcases hst with hs | ht
      · cases hs
      · cases ht
    · simp

/-- Some of the given types, of which one at most is an interval. -/
structure AreSome (members left : List Ty) : Prop where
  given : ∀ m ∈ left, m ∈ members
  single : left.Pairwise IsSingle

theorem AreSome.sublist (hleft : AreSome members kept) {fewer : List Ty}
    (hfewer : fewer.Sublist kept) : AreSome members fewer where
  given := fun m hm => hleft.given m (hfewer.subset hm)
  single := hleft.single.sublist hfewer

theorem outlives_areSome : Outlives (.free replies) (AreSome members) True where
  perm := fun hperm hts =>
    ⟨fun m hm => hts.given m (hperm.mem_iff.mpr hm), hperm.pairwise hts.single IsSingle.symm⟩
  meet := by
    intro t u others hstart
    have htu : IsSingle t u := (List.pairwise_cons.mp hstart.single).1 u List.mem_cons_self
    refine (meets_meet_single htu).imp fun meeting hmeeting => ?_
    cases meeting with
    | keep => exact hstart.sublist ((List.sublist_cons_self u others).cons_cons t)
    | replace => exact hstart.sublist (List.sublist_cons_self t _)
    | narrowed v => exact absurd rfl (hmeeting v)
    | disjoint => trivial
    | both => trivial

/-- Simple types are reduced to some of them. -/
theorem meets_reduce_mem (hsimple : ∀ m ∈ members, m.isSimple = true)
    (hsingle : members.Pairwise IsSingle) :
    (reduce members).Meets (.free replies) fun r =>
      ∀ m ∈ membersOf r, m ∈ members ∨ m = .never := by
  apply meets_reduce_of outlives_areSome trivial ⟨fun _ => id, hsingle⟩
  · exact fun _ m hm => Or.inr (List.mem_singleton.mp hm)
  · intro t hleft
    have ht := hleft.given t List.mem_cons_self
    rw [membersOf_of_isSimple (hsimple t ht), List.forall_mem_singleton]
    exact Or.inl ht
  · exact fun left hleft => ⟨trivial, fun m hm => Or.inl (hleft.given m hm)⟩

/-!
# One call
-/

theorem toDistribute?_of_isSimple {limit : Nat} (hsimple : ∀ m ∈ members, m.isSimple = true) :
    toDistribute? limit members = none := by
  cases hdistribute : toDistribute? limit members with
  | none => rfl
  | some found =>
      obtain ⟨flavor, alternatives, rest⟩ := found
      have hunion := (mem_of_firstUnion? (firstUnion?_of_toDistribute? hdistribute)).1
      cases hsimple _ hunion

/-- The intersection of types that bring in simple types, one interval at most among them, brings
in some of these or is settled. -/
theorem meets_of_mem (hsimple : ∀ m ∈ members.flatMap membersOf, m.isSimple = true)
    (hsingle : ∀ s ∈ members.flatMap membersOf, ∀ t ∈ members.flatMap membersOf,
      s ≠ t -> IsSingle s t) :
    (of options members).Meets (.free replies) fun r =>
      ∀ m ∈ membersOf r, m ∈ members.flatMap membersOf ∨ m = .error ∨ m = .never ∨ m = .mixed := by
  match members, hsimple, hsingle with
  | [], _, _ =>
      unfold of
      simp [membersOf]
  | [t], _, _ =>
      unfold of
      exact fun m hm => Or.inl (List.mem_flatMap.mpr ⟨t, List.mem_cons_self, hm⟩)
  | t :: u :: rest, hsimple, hsingle =>
      generalize hmembers : t :: u :: rest = members at hsimple hsingle
      have hnil : members ≠ [] := by simp [← hmembers]
      have hmany : ∀ v, members ≠ [v] := by simp [← hmembers]
      cases hprepare : prepare members with
      | inl v =>
          rw [of_settled hnil hmany hprepare]
          show ∀ m ∈ membersOf v, _
          cases prepares_of_eq hprepare with
          | single hv hopen hothers =>
              rw [membersOf_of_isSimple (hsimple v hv), List.forall_mem_singleton]
              exact Or.inl hv
          | _ => simp [membersOf]
      | inr kept =>
          cases prepares_of_eq hprepare with
          | several htwo hnodup hopen hmem =>
              have hkept : ∀ m ∈ kept, m.isSimple = true := fun m hm =>
                hsimple m ((hmem m).mp hm).1
              have hpairwise : kept.Pairwise IsSingle := hnodup.imp_of_mem fun hs ht hne =>
                hsingle _ ((hmem _).mp hs).1 _ ((hmem _).mp ht).1 hne
              rw [of_compared hnil hmany hprepare (toDistribute?_of_isSimple hkept)]
              refine (meets_reduce_mem hkept hpairwise).imp fun r hr m hm => ?_
              rcases hr m hm with hm | rfl
              · exact Or.inl ((hmem m).mp hm).1
              · simp

end Intersection
end GradualTypes
