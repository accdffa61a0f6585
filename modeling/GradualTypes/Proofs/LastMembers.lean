import GradualTypes.Proofs.UnionNormal

/-!
# Which of several members a union keeps

Of members that contain one another absorption keeps the last one.  The members come in
the order of their codes, and the passes before absorption leave this order as it is,
apart from the scalar types they put at the end.  So the alternatives of a union that are
not scalar are, among the members that contain the same, those with the greatest code.

As before it is assumed that no two shapes are merged.
-/

namespace GradualTypes
namespace Union

open Inquiry
open GradualTypes.Subtype (Contained)
open GradualTypes.Ty (Formed)

variable {h : Hierarchy} {replies : Ty -> Ty -> Tristate -> Prop}
  {members middle result kept rest : List Ty} {t u : Ty} {limit n : Nat} {flavor : Flavor}
  {combine : List Ty -> Inquiry Ty}

/-!
# The order of the members
-/

/-- Members that are not scalar come in the order of their codes. -/
def IsOrdered (members : List Ty) : Prop :=
  members.Pairwise fun a b => a.isScalar = false -> b.isScalar = false -> a.code < b.code

/-- What a pass over scalar members does to the other ones, which is nothing. -/
structure KeepsOthers (members result : List Ty) : Prop where
  ordered : IsOrdered members -> IsOrdered result
  mem_iff : ∀ {t}, t.isScalar = false -> (t ∈ result ↔ t ∈ members)

namespace KeepsOthers

theorem refl (members : List Ty) : KeepsOthers members members :=
  ⟨id, fun _ => Iff.rfl⟩

theorem trans (hfirst : KeepsOthers members middle) (hsecond : KeepsOthers middle result) :
    KeepsOthers members result where
  ordered := fun hordered => hsecond.ordered (hfirst.ordered hordered)
  mem_iff := fun ht => (hsecond.mem_iff ht).trans (hfirst.mem_iff ht)

theorem filter {p : Ty -> Bool} (hp : ∀ t, t.isScalar = false -> p t = true) :
    KeepsOthers members (members.filter p) where
  ordered := fun hordered => hordered.sublist List.filter_sublist
  mem_iff := fun ht => by rw [List.mem_filter, hp _ ht, and_iff_left rfl]

theorem appendNew (ht : t.isScalar = true) : KeepsOthers members (appendNew members t) where
  ordered := by
    intro hordered
    unfold Union.appendNew
    split
    · exact hordered
    · refine List.pairwise_append.mpr ⟨hordered, List.pairwise_singleton _ _, ?_⟩
      intro a _ b hb _ hscalar
      rw [List.mem_singleton.mp hb, ht] at hscalar
      cases hscalar
  mem_iff := by
    intro u hu
    rw [mem_appendNew, or_iff_left]
    rintro rfl
    rw [ht] at hu
    cases hu

end KeepsOthers

theorem meets_mergeBools_others (members : List Ty) :
    (mergeBools members).Meets (.free replies) (KeepsOthers members) := by
  refine ⟨trivial, trivial, ?_⟩
  show Meets _ _ (if members.contains (.literal (.bool true)) &&
    members.contains (.literal (.bool false)) then _ else pure members)
  split
  · refine KeepsOthers.trans (.filter fun t ht => ?_) (.appendNew rfl)
    cases t <;> first | rfl | cases ht
  · exact .refl _

theorem isScalar_toTy (r : IntRange) : r.toTy.isScalar = true := by
  unfold IntRange.toTy
  split <;> rfl

theorem meets_appendRanges_others {rs : List IntRange} (hrs : ∀ r ∈ rs, r.IsWide) :
    (appendRanges members rs).Meets (.free replies) (KeepsOthers members) := by
  induction rs generalizing members with
  | nil => exact KeepsOthers.refl _
  | cons r rest ih =>
      rw [List.forall_mem_cons] at hrs
      apply (meets_range_toTy hrs.1).bind
      intro _ hsame
      subst hsame
      exact (ih hrs.2).imp fun _ => (KeepsOthers.appendNew (isScalar_toTy r)).trans

theorem meets_mergeRanges_others (hready : IsReady replies members) :
    (mergeRanges members).Meets (.free replies) (KeepsOthers members) := by
  unfold mergeRanges
  dsimp only
  split
  · exact KeepsOthers.refl _
  · apply (meets_appendRanges_others hready.isWide_joined).imp
    intro result hresult
    refine KeepsOthers.trans (.filter fun t ht => ?_) hresult
    cases t <;> first | rfl | cases ht

/-!
# Members that outlast the later ones
-/

/-- A member that is not found to be contained in any later one. -/
def Outlasts (replies : Ty -> Ty -> Tristate -> Prop) (members : List Ty) (t : Ty) : Prop :=
  ∃ before after, members = before ++ t :: after ∧ ∀ u ∈ after, Beside replies t u

theorem Outlasts.cons (ht : Outlasts replies members t) (u : Ty) :
    Outlasts replies (u :: members) t := by
  obtain ⟨before, after, rfl, hafter⟩ := ht
  exact ⟨u :: before, after, rfl, hafter⟩

/-- A member is kept only after it was compared with all that come after it. -/
theorem meets_absorbFrom_outlast :
    (absorbFrom kept rest).Meets (.free replies) fun result =>
      ∀ t ∈ result, t ∈ kept ∨ Outlasts replies rest t := by
  induction rest generalizing kept with
  | nil => exact fun t => Or.inl
  | cons t rest ih =>
      apply (meets_isAbsorbed t (kept ++ rest)).free.bind
      intro absorbed habsorbed
      split
      · exact ih.imp fun result hall u hu => (hall u hu).imp_right fun hlast => hlast.cons t
      · rename_i hfalse
        have hbeside := habsorbed.2 (by simpa using hfalse)
        refine ih.imp fun result hall u hu => ?_
        rcases hall u hu with hmem | hlast
        · rcases List.mem_append.mp hmem with hmem | hmem
          · exact Or.inl hmem
          · rw [List.mem_singleton.mp hmem]
            exact Or.inr ⟨[], rest, rfl, fun v hv => hbeside v (List.mem_append_right _ hv)⟩
        · exact Or.inr (hlast.cons t)

theorem meets_absorb_outlast (members : List Ty) :
    (absorb members).Meets (.free replies) fun result => ∀ t ∈ result, Outlasts replies members t := by
  unfold absorb
  split
  · intro t ht
    match members with
    | [u] =>
        rw [List.mem_singleton.mp ht]
        exact ⟨[], [], rfl, by simp⟩
  · refine ⟨trivial, ?_⟩
    exact meets_absorbFrom_outlast.imp fun result hall t ht => (hall t ht).resolve_left (by simp)

/-!
# The last of several members
-/

/-- A member with the greatest code of all that contain the same. -/
def IsLast (h : Hierarchy) (members : List Ty) (t : Ty) : Prop :=
  t ∈ members ∧ ∀ u ∈ members, u.isScalar = false -> Contained h t u -> Contained h u t ->
    ¬ t.code < u.code

theorem Outlasts.isLast (ht : Outlasts (Session.exactly h) members t)
    (hordered : IsOrdered members) (hscalar : t.isScalar = false) : IsLast h members t := by
  obtain ⟨before, after, rfl, hafter⟩ := ht
  refine ⟨by simp, fun u hu huscalar htu hut hlt => ?_⟩
  rcases List.mem_append.mp hu with hu | hu
  · have hearlier := (List.pairwise_append.mp hordered).2.2 u hu t List.mem_cons_self
    exact List.lt_asymm hlt (hearlier huscalar hscalar)
  · rcases List.mem_cons.mp hu with rfl | hu
    · exact List.lt_irrefl _ hlt
    · have hliteral : t.isLiteral = false := by cases t <;> first | rfl | cases hscalar
      obtain ⟨r, rfl, hr⟩ := hafter u hu (by rw [hliteral, Bool.false_and])
      exact hr htu

theorem IsLast.congr (ht : IsLast h members t)
    (hmem : ∀ u, u.isScalar = false -> (u ∈ members ↔ u ∈ result)) (hscalar : t.isScalar = false) :
    IsLast h result t :=
  ⟨(hmem t hscalar).mp ht.1, fun u hu huscalar => ht.2 u ((hmem u huscalar).mpr hu) huscalar⟩

/-- What is known of the result of a union apart from what it contains: the alternatives
that are not scalar are the last ones among the members, and the flavor is the given
one. -/
structure HasLast (h : Hierarchy) (flavor : Flavor) (members : List Ty) (t : Ty) : Prop where
  last : ∀ a ∈ membersOf t, a.isScalar = false -> IsLast h members a
  flavor : ∀ flavor' alternatives, t = .union flavor' alternatives -> flavor' = flavor

theorem HasLast.congr (ht : HasLast h flavor members t)
    (hmem : ∀ u, u.isScalar = false -> (u ∈ members ↔ u ∈ result)) : HasLast h flavor result t where
  last := fun a ha hscalar => (ht.last a ha hscalar).congr hmem hscalar
  flavor := ht.flavor

theorem hasLast_of_flat (hflat : t.unionMembers? = none)
    (ht : t.isScalar = false -> IsLast h members t) : HasLast h flavor members t where
  last := by
    rw [membersOf_of_flat hflat]
    exact List.forall_mem_singleton.mpr ht
  flavor := by
    rintro flavor' alternatives rfl
    cases hflat

theorem meets_close_last (hready : IsReady replies result)
    (hlast : ∀ t ∈ result, t.isScalar = false -> IsLast h members t) :
    (close flavor result).Meets (.free replies) (HasLast h flavor members) := by
  unfold close
  split
  · rename_i t
    have hmem : t ∈ [t] := List.mem_cons_self
    exact hasLast_of_flat (hready.isMember t hmem).2.2.2 (hlast t hmem)
  · refine ⟨trivial, fun t ht => hlast t ?_, fun flavor' alternatives heq => ?_⟩
    · exact (Ty.perm_sortCanonical result).mem_iff.mp ht
    · cases heq
      rfl

/-- Before shapes are merged, each member that is left outlasts those that come after it. -/
theorem meets_prune_outlast (hready : IsReady replies members) (hne : members ≠ []) :
    (prune members).Meets (.free replies) fun pruned =>
      ∃ middle, KeepsOthers members middle ∧ ∀ u ∈ pruned, Outlasts replies middle u := by
  refine ((meets_mergeBools hready hne).and_free (meets_mergeBools_others members)).bind
    fun first hfirst => ?_
  rcases hfirst with ⟨⟨hready₁, -⟩, hothers₁⟩
  refine (meets_mergeRanges_others hready₁).bind fun second hothers₂ => ?_
  exact (meets_absorb_outlast second).imp fun third houtlast =>
    ⟨second, hothers₁.trans hothers₂, houtlast⟩

theorem meets_reduce_last (hready : IsReady (Session.exactly h) members) (hne : members ≠ [])
    (hshapes : HasComparableShapes (Session.exactly h) members) (hordered : IsOrdered members) :
    (reduce limit combine flavor members).Meets (.free (Session.exactly h))
      (HasLast h flavor members) := by
  rw [reduce_eq]
  refine ((meets_prune_ready hready hne).and_free (meets_prune_outlast hready hne)).bind
    fun pruned hpruned => ?_
  rcases hpruned with ⟨hpruned, middle, hothers, houtlast⟩
  rw [hpruned.mergeShapes_eq hshapes]
  refine meets_close_last hpruned.ready fun t ht hscalar => ?_
  have hlast := (houtlast t ht).isLast (hothers.ordered hordered) hscalar
  exact hlast.congr (fun u hu => hothers.mem_iff hu) hscalar

theorem isOrdered_distinct (members : List Ty) : IsOrdered (Ty.distinct members) :=
  (Ty.pairwise_distinct members).imp fun hlt _ _ => hlt

theorem meets_normalize_last (hformed : ∀ m ∈ members, Formed (Session.exactly h) m)
    (hflat : ∀ m ∈ members, m.unionMembers? = none) (hnoError : ∀ m ∈ members, m ≠ .error)
    (hshapes : HasComparableShapes (Session.exactly h) members) :
    (normalize limit combine flavor members).Meets (.free (Session.exactly h))
      (HasLast h flavor members) := by
  have hscalar : ∀ {k : Keyword}, HasLast h flavor members (.keyword k) :=
    hasLast_of_flat rfl fun hnot => by cases hnot
  have hmem : ∀ {kept : List Ty}, AreLeft members kept ->
      ∀ t, t.isScalar = false -> (t ∈ kept ↔ t ∈ members) := by
    intro kept hleft t ht
    rw [hleft.mem_iff, and_iff_left]
    rintro rfl
    cases ht
  have hnormalizes := normalizes_normalize limit combine flavor members
  generalize normalize limit combine flavor members = q at hnormalizes ⊢
  cases hnormalizes with
  | error herror => exact absurd rfl (hnoError _ herror)
  | mixed herror hmixed => exact hscalar
  | never hall => exact hscalar
  | @single t hleft =>
      have ht := ((hleft.mem_iff t).mp List.mem_cons_self).1
      refine hasLast_of_flat (hflat t ht) fun _ => ⟨ht, fun u hu huscalar _ _ hlt => ?_⟩
      rw [List.mem_singleton.mp ((hmem hleft u huscalar).mpr hu)] at hlt
      exact List.lt_irrefl _ hlt
  | @several kept hleft hne =>
      have hready := hleft.isReady hformed hflat
      have hordered := (isOrdered_distinct members).sublist hleft.sublist
      have hshapes' := hshapes.subset fun e he => (hmem hleft _ rfl).mp he
      exact (meets_reduce_last hready hne hshapes' hordered).imp fun t ht => ht.congr (hmem hleft)

/-- The alternatives of a union of several types that are not scalar are the last ones of
those that the types bring in, and the types decide its flavor. -/
theorem meets_upTo_last {ts : List Ty} (hmany : 2 ≤ ts.length)
    (hformed : ∀ t ∈ ts, Formed (Session.exactly h) t) (hheight : ∀ t ∈ ts, t.height ≤ n)
    (hnoError : ∀ t ∈ ts, t ≠ .error)
    (hshapes : HasComparableShapes (Session.exactly h) (ts.flatMap membersOf)) :
    (upTo limit n ts).Meets (.free (Session.exactly h))
      (HasLast h (flavorOf ts) (ts.flatMap membersOf)) := by
  have hunites := unites_upTo limit hheight
  generalize upTo limit n ts = q at hunites ⊢
  cases hunites with
  | empty n => simp at hmany
  | single n t => simp at hmany
  | several _ _ =>
      refine meets_normalize_last (fun m hm => (exists_of_mem_flatMap hformed hheight hm).1)
        (fun m hm => (exists_of_mem_flatMap hformed hheight hm).2.1) (fun m hm => ?_) hshapes
      rcases (exists_of_mem_flatMap hformed hheight hm).2.2.2 with ⟨t, ht, -, herror⟩
      exact herror (hnoError t ht)

theorem meets_of_last {options : Options} {ts : List Ty} (hmany : 2 ≤ ts.length)
    (hformed : ∀ t ∈ ts, Formed (Session.exactly h) t) (hnoError : ∀ t ∈ ts, t ≠ .error)
    (hshapes : HasComparableShapes (Session.exactly h) (ts.flatMap membersOf)) :
    (of options ts).Meets (.free (Session.exactly h))
      (HasLast h (flavorOf ts) (ts.flatMap membersOf)) :=
  meets_upTo_last hmany hformed (fun _ ht => Ty.height_le_heights ht) hnoError hshapes

end Union
end GradualTypes
