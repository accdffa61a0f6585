import GradualTypes.Proofs.Absorption
import GradualTypes.Proofs.Arrangements

/-!
# Unions that do not depend on the order of their members

Each pass over the members of a union leaves the same types, whatever order they come in, with
three exceptions.  Of different members that contain each other absorption keeps the last one.
A merged shape lists its keys in the order of the first shape.  And if the budget for merging
is short, it goes to the shapes that come first.

Where none of the three applies, neither to the members nor to the values of the shapes that
are merged, a union is the same under every arrangement.
-/

namespace GradualTypes

open Inquiry
open GradualTypes.Subtype (Contained exact isContainment_contained)
open GradualTypes.Ty (Formed)

variable {h : Hierarchy} {options : Options} {members others : List Ty} {t u : Ty}
  {limit n : Nat} {flavor : Flavor} {combine combine' : List Ty -> Inquiry Ty}

/-- No two different ones of some types contain each other. -/
def Ty.AreUntied (h : Hierarchy) (ts : List Ty) : Prop :=
  ∀ x ∈ ts, ∀ y ∈ ts, Contained h x y -> Contained h y x -> x = y

instance {ts : List Ty} : Decidable (Ty.AreUntied h ts) :=
  inferInstanceAs (Decidable (∀ x ∈ ts, ∀ y ∈ ts, Contained h x y -> Contained h y x -> x = y))

theorem Ty.AreUntied.subset (hmembers : Ty.AreUntied h members) (hsubset : ∀ u ∈ others, u ∈ members) :
    Ty.AreUntied h others :=
  fun x hx y hy => hmembers x (hsubset x hx) y (hsubset y hy)

namespace Union

/-!
# The passes over scalars
-/

/-- The passes before absorption. -/
def join (members : List Ty) : Inquiry (List Ty) := do
  let members ← mergeBools members
  mergeRanges members

theorem reduce_eq_join (limit : Nat) (combine : List Ty -> Inquiry Ty) (flavor : Flavor)
    (members : List Ty) :
    reduce limit combine flavor members =
      join members >>= absorb >>= mergeShapes limit combine >>= close flavor := by
  simp only [reduce, join, bind_assoc]

section Passes

variable (hready : IsReady (Session.exactly h) members) (hne : members ≠ [])
include hready hne

theorem value_mergeBools_ready : IsReady (Session.exactly h) ((mergeBools members).value (exact h)) ∧
    (mergeBools members).value (exact h) ≠ [] ∧
    ∀ u ∈ (mergeBools members).value (exact h), u ∈ members ∨ IsAdded u := by
  have hresult := (meets_mergeBools hready hne).value fun _ _ _ => rfl
  exact ⟨hresult.1, hresult.2.1, hresult.2.2.2⟩

theorem value_join_ready : IsReady (Session.exactly h) ((join members).value (exact h)) ∧
    (join members).value (exact h) ≠ [] ∧
    ∀ u ∈ (join members).value (exact h), u ∈ members ∨ IsAdded u := by
  rcases value_mergeBools_ready hready hne with ⟨hready', hne', hmem⟩
  have hresult := (meets_mergeRanges hready' hne').value fun _ _ _ => rfl
  rw [join, value_bind]
  refine ⟨hresult.1, hresult.2.1, fun u hu => ?_⟩
  exact (hresult.2.2.2 u hu).elim (hmem u) Or.inr

end Passes

theorem perm_of_ready (hmembers : IsReady (Session.exactly h) members)
    (hothers : IsReady (Session.exactly h) others) (hsame : ∀ u, u ∈ members ↔ u ∈ others) :
    members.Perm others :=
  (List.perm_ext_iff_of_nodup hmembers.nodup hothers.nodup).mpr hsame

theorem IsReady.perm {replies : Ty -> Ty -> Tristate -> Prop} (hready : IsReady replies members)
    (hperm : members.Perm others) : IsReady replies others where
  nodup := hperm.nodup_iff.mp hready.nodup
  formed := fun m hm => hready.formed m (hperm.mem_iff.mpr hm)
  isMember := fun m hm => hready.isMember m (hperm.mem_iff.mpr hm)

theorem mem_mergeBools_of_perm (hperm : members.Perm others)
    (hu : u ∈ (mergeBools members).value (exact h)) : u ∈ (mergeBools others).value (exact h) := by
  have hvalue : ∀ ts : List Ty, (mergeBools ts).value (exact h) =
      if ts.contains (.literal (.bool true)) && ts.contains (.literal (.bool false)) then
        appendNew (ts.filter fun t => t != .literal (.bool true) && t != .literal (.bool false)) .bool
      else ts := by
    intro ts
    show Inquiry.value _ (if _ then pure _ else pure _) = _
    split <;> rfl
  have hcontains : ∀ t : Ty, members.contains t = others.contains t := fun t => by
    rw [Bool.eq_iff_iff, List.contains_iff_mem, List.contains_iff_mem, hperm.mem_iff]
  rw [hvalue] at hu ⊢
  rw [hcontains, hcontains] at hu
  split at hu <;> rename_i hboth
  · rw [if_pos hboth]
    rw [mem_appendNew, List.mem_filter] at hu ⊢
    rwa [← hperm.mem_iff]
  · rw [if_neg hboth]
    exact hperm.mem_iff.mp hu

/-- The intervals that joining leaves depend on the given ones only. -/
theorem mem_joinedRanges_of_perm (hready : IsReady (Session.exactly h) members)
    (hperm : members.Perm others) {r : IntRange} (hr : r ∈ joinedRanges members) :
    r ∈ joinedRanges others := by
  have hnonempty : ∀ {ts : List Ty}, IsReady (Session.exactly h) ts ->
      ∀ r ∈ ts.filterMap Ty.range?, r.isEmpty = false :=
    fun hts r hr => (hts.isWide hr).2.nonempty
  have hready' := hready.perm hperm
  rcases IntRange.joinTouching_sortByStart (hnonempty hready) with ⟨hfull, hapart⟩
  rcases IntRange.joinTouching_sortByStart (hnonempty hready') with ⟨hfull', hapart'⟩
  have hranges : (members.filterMap Ty.range?).Perm (others.filterMap Ty.range?) :=
    hperm.filterMap _
  -- what is joined on one side lies within an interval on the other side
  have hinside : ∀ {rs qs : List IntRange}, rs.Perm qs ->
      (IntRange.joinTouching (sortByStart qs)).Pairwise (fun r s => r.touches s = false) ->
      ∀ r ∈ IntRange.joinTouching (sortByStart rs),
        ∃ s ∈ IntRange.joinTouching (sortByStart qs), r.within s = true := by
    intro rs qs hsame hpairwise
    have hsymm : Std.Symm fun r s : IntRange => r.touches s = false :=
      ⟨fun r s hrs => (IntRange.touches_comm s r).trans hrs⟩
    refine IntRange.forall_joinTouching ?_ fun r hr =>
      IntRange.exists_within_joinTouching (hsame.mem_iff.mp hr)
    rintro r s ⟨r', hr', hwithin⟩ ⟨s', hs', hwithin'⟩ htouches
    have heq : r' = s' := by
      by_contra hne
      have hno := hpairwise.forall hr' hs' hne
      rw [IntRange.touches_of_within hwithin hwithin' htouches] at hno
      cases hno
    exact ⟨r', hr', IntRange.hull_within hwithin (heq ▸ hwithin')⟩
  rcases hinside hranges hapart' r hr with ⟨s, hs, hrs⟩
  rcases hinside hranges.symm hapart s hs with ⟨q, hq, hsq⟩
  have hsymm : Std.Symm fun r s : IntRange => r.touches s = false :=
    ⟨fun r s hrs => (IntRange.touches_comm s r).trans hrs⟩
  have hsame : r = q := by
    by_contra hne
    have hno := hapart.forall hr hq hne
    have hself := IntRange.touches_self (hfull r hr)
    rw [IntRange.touches_of_within (IntRange.within_refl r) (IntRange.within_trans hrs hsq) hself] at hno
    cases hno
  subst hsame
  rw [IntRange.within_antisymm hrs hsq]
  exact hs

theorem perm_join (hready : IsReady (Session.exactly h) members) (hne : members ≠ [])
    (hperm : members.Perm others) :
    ((join members).value (exact h)).Perm ((join others).value (exact h)) := by
  have hready' := hready.perm hperm
  have hne' : others ≠ [] := fun heq => hne (heq ▸ hperm).eq_nil
  have hfirst := (value_mergeBools_ready hready hne).1
  have hfirst' := (value_mergeBools_ready hready' hne').1
  have hbools := perm_of_ready hfirst hfirst' fun u =>
    ⟨mem_mergeBools_of_perm hperm, mem_mergeBools_of_perm hperm.symm⟩
  refine perm_of_ready (value_join_ready hready hne).1 (value_join_ready hready' hne').1 fun u => ?_
  have hmem : ∀ {ts : List Ty}, IsReady (Session.exactly h) ts ->
      (u ∈ (mergeRanges ts).value (exact h) ↔
        (u ∈ ts ∧ u.range? = none) ∨ ∃ r ∈ joinedRanges ts, u = r.toTy) := fun hts =>
    (meets_mergeRanges_mem hts).value (fun _ _ _ => rfl) u
  have hjoined : ∀ r, r ∈ joinedRanges ((mergeBools members).value (exact h)) ↔
      r ∈ joinedRanges ((mergeBools others).value (exact h)) := fun r =>
    ⟨mem_joinedRanges_of_perm hfirst hbools, mem_joinedRanges_of_perm hfirst' hbools.symm⟩
  rw [join, value_bind, join, value_bind, hmem hfirst, hmem hfirst', hbools.mem_iff]
  simp only [hjoined]

/-!
# Absorption
-/

section Absorb

variable (hfinal : h.LeavesClosureFinal) (hready : IsReady (Session.exactly h) members)
include hfinal hready

theorem mem_absorb_of_perm (hperm : members.Perm others) (huntied : Ty.AreUntied h members)
    (ht : t ∈ (absorb members).value (exact h)) : t ∈ (absorb others).value (exact h) := by
  have hready' := hready.perm hperm
  have hR := isContainment_contained hfinal
  have hleft : ∀ ts : List Ty, IsAbsorption (Session.exactly h) ts ((absorb ts).value (exact h)) :=
    fun ts => (meets_absorb ts).value fun _ _ _ => rfl
  have hcovers : ∀ {ts : List Ty}, IsReady (Session.exactly h) ts ->
      Subtype.Covers (Contained h) ts ((absorb ts).value (exact h)) := fun hts =>
    (meets_absorb_covers hR (fun s t (hr : _ = exact h s t) => hr.symm) hts.formed).value
      fun _ _ _ => rfl
  have ht' := (hleft members).sublist.subset ht
  -- what is kept in one order and what covers it in the other one contain each other
  rcases hcovers hready' t (hperm.mem_iff.mp ht') with ⟨u, hu, htu⟩
  have hu' := hperm.mem_iff.mpr ((hleft others).sublist.subset hu)
  rcases hcovers hready u hu' with ⟨v, hv, huv⟩
  have hkeys := (hready.formed t ht').hasDistinctKeys
  have hsame := (hleft members).irredundant.eq_of_contained ht hv (htu.trans hfinal hkeys huv)
  rw [huntied t ht' u hu' htu (hsame ▸ huv)]
  exact hu

theorem perm_absorb (hperm : members.Perm others) (huntied : Ty.AreUntied h members) :
    ((absorb members).value (exact h)).Perm ((absorb others).value (exact h)) := by
  have hready' := hready.perm hperm
  have hnodup : ∀ {ts : List Ty}, IsReady (Session.exactly h) ts ->
      ((absorb ts).value (exact h)).Nodup := by
    intro ts hts
    have hleft : IsAbsorption (Session.exactly h) ts ((absorb ts).value (exact h)) :=
      (meets_absorb ts).value fun _ _ _ => rfl
    exact hts.nodup.sublist hleft.sublist
  have huntied' : Ty.AreUntied h others := huntied.subset fun u hu => hperm.mem_iff.mpr hu
  exact (List.perm_ext_iff_of_nodup (hnodup hready) (hnodup hready')).mpr fun t =>
    ⟨mem_absorb_of_perm hfinal hready hperm huntied,
      mem_absorb_of_perm hfinal hready' hperm.symm huntied'⟩

end Absorb

/-!
# Groups of shapes
-/

theorem perm_addToGroups (entries : List (Entry Ty)) (groups : List (List (List (Entry Ty)))) :
    (addToGroups entries groups).flatten.Perm (entries :: groups.flatten) := by
  induction groups with
  | nil => exact .refl _
  | cons group rest ih =>
      unfold addToGroups
      split
      · rw [List.flatten_cons, List.flatten_cons, List.append_assoc, List.singleton_append]
        exact List.perm_middle
      · rw [List.flatten_cons, List.flatten_cons]
        exact (ih.append_left group).trans List.perm_middle

/-- Grouping keeps all shapes. -/
theorem perm_shapeGroups (members : List Ty) :
    (shapeGroups members).flatten.Perm (members.filterMap Ty.entries?) := by
  have hfold : ∀ (shapes : List (List (Entry Ty))) (groups : List (List (List (Entry Ty)))),
      (shapes.foldl (fun groups entries => addToGroups entries groups) groups).flatten.Perm
        (shapes ++ groups.flatten) := by
    intro shapes
    induction shapes with
    | nil => exact fun groups => .refl _
    | cons entries rest ih =>
        intro groups
        refine (ih (addToGroups entries groups)).trans ?_
        exact ((perm_addToGroups entries groups).append_left rest).trans List.perm_middle
  refine (hfold (members.filterMap Ty.entries?) []).trans ?_
  rw [List.flatten_nil, List.append_nil]

/-- The groups of two and more shapes. -/
def mergeable (members : List Ty) : List (List (List (Entry Ty))) :=
  (shapeGroups members).filter fun group => 2 ≤ group.length

theorem mem_mergeable {group : List (List (Entry Ty))} :
    group ∈ mergeable members ↔ group ∈ shapeGroups members ∧ 2 ≤ group.length := by
  rw [mergeable, List.mem_filter, decide_eq_true_iff]

/-- Members in another order have their shapes in the same groups, apart from the order. -/
theorem exists_perm_group (hready : IsReady (Session.exactly h) members)
    (hperm : members.Perm others) {group : List (List (Entry Ty))}
    (hgroup : group ∈ mergeable members) : ∃ other ∈ mergeable others, group.Perm other := by
  have hready' := hready.perm hperm
  rcases shapeGroups_spec hready.formed with ⟨hgrouping, -, hmem⟩
  rcases shapeGroups_spec hready'.formed with ⟨hgrouping', -, hmem'⟩
  rcases mem_mergeable.mp hgroup with ⟨hgroup, htwo⟩
  have hnodup : ∀ {ts : List Ty}, IsReady (Session.exactly h) ts ->
      ∀ g ∈ shapeGroups ts, g.Nodup := fun hts g hg =>
    (List.nodup_flatten.mp ((perm_shapeGroups _).nodup_iff.mpr (nodup_entries hts.nodup))).1 g hg
  have hmoved : ∀ e, (∃ g ∈ shapeGroups members, e ∈ g) ↔ ∃ g ∈ shapeGroups others, e ∈ g := fun e => by
    rw [hmem e, hmem' e, hperm.mem_iff]
  rcases List.exists_mem_of_ne_nil group (hgrouping.ne_nil group hgroup) with ⟨e, he⟩
  rcases (hmoved e).mp ⟨group, hgroup, he⟩ with ⟨other, hother, he'⟩
  have hsame : group.Perm other := by
    refine (List.perm_ext_iff_of_nodup (hnodup hready group hgroup)
      (hnodup hready' other hother)).mpr fun f => ⟨fun hf => ?_, fun hf => ?_⟩
    · rcases (hmoved f).mp ⟨group, hgroup, hf⟩ with ⟨g, hg, hfg⟩
      rwa [hgrouping'.eq_of_perm hother hg he' hfg (hgrouping.same group hgroup e he f hf)]
    · rcases (hmoved f).mpr ⟨other, hother, hf⟩ with ⟨g, hg, hfg⟩
      rwa [hgrouping.eq_of_perm hgroup hg he hfg (hgrouping'.same other hother e he' f hf)]
  exact ⟨other, mem_mergeable.mpr ⟨hother, hsame.length_eq ▸ htwo⟩, hsame⟩

/-!
# Merging
-/

/-- The values of a key in several shapes. -/
def valuesAt (key : Key) (shapes : List (List (Entry Ty))) : List Ty :=
  (shapes.filterMap (Shape.entry? · key)).map (·.value)

/-- Shapes whose merging does not depend on their order: they fit into the budget, those with
the same keys list them in the same order, and the values of a key can be combined in any
order. -/
structure MergesFreely (limit : Nat) (free : List Ty -> Prop) (members : List Ty) : Prop where
  few : shapeCount (mergeable members) ≤ limit
  keys : ∀ group ∈ mergeable members, ∀ e ∈ group, ∀ f ∈ group, Shape.keys e = Shape.keys f
  values : ∀ group ∈ mergeable members, ∀ e ∈ group, ∀ key ∈ Shape.keys e, free (valuesAt key group)

instance {free : List Ty -> Prop} [DecidablePred free] : Decidable (MergesFreely limit free members) :=
  decidable_of_iff (shapeCount (mergeable members) ≤ limit ∧
      (∀ group ∈ mergeable members, ∀ e ∈ group, ∀ f ∈ group, Shape.keys e = Shape.keys f) ∧
      ∀ group ∈ mergeable members, ∀ e ∈ group, ∀ key ∈ Shape.keys e, free (valuesAt key group))
    ⟨fun hall => ⟨hall.1, hall.2.1, hall.2.2⟩, fun hmerges =>
      ⟨hmerges.few, hmerges.keys, hmerges.values⟩⟩

theorem value_mergeEntry_of_perm {group other : List (List (Entry Ty))} (hperm : group.Perm other)
    {key : Key} (hcombine : (combine' (valuesAt key other)).value (exact h) =
      (combine (valuesAt key group)).value (exact h)) :
    (mergeEntry combine' other key).value (exact h) =
      (mergeEntry combine group key).value (exact h) := by
  have hvalue : ∀ (combine : List Ty -> Inquiry Ty) (shapes : List (List (Entry Ty))),
      (mergeEntry combine shapes key).value (exact h) =
        ⟨key, (combine (valuesAt key shapes)).value (exact h),
          (shapes.filterMap (Shape.entry? · key)).any (·.optional)⟩ := fun combine shapes => by
    rw [mergeEntry, value_bind]
    rfl
  rw [hvalue, hvalue, hcombine, (hperm.filterMap _).any_eq]

theorem value_mergeGroup_of_perm {group other : List (List (Entry Ty))} (hperm : group.Perm other)
    (hne : group ≠ []) (hkeys : ∀ e ∈ group, ∀ f ∈ group, Shape.keys e = Shape.keys f)
    (hcombine : ∀ e ∈ group, ∀ key ∈ Shape.keys e,
      (combine' (valuesAt key other)).value (exact h) =
        (combine (valuesAt key group)).value (exact h)) :
    (mergeGroup combine' other).value (exact h) = (mergeGroup combine group).value (exact h) := by
  cases group with
  | nil => exact absurd rfl hne
  | cons first rest =>
      cases other with
      | nil => cases hperm.eq_nil
      | cons first' rest' =>
          have hhead : first' ∈ first :: rest := hperm.mem_iff.mpr List.mem_cons_self
          have hsame : Shape.keys first' = Shape.keys first :=
            hkeys first' hhead first List.mem_cons_self
          have hentries : ∀ key ∈ Shape.keys first,
              (mergeEntry combine' (first' :: rest') key).value (exact h) =
                (mergeEntry combine (first :: rest) key).value (exact h) := fun key hkey =>
            value_mergeEntry_of_perm hperm (hcombine first List.mem_cons_self key hkey)
          simp only [mergeGroup, List.headD_cons, value_bind, value_mapM, hsame]
          rw [List.map_congr_left hentries]

/-- With enough budget all groups of two and more shapes are merged. -/
theorem value_mergeGroups_of_few (combine : List Ty -> Inquiry Ty) {budget : Nat}
    {groups : List (List (List (Entry Ty)))}
    (hfew : shapeCount (groups.filter fun group => 2 ≤ group.length) ≤ budget) :
    (mergeGroups combine budget groups).value (exact h) =
      ((groups.filter fun group => 2 ≤ group.length).flatten.map .shape,
        (groups.filter fun group => 2 ≤ group.length).map fun group =>
          (mergeGroup combine group).value (exact h)) := by
  induction groups generalizing budget with
  | nil => rfl
  | cons group rest ih =>
      by_cases htwo : 2 ≤ group.length
      · have hkept : ((group :: rest).filter fun group => 2 ≤ group.length) =
            group :: rest.filter fun group => 2 ≤ group.length :=
          List.filter_cons_of_pos (by simpa using htwo)
        have hcount : ∀ gs : List (List (List (Entry Ty))),
            shapeCount (group :: gs) = group.length + shapeCount gs := fun gs => by simp [shapeCount]
        rw [hkept, hcount] at hfew
        have hwhole : group.take budget = group := List.take_of_length_le (by omega)
        rw [hkept, mergeGroups, if_neg (by omega)]
        simp only [hwhole, if_neg (show ¬ group.length < 2 by omega), value_bind]
        rw [ih (by omega), List.flatten_cons, List.map_append]
        rfl
      · have hkept : ((group :: rest).filter fun group => 2 ≤ group.length) =
            rest.filter fun group => 2 ≤ group.length :=
          List.filter_cons_of_neg (by simpa using htwo)
        rw [hkept] at hfew ⊢
        rw [mergeGroups, if_pos (by omega)]
        exact ih hfew

/-- The members with the merged shapes in the place of those that were merged. -/
def exchange (limit : Nat) (combine : List Ty -> Inquiry Ty) (members : List Ty) :
    Inquiry (List Ty) := do
  let (removed, added) ← mergeGroups combine limit (shapeGroups members)
  return added.foldl appendNew (members.filter fun t => !removed.contains t)

/-- What is known of the exchange if the budget is long enough. -/
structure Exchanges (h : Hierarchy) (combine : List Ty -> Inquiry Ty) (members result : List Ty) :
    Prop where
  ready : IsReady (Session.exactly h) result
  mem_iff : ∀ u, u ∈ result ↔
    (u ∈ members ∧ u ∉ (mergeable members).flatten.map .shape) ∨
      u ∈ (mergeable members).map fun group => (mergeGroup combine group).value (exact h)

theorem exchanges (hready : IsReady (Session.exactly h) members)
    (hfew : shapeCount (mergeable members) ≤ limit)
    (hmerged : ∀ group ∈ mergeable members,
      Formed (Session.exactly h) ((mergeGroup combine group).value (exact h)) ∧
        IsMember ((mergeGroup combine group).value (exact h))) :
    Exchanges h combine members ((exchange limit combine members).value (exact h)) := by
  have hleft := hready.sublist (List.filter_sublist
    (p := fun t => !((mergeable members).flatten.map Ty.shape).contains t))
  rcases foldl_appendNew hleft (List.forall_mem_map.mpr hmerged) with ⟨hresult, hmem⟩
  rw [exchange, value_bind, value_mergeGroups_of_few combine hfew]
  refine ⟨hresult, fun u => (hmem u).trans (or_congr_left ?_)⟩
  rw [List.mem_filter, Bool.not_eq_true', ← Bool.not_eq_true, List.contains_iff_mem]

theorem value_mergeShapes_of_few (hfew : shapeCount (mergeable members) ≤ limit) :
    (mergeShapes limit combine members).value (exact h) =
      if mergeable members = [] then members
      else (absorb ((exchange limit combine members).value (exact h))).value (exact h) := by
  have hgroups := value_mergeGroups_of_few (h := h) combine hfew
  rw [mergeShapes, value_bind, exchange, value_bind, hgroups]
  cases hnone : (shapeGroups members).filter fun group => 2 ≤ group.length with
  | nil =>
      rw [mergeable, hnone, if_pos rfl]
      rfl
  | cons group rest =>
      rw [mergeable, hnone, if_neg (List.cons_ne_nil group rest)]
      rfl

/-- Members in another order have the same shapes in groups of two and more. -/
theorem perm_mergeable (hready : IsReady (Session.exactly h) members)
    (hperm : members.Perm others) : (mergeable members).flatten.Perm (mergeable others).flatten := by
  have hready' := hready.perm hperm
  have hnodup : ∀ {ts : List Ty}, IsReady (Session.exactly h) ts ->
      (mergeable ts).flatten.Nodup := fun {ts} hts =>
    ((perm_shapeGroups ts).nodup_iff.mpr (nodup_entries hts.nodup)).sublist
      List.filter_sublist.flatten
  have hmoved : ∀ {ts us : List Ty} {e : List (Entry Ty)}, IsReady (Session.exactly h) ts ->
      ts.Perm us -> e ∈ (mergeable ts).flatten -> e ∈ (mergeable us).flatten := by
    intro ts us e hts hsame he
    rcases List.mem_flatten.mp he with ⟨group, hgroup, heg⟩
    rcases exists_perm_group hts hsame hgroup with ⟨other, hother, hgroups⟩
    exact List.mem_flatten.mpr ⟨other, hother, hgroups.mem_iff.mp heg⟩
  exact (List.perm_ext_iff_of_nodup (hnodup hready) (hnodup hready')).mpr fun e =>
    ⟨hmoved hready hperm, hmoved hready' hperm.symm⟩

theorem mergeable_eq_nil_iff : mergeable members = [] ↔ (mergeable members).flatten = [] := by
  constructor
  · intro hnil
    rw [hnil, List.flatten_nil]
  · intro hnil
    cases hgroups : mergeable members with
    | nil => rfl
    | cons group rest =>
        have htwo := (mem_mergeable.mp (hgroups ▸ List.mem_cons_self : group ∈ mergeable members)).2
        rw [hgroups, List.flatten_cons, List.append_eq_nil_iff] at hnil
        rw [hnil.1] at htwo
        simp at htwo

/-- Ways to combine values that agree on what can be combined in any order. -/
def AgreeOn (h : Hierarchy) (free : List Ty -> Prop) (combine combine' : List Ty -> Inquiry Ty) :
    Prop :=
  ∀ ts us, free ts -> ts.Perm us -> (combine' us).value (exact h) = (combine ts).value (exact h)

section MergeShapes

variable {free : List Ty -> Prop} (hready : IsReady (Session.exactly h) members)
  (hperm : members.Perm others) (hcombine : AgreeOn h free combine combine')
  (hmerges : MergesFreely limit free members)

theorem value_merged_of_perm (hcombine : AgreeOn h free combine combine')
    (hmerges : MergesFreely limit free members) {group other : List (List (Entry Ty))}
    (hgroup : group ∈ mergeable members) (hsame : group.Perm other) :
    (mergeGroup combine' other).value (exact h) = (mergeGroup combine group).value (exact h) := by
  have htwo := (mem_mergeable.mp hgroup).2
  refine value_mergeGroup_of_perm hsame (List.ne_nil_of_length_pos (by omega))
    (hmerges.keys group hgroup) fun e he key hkey => ?_
  exact hcombine _ _ (hmerges.values group hgroup e he key hkey) ((hsame.filterMap _).map _)

include hready hperm hcombine hmerges

theorem mem_merged_of_perm :
    (t ∈ (mergeable others).map fun group => (mergeGroup combine' group).value (exact h)) ↔
      t ∈ (mergeable members).map fun group => (mergeGroup combine group).value (exact h) := by
  rw [List.mem_map, List.mem_map]
  constructor
  · rintro ⟨other, hother, rfl⟩
    rcases exists_perm_group (hready.perm hperm) hperm.symm hother with ⟨group, hgroup, hsame⟩
    exact ⟨group, hgroup, (value_merged_of_perm hcombine hmerges hgroup hsame.symm).symm⟩
  · rintro ⟨group, hgroup, rfl⟩
    rcases exists_perm_group hready hperm hgroup with ⟨other, hother, hsame⟩
    exact ⟨other, hother, value_merged_of_perm hcombine hmerges hgroup hsame⟩

variable (hmerged : ∀ group ∈ mergeable members,
  Formed (Session.exactly h) ((mergeGroup combine group).value (exact h)) ∧
    IsMember ((mergeGroup combine group).value (exact h)))
include hmerged

theorem perm_exchange :
    ((exchange limit combine members).value (exact h)).Perm
      ((exchange limit combine' others).value (exact h)) := by
  have hready' := hready.perm hperm
  have hgroups := perm_mergeable hready hperm
  have hmem := fun t => mem_merged_of_perm (t := t) hready hperm hcombine hmerges
  have hmerged' : ∀ group ∈ mergeable others,
      Formed (Session.exactly h) ((mergeGroup combine' group).value (exact h)) ∧
        IsMember ((mergeGroup combine' group).value (exact h)) := by
    intro group hgroup
    rcases List.mem_map.mp ((hmem _).mp (List.mem_map_of_mem hgroup)) with ⟨other, hother, heq⟩
    exact heq ▸ hmerged other hother
  have hfew' : shapeCount (mergeable others) ≤ limit := by
    have hfew := hmerges.few
    rwa [shapeCount, hgroups.length_eq] at hfew
  have hleft := exchanges hready hmerges.few hmerged
  have hright := exchanges hready' hfew' hmerged'
  refine perm_of_ready hleft.ready hright.ready fun u => ?_
  rw [hleft.mem_iff, hright.mem_iff, hmem, hperm.mem_iff, (hgroups.map Ty.shape).mem_iff]

/-- Merging leaves the same members. -/
theorem perm_mergeShapes (hfinal : h.LeavesClosureFinal)
    (huntied : Ty.AreUntied h ((exchange limit combine members).value (exact h))) :
    ((mergeShapes limit combine members).value (exact h)).Perm
      ((mergeShapes limit combine' others).value (exact h)) := by
  have hgroups := perm_mergeable hready hperm
  have hfew' : shapeCount (mergeable others) ≤ limit := by
    have hfew := hmerges.few
    rwa [shapeCount, hgroups.length_eq] at hfew
  have hnone : mergeable members = [] ↔ mergeable others = [] := by
    rw [mergeable_eq_nil_iff, mergeable_eq_nil_iff]
    exact ⟨fun hnil => (hnil ▸ hgroups).symm.eq_nil, fun hnil => (hnil ▸ hgroups).eq_nil⟩
  rw [value_mergeShapes_of_few hmerges.few, value_mergeShapes_of_few hfew']
  by_cases hnil : mergeable members = []
  · rwa [if_pos hnil, if_pos (hnone.mp hnil)]
  · rw [if_neg hnil, if_neg (mt hnone.mpr hnil)]
    have hexchange := perm_exchange hready hperm hcombine hmerges hmerged
    exact perm_absorb hfinal (exchanges hready hmerges.few hmerged).ready hexchange huntied

end MergeShapes

/-!
# All passes
-/

theorem value_close_of_perm (hperm : members.Perm others) :
    (close flavor members).value (exact h) = (close flavor others).value (exact h) := by
  have hlength := hperm.length_eq
  have hsorted : Ty.sortCanonical members = Ty.sortCanonical others :=
    Ty.eq_of_isCanonical (Ty.isCanonical_sortCanonical _) (Ty.isCanonical_sortCanonical _)
      ((Ty.perm_sortCanonical members).trans (hperm.trans (Ty.perm_sortCanonical others).symm))
  match members, others with
  | [t], others => rw [List.perm_singleton.mp hperm.symm]
  | [], others => rw [hperm.symm.eq_nil]
  | t :: t' :: rest, u :: u' :: rest' =>
      show Ty.union flavor (Ty.sortCanonical _) = Ty.union flavor (Ty.sortCanonical _)
      rw [hsorted]

/-- Members whose union does not depend on their order. -/
structure ReducesFreely (h : Hierarchy) (limit : Nat) (free : List Ty -> Prop)
    (combine : List Ty -> Inquiry Ty) (members : List Ty) : Prop where
  untied : Ty.AreUntied h ((join members).value (exact h))
  merges : limit < 2 ∨
    (MergesFreely limit free ((join members >>= absorb).value (exact h)) ∧
      Ty.AreUntied h ((join members >>= absorb >>= exchange limit combine).value (exact h)))

instance {free : List Ty -> Prop} [DecidablePred free] :
    Decidable (ReducesFreely h limit free combine members) :=
  decidable_of_iff (Ty.AreUntied h ((join members).value (exact h)) ∧
      (limit < 2 ∨ (MergesFreely limit free ((join members >>= absorb).value (exact h)) ∧
        Ty.AreUntied h ((join members >>= absorb >>= exchange limit combine).value (exact h)))))
    ⟨fun hall => ⟨hall.1, hall.2⟩, fun hreduces => ⟨hreduces.untied, hreduces.merges⟩⟩

/-- What is known of the values that a union combines further down. -/
def IsLow (h : Hierarchy) (n : Nat) (free : List Ty -> Prop) (ts : List Ty) : Prop :=
  free ts ∧ ∀ t ∈ ts, Formed (Session.exactly h) t ∧ t.height ≤ n

theorem MergesFreely.imp {free free' : List Ty -> Prop} (hmerges : MergesFreely limit free members)
    (himp : ∀ group ∈ mergeable members, ∀ key, free (valuesAt key group) ->
      free' (valuesAt key group)) : MergesFreely limit free' members where
  few := hmerges.few
  keys := hmerges.keys
  values := fun group hgroup e he key hkey =>
    himp group hgroup key (hmerges.values group hgroup e he key hkey)

section Reduce

variable {free : List Ty -> Prop} (hfinal : h.LeavesClosureFinal)
  (hready : IsReady (Session.exactly h) members) (hne : members ≠ [])
  (hheight : ∀ m ∈ members, m.height ≤ n + 1)
include hready hne

/-- What absorption leaves is ready, and its shapes are members. -/
theorem value_pruned_ready :
    IsReady (Session.exactly h) ((join members >>= absorb).value (exact h)) ∧
      ∀ e, .shape e ∈ (join members >>= absorb).value (exact h) -> .shape e ∈ members := by
  rcases value_join_ready hready hne with ⟨hready', -, hmem⟩
  have hleft : IsAbsorption (Session.exactly h) ((join members).value (exact h))
      ((absorb ((join members).value (exact h))).value (exact h)) :=
    (meets_absorb _).value fun _ _ _ => rfl
  rw [value_bind]
  exact ⟨hready'.sublist hleft.sublist, fun e he =>
    shape_mem_of_added hmem (hleft.sublist.subset he)⟩

include hheight

theorem isMergeable_of_mem {group : List (List (Entry Ty))}
    (hgroup : group ∈ mergeable ((join members >>= absorb).value (exact h))) :
    ∀ e ∈ group, IsMergeable (Session.exactly h) n e := by
  intro e he
  rcases value_pruned_ready hready hne with ⟨hready', hshapes⟩
  have he' := mem_shapeGroups.mp ⟨group, (mem_mergeable.mp hgroup).1, he⟩
  refine ⟨hready'.formed _ he', fun d hd => ?_⟩
  have hle := hheight _ (hshapes e he')
  have hlt := Ty.height_lt_of_mem_children (Ty.mem_children_shape hd)
  omega

/-- The values of a key in a group are formed, and less high than the shapes. -/
theorem formed_valuesAt {group : List (List (Entry Ty))}
    (hgroup : group ∈ mergeable ((join members >>= absorb).value (exact h))) {key : Key} :
    ∀ v ∈ valuesAt key group, Formed (Session.exactly h) v ∧ v.height ≤ n := by
  intro v hv
  rcases List.mem_map.mp hv with ⟨d, hd, rfl⟩
  rcases List.mem_filterMap.mp hd with ⟨e, he, hentry⟩
  rcases isMergeable_of_mem hready hne hheight hgroup e he with ⟨hformed, hlow⟩
  have hde := (Shape.mem_of_entry? hentry).1
  exact ⟨hformed.value hde, hlow d hde⟩

include hfinal

theorem value_reduce_of_perm (hperm : members.Perm others)
    (hcombines : Combines (Session.exactly h) n combine)
    (hcombine : AgreeOn h (IsLow h n free) combine combine')
    (hfree : ReducesFreely h limit free combine members) :
    (reduce limit combine' flavor others).value (exact h) =
      (reduce limit combine flavor members).value (exact h) := by
  have hjoin := perm_join hready hne hperm
  have habsorb : ((join members >>= absorb).value (exact h)).Perm
      ((join others >>= absorb).value (exact h)) := by
    rw [value_bind, value_bind]
    exact perm_absorb hfinal (value_join_ready hready hne).1 hjoin hfree.untied
  have hmerge : ((join members >>= absorb >>= mergeShapes limit combine).value (exact h)).Perm
      ((join others >>= absorb >>= mergeShapes limit combine').value (exact h)) := by
    rw [value_bind _ (join members >>= absorb), value_bind _ (join others >>= absorb)]
    rcases hfree.merges with hlimit | ⟨hmerges, huntied⟩
    · rw [mergeShapes, mergeShapes, mergeGroups_of_small hlimit, mergeGroups_of_small hlimit]
      exact habsorb
    · rw [value_bind _ (join members >>= absorb)] at huntied
      have hlow : MergesFreely limit (IsLow h n free) ((join members >>= absorb).value (exact h)) :=
        hmerges.imp fun group hgroup key hfree =>
          ⟨hfree, formed_valuesAt hready hne hheight hgroup⟩
      refine perm_mergeShapes (value_pruned_ready hready hne).1 habsorb hcombine hlow
        (fun group hgroup => ?_) hfinal huntied
      have hmergeable := isMergeable_of_mem hready hne hheight hgroup
      have htwo := (mem_mergeable.mp hgroup).2
      cases group with
      | nil => simp at htwo
      | cons first rest =>
          have hmerged : ∃ entries, (mergeGroup combine (first :: rest)).value (exact h) =
              .shape entries ∧ _ := (meets_mergeGroup hcombines hmergeable).value fun _ _ _ => rfl
          rcases hmerged with ⟨entries, heq, hformed, -⟩
          exact ⟨hformed, by simp [heq, IsMember, Ty.unionMembers?]⟩
  rw [reduce_eq_join, reduce_eq_join, value_bind _ (join members >>= absorb >>= _),
    value_bind _ (join others >>= absorb >>= _)]
  exact (value_close_of_perm hmerge).symm

end Reduce

/-!
# Unions under an arrangement
-/

/-- The different members of which a union is reduced. -/
def distinctMembers (ts : List Ty) : List Ty :=
  (Ty.distinct (ts.flatMap membersOf)).filter (· != .never)

/-- Types whose union does not depend on the order in which the members come.  One of them is
the union as it is, and errors and `mixed` settle it. -/
def IsOrderFree (h : Hierarchy) (limit : Nat) : Nat -> List Ty -> Prop
  | _, [] => True
  | _, [_] => True
  | 0, _ => True
  | n + 1, ts =>
      .error ∈ ts.flatMap membersOf ∨ .mixed ∈ ts.flatMap membersOf ∨
        ReducesFreely h limit (IsOrderFree h limit n) (upTo limit n) (distinctMembers ts)

instance decidableOrderFree (h : Hierarchy) (limit : Nat) :
    ∀ n ts, Decidable (IsOrderFree h limit n ts)
  | 0, [] => isTrue trivial
  | 0, [_] => isTrue trivial
  | 0, _ :: _ :: _ => isTrue trivial
  | _ + 1, [] => isTrue trivial
  | _ + 1, [_] => isTrue trivial
  | n + 1, t :: u :: rest =>
      have : DecidablePred (IsOrderFree h limit n) := decidableOrderFree h limit n
      inferInstanceAs (Decidable (.error ∈ (t :: u :: rest).flatMap membersOf ∨
        .mixed ∈ (t :: u :: rest).flatMap membersOf ∨ ReducesFreely h limit (IsOrderFree h limit n)
          (upTo limit n) (distinctMembers (t :: u :: rest))))

theorem flavorOf_perm {ts us : List Ty} (hperm : ts.Perm us) : flavorOf ts = flavorOf us := by
  unfold flavorOf
  rw [hperm.all_eq]

/-- What becomes of members that have been put in order depends on the members only. -/
theorem value_settle_of_perm {free : List Ty -> Prop} (hfinal : h.LeavesClosureFinal)
    (hnodup : members.Nodup)
    (hmembers : ∀ m ∈ members, Formed (Session.exactly h) m ∧ m.unionMembers? = none ∧
      m.height ≤ n + 1)
    (hperm : members.Perm others) (hcombines : Combines (Session.exactly h) n combine)
    (hcombine : AgreeOn h (IsLow h n free) combine combine')
    (hfree : .error ∈ members ∨ .mixed ∈ members ∨
      ReducesFreely h limit free combine (members.filter (· != .never))) :
    (settle limit combine' flavor others).value (exact h) =
      (settle limit combine flavor members).value (exact h) := by
  have hcontains : ∀ {ts us : List Ty} (t : Ty), ts.Perm us -> ts.contains t = us.contains t :=
    fun t hsame => by rw [Bool.eq_iff_iff, List.contains_iff_mem, List.contains_iff_mem, hsame.mem_iff]
  have hleft : (members.filter (· != .never)).Perm (others.filter (· != .never)) := hperm.filter _
  unfold settle
  rw [← hcontains .error hperm]
  split
  · rfl
  · rename_i herror
    dsimp only
    rw [← hcontains .mixed hleft]
    split
    · rfl
    · rename_i hmixed
      rw [List.contains_iff_mem] at herror hmixed
      have hready : IsReady (Session.exactly h) (members.filter (· != .never)) :=
        isReady_left hnodup (fun m hm => (hmembers m hm).1) (fun m hm => (hmembers m hm).2.1)
          herror hmixed
      have hheight : ∀ m ∈ members.filter (· != .never), m.height ≤ n + 1 := fun m hm =>
        (hmembers m (List.mem_filter.mp hm).1).2.2
      have hfree' := (hfree.resolve_left herror).resolve_left fun hmem =>
        hmixed (List.mem_filter.mpr ⟨hmem, rfl⟩)
      generalize members.filter (· != .never) = left at *
      generalize others.filter (· != .never) = right at *
      match left, right with
      | [], right => rw [hleft.symm.eq_nil]
      | [t], right => rw [List.perm_singleton.mp hleft.symm]
      | t :: t' :: rest, [] => cases hleft.eq_nil
      | t :: t' :: rest, [u] => cases List.perm_singleton.mp hleft
      | t :: t' :: rest, u :: u' :: rest' =>
          exact value_reduce_of_perm hfinal hready (List.cons_ne_nil t _) hheight hleft hcombines
            hcombine hfree'

/-- The union of types that are free of an order is the same under every arrangement. -/
theorem value_upToBy (a : Arrangement) (hfinal : h.LeavesClosureFinal) {ts us : List Ty}
    (hlow : IsLow h n (IsOrderFree h limit n) ts) (hperm : ts.Perm us) :
    (upToBy a limit n us).value (exact h) = (upTo limit n ts).value (exact h) := by
  induction n generalizing ts us with
  | zero =>
      match ts, us with
      | [], us => rw [hperm.symm.eq_nil]; rfl
      | [t], us => rw [List.perm_singleton.mp hperm.symm]; rfl
      | t :: _ :: _, _ =>
          have hpos := t.height_pos
          have hle := (hlow.2 t List.mem_cons_self).2
          omega
  | succ n ih =>
      match ts, us with
      | [], us => rw [hperm.symm.eq_nil]; rfl
      | [t], us => rw [List.perm_singleton.mp hperm.symm]; rfl
      | t :: t' :: rest, [] => cases hperm.eq_nil
      | t :: t' :: rest, [u] => cases List.perm_singleton.mp hperm
      | t :: t' :: rest, u :: u' :: rest' =>
          have hmembers : ∀ m ∈ Ty.distinct ((t :: t' :: rest).flatMap membersOf),
              Formed (Session.exactly h) m ∧ m.unionMembers? = none ∧ m.height ≤ n + 1 := by
            intro m hm
            rcases List.mem_flatMap.mp (Ty.mem_distinct.mp hm) with ⟨v, hv, hmv⟩
            rcases hlow.2 v hv with ⟨hformed, hheight⟩
            rcases mem_membersOf hformed hheight hmv with ⟨hformed', hflat, hheight', -⟩
            exact ⟨hformed', hflat, hheight'⟩
          have harranged : (Ty.distinct ((t :: t' :: rest).flatMap membersOf)).Perm
              (a.arrange ((u :: u' :: rest').flatMap membersOf)) :=
            Arrangement.perm (a := .byCode) fun m => (hperm.flatMap_right membersOf).mem_iff
          show (settle limit (upToBy a limit n) (flavorOf (u :: u' :: rest')) _).value _ = _
          rw [← flavorOf_perm hperm]
          refine value_settle_of_perm hfinal (Ty.nodup_distinct _) hmembers harranged
            (combines_upTo limit n) (fun _ _ hlow hperm => ih hlow hperm) ?_
          rw [Ty.mem_distinct, Ty.mem_distinct]
          exact hlow.1

/-- Types whose union is the same under every arrangement. -/
def JoinsFreely (h : Hierarchy) (options : Options) (ts : List Ty) : Prop :=
  IsOrderFree h options.maxUnionShapeMerge (Ty.heights ts) ts

instance {ts : List Ty} : Decidable (JoinsFreely h options ts) :=
  decidableOrderFree h options.maxUnionShapeMerge (Ty.heights ts) ts

section Of

variable {ts : List Ty} (a : Arrangement) (hfinal : h.LeavesClosureFinal)
  (hformed : ∀ t ∈ ts, Formed (Session.exactly h) t) (hfree : JoinsFreely h options ts)
include hfinal hformed hfree

theorem value_ofBy :
    (ofBy a options ts).value (exact h) = (of options ts).value (exact h) :=
  value_upToBy a hfinal ⟨hfree, fun t ht => ⟨hformed t ht, Ty.height_le_heights ht⟩⟩ (.refl ts)

theorem value_benevolentOfBy :
    (benevolentOfBy a options ts).value (exact h) = (benevolentOf options ts).value (exact h) := by
  rw [benevolentOfBy, benevolentOf, value_bind, value_bind, value_ofBy a hfinal hformed hfree]

end Of

end Union

/-- The parts of a distributed intersection are put together in the same way. -/
theorem Intersection.value_gatherBy (a : Arrangement) (hfinal : h.LeavesClosureFinal)
    {parts : List Ty} (hformed : ∀ t ∈ parts, Formed (Session.exactly h) t)
    (hfree : Union.JoinsFreely h options parts) :
    (gatherBy a options flavor parts).value (exact h) =
      (gather options flavor parts).value (exact h) := by
  cases flavor with
  | plain => exact Union.value_ofBy a hfinal hformed hfree
  | benevolent => exact Union.value_benevolentOfBy a hfinal hformed hfree

end GradualTypes
