import GradualTypes.Proofs.NestedUnions

/-!
# Unions that are one of the given types

The passes over the members of a union leave the alternatives of a type as they are: they
are merged and irredundant, so that there is nothing left to do.  If other members are below
that type, they are dropped, and its alternatives stay, as long as none of them is the same
up to spelling as another member that comes later.

What may still change is that shapes with the same keys are merged, if the budget of an
earlier union did not suffice for them.
-/

namespace GradualTypes

namespace IntRange

variable {r : IntRange} {rs : List IntRange}

theorem touches_self (hr : r.isEmpty = false) : r.touches r = true := by
  rw [isEmpty_eq_false_iff] at hr
  rw [touches_iff, and_self]
  intro a ha b hb
  have hab := hr a ha b hb
  omega

/-- Where no two intervals touch, there is nothing to join. -/
theorem mem_joinTouching_of_apart (hrs : ∀ r ∈ rs, r.isEmpty = false)
    (hapart : ∀ r ∈ rs, ∀ s ∈ rs, r ≠ s -> r.touches s = false) :
    r ∈ joinTouching (Union.sortByStart rs) ↔ r ∈ rs := by
  have hsame : ∀ r ∈ rs, ∀ s ∈ rs, r.touches s = true -> r = s := by
    intro r hr s hs htouches
    by_contra hne
    rw [hapart r hr s hs hne] at htouches
    cases htouches
  have hhull : ∀ s : IntRange, s.hull s = s := fun s =>
    within_antisymm (hull_within (within_refl s) (within_refl s)) (within_hull_left s s)
  have hold : ∀ s ∈ joinTouching (Union.sortByStart rs), s ∈ rs := by
    refine forall_joinTouching (P := (· ∈ rs)) (fun r s hr hs htouches => ?_) fun _ => id
    rwa [hsame r hr s hs htouches, hhull]
  constructor
  · exact hold r
  · intro hr
    rcases exists_within_joinTouching hr with ⟨s, hs, hwithin⟩
    have htouches := touches_of_within (within_refl r) hwithin (touches_self (hrs r hr))
    rwa [hsame r hr s (hold s hs) htouches]

end IntRange

theorem Ty.IsProper.ne_never_of_mem {h : Hierarchy} {t u : Ty} (ht : t.IsProper h)
    (hne : t ≠ .never) (hu : u ∈ Union.membersOf t) : u ≠ .never := by
  cases t with
  | union flavor members => exact (ht.formed.unionMember hu).2.2.2.1
  | _ => rwa [List.mem_singleton.mp hu]

namespace Union

open Inquiry
open GradualTypes.Subtype (Contained Covers exact isContainment_contained)
open GradualTypes.Ty (Formed)

variable {h : Hierarchy} {replies : Ty -> Ty -> Tristate -> Prop} {options : Options}
  {T : Ty -> Prop}
  {members kept rest pruned : List Ty} {a b t u : Ty} {limit : Nat} {flavor : Flavor}
  {combine : List Ty -> Inquiry Ty}

/-!
# The passes before shapes are merged
-/

theorem meets_mergeBools_eq (hbools : HasMergedBools members) :
    (mergeBools members).Meets (.free replies) (· = members) := by
  apply (meets_mergeBools_mem members).imp
  intro result hresult
  exact hresult.resolve_right fun hboth => hbools ⟨hboth.1, hboth.2.1⟩

theorem meets_mergeRanges_same (hready : IsReady replies members)
    (hranges : HasMergedRanges members) :
    (mergeRanges members).Meets (.free replies) fun result => ∀ u, u ∈ result ↔ u ∈ members := by
  have hjoined : ∀ r, r ∈ joinedRanges members ↔ Ty.range r ∈ members := by
    intro r
    rw [← mem_ranges]
    refine IntRange.mem_joinTouching_of_apart (fun r hr => (hready.isWide hr).2.nonempty) ?_
    exact fun r hr s hs => hranges r s (mem_ranges.mp hr) (mem_ranges.mp hs)
  have htoTy : ∀ {r : IntRange}, Ty.range r ∈ members -> r.toTy = .range r := fun hr =>
    IntRange.toTy_eq_range (hready.isWide (mem_ranges.mpr hr)).1
  apply (meets_mergeRanges_mem hready).imp
  intro result hmem u
  rw [hmem u]
  constructor
  · rintro (⟨hu, -⟩ | ⟨r, hr, rfl⟩)
    · exact hu
    · have hr' := (hjoined r).mp hr
      rwa [htoTy hr']
  · intro hu
    cases hrange : u.range? with
    | none => exact Or.inl ⟨hu, rfl⟩
    | some r =>
        cases u <;> simp [Ty.range?] at hrange
        subst hrange
        exact Or.inr ⟨_, (hjoined _).mpr hu, (htoTy hu).symm⟩

/-- Members none of which is contained in another one all stay. -/
theorem meets_absorbFrom_eq (hyes : ∀ s t, replies s t .yes -> Contained h s t)
    (hnodup : (kept ++ rest).Nodup)
    (hsame : ∀ x ∈ kept ++ rest, ∀ y ∈ kept ++ rest, Contained h x y -> x = y) :
    (absorbFrom kept rest).Meets (.free replies) (· = kept ++ rest) := by
  induction rest generalizing kept with
  | nil => exact (List.append_nil kept).symm
  | cons t rest ih =>
      apply (meets_isAbsorbed_covers hyes (kept ++ rest)).bind
      intro absorbed habsorbed
      have happend : kept ++ [t] ++ rest = kept ++ t :: rest := by simp
      have hfalse : absorbed = false := by
        by_contra htrue
        rw [Bool.not_eq_false] at htrue
        obtain ⟨u, hu, htu⟩ := habsorbed htrue
        have hperm : (kept ++ t :: rest).Perm (t :: (kept ++ rest)) := List.perm_middle
        have heq := hsame t (by simp) u (hperm.mem_iff.mpr (List.mem_cons_of_mem t hu)) htu
        exact (List.nodup_cons.mp (hperm.nodup_iff.mp hnodup)).1 (heq ▸ hu)
      rw [hfalse, if_neg (by simp), ← happend]
      exact ih (happend ▸ hnodup) (happend ▸ hsame)

theorem meets_absorb_eq (hyes : ∀ s t, replies s t .yes -> Contained h s t)
    (hnodup : members.Nodup) (hsame : ∀ x ∈ members, ∀ y ∈ members, Contained h x y -> x = y) :
    (absorb members).Meets (.free replies) (· = members) := by
  unfold absorb
  split
  · rfl
  · refine ⟨trivial, ?_⟩
    have hstart : ([] ++ members).Nodup := hnodup
    exact meets_absorbFrom_eq hyes hstart hsame

/-- Passes have nothing to do on members that they have left before. -/
theorem meets_prune_same (hyes : ∀ s t, replies s t .yes -> Contained h s t)
    (hready : IsReady replies members) (hne : members ≠ []) (hbools : HasMergedBools members)
    (hranges : HasMergedRanges members)
    (hsame : ∀ x ∈ members, ∀ y ∈ members, Contained h x y -> x = y) :
    (prune members).Meets (.free replies) fun pruned =>
      IsReady replies pruned ∧ ∀ u, u ∈ pruned ↔ u ∈ members := by
  apply (meets_mergeBools_eq hbools).bind
  rintro _ rfl
  apply ((meets_mergeRanges hready hne).and_free (meets_mergeRanges_same hready hranges)).bind
  rintro second ⟨⟨hready₂, -⟩, hmem⟩
  have hsame₂ : ∀ x ∈ second, ∀ y ∈ second, Contained h x y -> x = y := fun x hx y hy =>
    hsame x ((hmem x).mp hx) y ((hmem y).mp hy)
  apply (meets_absorb_eq hyes hready₂.nodup hsame₂).imp
  rintro _ rfl
  exact ⟨hready₂, hmem⟩

/-!
# Members below a type
-/

/-- What pruning makes of members that have a property which is kept when a union is made. -/
structure IsPruned (h : Hierarchy) (replies : Ty -> Ty -> Tristate -> Prop) (T : Ty -> Prop)
    (members pruned : List Ty) : Prop where
  ready : IsReady replies pruned
  irredundant : IsIrredundant replies pruned
  added : ∀ u ∈ pruned, u ∈ members ∨ IsAdded u
  covers : Covers (Contained h) members pruned
  kept : ∀ u ∈ pruned, T u
  outlasts : ∃ middle, KeepsOthers members middle ∧ ∀ u ∈ pruned, Outlasts replies middle u

theorem meets_prune (hfinal : h.LeavesClosureFinal) (hyes : ∀ s t, replies s t .yes -> Contained h s t)
    (hT : IsKept T) (hready : IsReady replies members) (hne : members ≠ [])
    (hall : ∀ m ∈ members, T m) :
    (prune members).Meets (.free replies) (IsPruned h replies T members) := by
  have hcovers := meets_prune_covers (isContainment_contained hfinal) hyes hready hne
  have hkept := meets_prune_kept hT hready hne hall
  have hothers := hkept.and (meets_prune_outlast hready hne) fun _ _ _ => id
  refine ((meets_prune_ready hready hne).and_free (hcovers.and hothers fun _ _ _ => id)).imp ?_
  rintro pruned ⟨hpruned, hcovers, hkept, houtlasts⟩
  exact ⟨hpruned.ready, hpruned.irredundant, hpruned.added, hcovers, hkept, houtlasts⟩

section Below

variable (hfinal : h.LeavesClosureFinal) (hb : b.IsProper h)
  (hpruned : IsPruned h (Session.exactly h) (fun u => Contained h u b) members pruned)
  (hcomplete : ∀ m ∈ members, Ty.IsComplete m) (hordered : IsOrdered members)
  (hmem : ∀ y ∈ membersOf b, y ∈ members)
  (hlast : ∀ x ∈ members, ∀ y ∈ membersOf b, Contained h x y -> Contained h y x ->
    ¬ y.code < x.code)
include hfinal hb hpruned hcomplete hordered hmem hlast

/-- What contains the same as an alternative of a type is that alternative. -/
theorem IsPruned.eq_of_alternative {x y : Ty} (hx : x ∈ pruned) (hy : y ∈ membersOf b)
    (hxy : Contained h x y) (hyx : Contained h y x) : x = y := by
  rcases hb.alternative hy with ⟨hyproper, hyflat⟩
  have hmember := hpruned.ready.isMember x hx
  have hxproper : x.IsProper h := {
    formed := hpruned.ready.formed x hx
    complete := (hpruned.added x hx).elim (hcomplete x) IsAdded.isComplete
    noError := hmember.1 }
  refine Subtype.eq_of_codes hfinal hxproper hmember.2.2.2 hyproper hyflat hxy hyx
    fun hxscalar hyscalar => ?_
  obtain ⟨middle, hothers, houtlasts⟩ := hpruned.outlasts
  rcases (houtlasts x hx).isLast (hothers.ordered hordered) hxscalar with ⟨hxmiddle, hxlast⟩
  constructor
  · exact hxlast y ((hothers.mem_iff hyscalar).mpr (hmem y hy)) hyscalar hxy hyx
  · exact hlast x ((hothers.mem_iff hxscalar).mp hxmiddle) y hy hxy hyx

/-- Members below a type are pruned to its alternatives, if they contain these and each of
the alternatives is the last one of the members that contain the same. -/
theorem IsPruned.mem_iff (u : Ty) : u ∈ pruned ↔ u ∈ membersOf b := by
  have hinside : ∀ x ∈ pruned, x ∈ membersOf b := by
    intro x hx
    have hxformed := hpruned.ready.formed x hx
    have hmember := hpruned.ready.isMember x hx
    have hxcomplete := (hpruned.added x hx).elim (hcomplete x) IsAdded.isComplete
    obtain ⟨y, hy, hxy⟩ := (Subtype.contained_iff_alternative ⟨hxformed, hxcomplete, hmember.1⟩
      hmember.2.2.2 hb).mp (hpruned.kept x hx)
    obtain ⟨z, hz, hyz⟩ := hpruned.covers y (hmem y hy)
    have hxz := hxy.trans hfinal hxformed.hasDistinctKeys hyz
    have hsame := hpruned.irredundant.eq_of_contained hx hz hxz
    have hyx : Contained h y x := hsame ▸ hyz
    rwa [hpruned.eq_of_alternative hfinal hb hcomplete hordered hmem hlast hx hy hxy hyx]
  constructor
  · exact hinside u
  · intro hu
    obtain ⟨x, hx, hux⟩ := hpruned.covers u (hmem u hu)
    rwa [Subtype.eq_of_contained_alternatives hb hu (hinside x hx) hux]

end Below

/-!
# The alternatives of a type
-/

/-- The budget for merging shapes is too small for any two of them, or no two of them have
the same keys. -/
def KeepsShapes (limit : Nat) (members : List Ty) : Prop :=
  limit < 2 ∨ HasOneShapePerKeys members

theorem mergeGroups_of_small {budget : Nat} (hbudget : budget < 2)
    (groups : List (List (List (Entry Ty)))) :
    mergeGroups combine budget groups = pure ([], []) := by
  induction groups with
  | nil => rfl
  | cons group rest ih =>
      rw [mergeGroups]
      split
      · exact ih
      · have hshort : (group.take budget).length < 2 := by
          rw [List.length_take]
          omega
        exact if_pos hshort

theorem mergeShapes_of_keepsShapes (hready : IsReady replies members)
    (hshapes : KeepsShapes limit members) : mergeShapes limit combine members = pure members := by
  rcases hshapes with hlimit | hkeys
  · rw [mergeShapes, mergeGroups_of_small hlimit]
    rfl
  · exact mergeShapes_eq hready hkeys

theorem meets_close_eq (hb : b.IsProper h) (hperm : members.Perm (membersOf b))
    (hflavor : ∀ flavor' alternatives, b = .union flavor' alternatives -> flavor' = flavor) :
    (close flavor members).Meets (.free replies) (· = b) := by
  have hlength := hperm.length_eq
  cases b with
  | union flavor' alternatives =>
      have htidy := hb.formed.here.1
      have htwo := htidy.two
      have hsorted : Ty.sortCanonical members = alternatives :=
        Ty.eq_of_isCanonical (Ty.isCanonical_sortCanonical members) htidy.sorted
          ((Ty.perm_sortCanonical members).trans hperm)
      unfold close
      split
      · simp only [membersOf, List.length_singleton] at hlength
        omega
      · refine ⟨trivial, ?_⟩
        rw [hsorted, hflavor _ _ rfl]
        rfl
  | _ =>
      rw [List.perm_singleton.mp hperm]
      rfl

theorem meets_reduce_eq (hb : b.IsProper h)
    (hprune : (prune members).Meets (.free replies) fun pruned =>
      IsReady replies pruned ∧ ∀ u, u ∈ pruned ↔ u ∈ membersOf b)
    (hshapes : KeepsShapes limit (membersOf b))
    (hflavor : ∀ flavor' alternatives, b = .union flavor' alternatives -> flavor' = flavor) :
    (reduce limit combine flavor members).Meets (.free replies) (· = b) := by
  rw [reduce_eq]
  apply hprune.bind
  rintro pruned ⟨hready, hmem⟩
  have hperm : pruned.Perm (membersOf b) :=
    (List.perm_ext_iff_of_nodup hready.nodup (nodup_membersOf hb)).mpr hmem
  have hkeeps : KeepsShapes limit pruned := hshapes.imp_right fun hkeys =>
    hkeys.subset fun u hu => (hmem u).mp hu
  rw [mergeShapes_of_keepsShapes hready hkeeps]
  exact meets_close_eq hb hperm hflavor

/-- What some members, one of a type's alternatives among them, need so that their union is
that type. -/
structure LeavesOnly (h : Hierarchy) (replies : Ty -> Ty -> Tristate -> Prop) (members : List Ty)
    (b : Ty) : Prop where
  formed : ∀ m ∈ members, Formed replies m
  flat : ∀ m ∈ members, m.unionMembers? = none
  noError : ∀ m ∈ members, m ≠ .error
  mem : ∀ y ∈ membersOf b, y ∈ members
  mixed : .mixed ∈ members -> b = .mixed
  never : b = .never -> ∀ m ∈ members, m = .never

theorem meets_normalize_eq (hb : b.IsProper h) (hmembers : LeavesOnly h replies members b)
    (hshapes : KeepsShapes limit (membersOf b))
    (hflavor : ∀ flavor' alternatives, b = .union flavor' alternatives -> flavor' = flavor)
    (hprune : ∀ kept, IsReady replies kept -> kept ≠ [] -> IsOrdered kept ->
      (∀ m, m ∈ kept ↔ m ∈ members ∧ m ≠ .never) ->
      (prune kept).Meets (.free replies) fun pruned =>
        IsReady replies pruned ∧ ∀ u, u ∈ pruned ↔ u ∈ membersOf b) :
    (normalize limit combine flavor members).Meets (.free replies) (· = b) := by
  have halternative : ∀ {kept : List Ty}, AreLeft members kept -> b ≠ .never ->
      ∀ y ∈ membersOf b, y ∈ kept := fun hleft hne y hy =>
    (hleft.mem_iff y).mpr ⟨hmembers.mem y hy, hb.ne_never_of_mem hne hy⟩
  have hnormalizes := normalizes_normalize limit combine flavor members
  generalize normalize limit combine flavor members = q at hnormalizes ⊢
  cases hnormalizes with
  | error herror => exact absurd rfl (hmembers.noError _ herror)
  | mixed herror hmixed => exact (hmembers.mixed hmixed).symm
  | never hall =>
      by_contra hne
      obtain ⟨y, hy⟩ := hb.exists_mem_membersOf
      exact hb.ne_never_of_mem (Ne.symm hne) hy (hall y (hmembers.mem y hy))
  | @single t hleft =>
      have ht := (hleft.mem_iff t).mp List.mem_cons_self
      have hne : b ≠ .never := fun heq => ht.2 (hmembers.never heq t ht.1)
      have hall : ∀ y ∈ membersOf b, y = t := fun y hy =>
        List.mem_singleton.mp (halternative hleft hne y hy)
      cases b with
      | union flavor' alternatives =>
          have htidy := hb.formed.here.1
          have hfew := (List.subperm_of_subset htidy.nodup fun y hy =>
            List.mem_singleton.mpr (hall y hy)).length_le
          have htwo := htidy.two
          simp only [List.length_singleton] at hfew
          omega
      | _ => exact (hall _ List.mem_cons_self).symm
  | several hleft hne =>
      have hready := hleft.isReady hmembers.formed hmembers.flat
      have hordered := (isOrdered_distinct members).sublist hleft.sublist
      exact meets_reduce_eq hb (hprune _ hready hne hordered hleft.mem_iff) hshapes hflavor

/-!
# The union of two types
-/

theorem meets_of_pair_eq (hb : b.IsProper h)
    (hmembers : LeavesOnly h replies (membersOf a ++ membersOf b) b)
    (hshapes : KeepsShapes options.maxUnionShapeMerge (membersOf b))
    (hflavor : ∀ flavor alternatives, b = .union flavor alternatives -> flavor = flavorOf [a, b])
    (hprune : ∀ kept, IsReady replies kept -> kept ≠ [] -> IsOrdered kept ->
      (∀ m, m ∈ kept ↔ m ∈ membersOf a ++ membersOf b ∧ m ≠ .never) ->
      (prune kept).Meets (.free replies) fun pruned =>
        IsReady replies pruned ∧ ∀ u, u ∈ pruned ↔ u ∈ membersOf b) :
    (of options [a, b]).Meets (.free replies) (· = b) := by
  have hpos := a.height_pos
  have hle : a.height ≤ Ty.heights [a, b] := Ty.height_le_heights List.mem_cons_self
  obtain ⟨n, hheight⟩ : ∃ n, Ty.heights [a, b] = n + 1 := ⟨Ty.heights [a, b] - 1, by omega⟩
  have hflat : [a, b].flatMap membersOf = membersOf a ++ membersOf b := by simp
  unfold of
  rw [hheight]
  show (normalize _ _ (flavorOf [a, b]) ([a, b].flatMap membersOf)).Meets _ _
  rw [hflat]
  exact meets_normalize_eq hb hmembers hshapes hflavor hprune

theorem hasMergedBools_membersOf (ht : t.IsProper h) : HasMergedBools (membersOf t) := by
  cases t with
  | union flavor members => exact ht.formed.here.1.bools
  | _ =>
      rintro ⟨htrue, hfalse⟩
      cases (List.mem_singleton.mp htrue).trans (List.mem_singleton.mp hfalse).symm

theorem hasMergedRanges_membersOf (ht : t.IsProper h) : HasMergedRanges (membersOf t) := by
  cases t with
  | union flavor members => exact ht.formed.here.1.ranges
  | _ =>
      intro r s hr hs hne
      cases (List.mem_singleton.mp hr).trans (List.mem_singleton.mp hs).symm
      exact absurd rfl hne

/-- The union of a type with itself is that type, even if a question meets the limit. -/
theorem meets_of_self (ht : t.IsProper h) (hformed : Formed replies t)
    (hyes : ∀ s t, replies s t .yes -> Contained h s t)
    (hshapes : KeepsShapes options.maxUnionShapeMerge (membersOf t)) :
    (of options [t, t]).Meets (.free replies) (· = t) := by
  have hmem : ∀ {u}, u ∈ membersOf t ++ membersOf t ↔ u ∈ membersOf t := by simp
  refine meets_of_pair_eq ht ?_ hshapes ?_ fun kept hready hne _ hkept => ?_
  · exact {
      formed := fun m hm => (mem_membersOf hformed (Nat.le_refl _) (hmem.mp hm)).1
      flat := fun m hm => (ht.alternative (hmem.mp hm)).2
      noError := fun m hm => (ht.alternative (hmem.mp hm)).1.noError
      mem := fun y hy => hmem.mpr hy
      mixed := by
        intro hmixed
        cases t with
        | union flavor members => exact absurd rfl (hformed.unionMember (hmem.mp hmixed)).2.2.1
        | _ => exact (List.mem_singleton.mp (hmem.mp hmixed)).symm
      never := by
        rintro rfl m hm
        exact List.mem_singleton.mp (hmem.mp hm) }
  · rintro flavor alternatives rfl
    cases flavor <;> simp [flavorOf, keepsBenevolence]
  · have hinside : ∀ m ∈ kept, m ∈ membersOf t := fun m hm => hmem.mp ((hkept m).mp hm).1
    have hnever : t ≠ .never := by
      rintro rfl
      obtain ⟨m, hm⟩ := List.exists_mem_of_ne_nil kept hne
      exact ((hkept m).mp hm).2 (List.mem_singleton.mp (hinside m hm))
    have hbools := hasMergedBools_membersOf ht
    have hranges := hasMergedRanges_membersOf ht
    refine (meets_prune_same hyes hready hne (fun hboth => hbools ⟨hinside _ hboth.1,
      hinside _ hboth.2⟩) (fun r s hr hs => hranges r s (hinside _ hr) (hinside _ hs))
      fun x hx y hy => Subtype.eq_of_contained_alternatives ht (hinside x hx) (hinside y hy)).imp ?_
    rintro pruned ⟨hpruned, hsame⟩
    refine ⟨hpruned, fun u => (hsame u).trans ⟨hinside u, fun hu => ?_⟩⟩
    exact (hkept u).mpr ⟨hmem.mpr hu, ht.ne_never_of_mem hnever hu⟩

/-- No alternative of the second type is the same up to spelling as one of the first type that
comes later in the order of codes. -/
def HasLastSpellings (h : Hierarchy) (a b : Ty) : Prop :=
  ∀ x ∈ membersOf a, ∀ y ∈ membersOf b, Contained h x y -> Contained h y x -> ¬ y.code < x.code

theorem value_of_below (hfinal : h.LeavesClosureFinal) (ha : a.IsProper h) (hb : b.IsProper h)
    (hplain : ∀ flavor alternatives, b = .union flavor alternatives -> flavor = .plain)
    (hdistributed : IsDistributed b) (hab : Contained h a b)
    (hshapes : KeepsShapes options.maxUnionShapeMerge (membersOf b))
    (hspellings : HasLastSpellings h a b) : (of options [a, b]).value (exact h) = b := by
  have hmember : ∀ m ∈ membersOf a ++ membersOf b,
      m.IsProper h ∧ m.unionMembers? = none ∧ Contained h m b := by
    have hbelow : ∀ {t m : Ty}, t.IsProper h -> Contained h t b -> m ∈ membersOf t ->
        m.IsProper h ∧ m.unionMembers? = none ∧ Contained h m b := by
      intro t m ht htb hm
      rcases ht.alternative hm with ⟨hm', hflat⟩
      have hmt := (Subtype.contained_iff_alternative hm' hflat ht).mpr ⟨m, hm, .refl m⟩
      exact ⟨hm', hflat, hmt.trans hfinal hm'.formed.hasDistinctKeys htb⟩
    intro m hm
    exact (List.mem_append.mp hm).elim (hbelow ha hab) (hbelow hb (.refl b))
  have hmeets : (of options [a, b]).Meets (.free (Session.exactly h)) (· = b) := by
    refine meets_of_pair_eq hb ?_ hshapes ?_ fun kept hready hne hordered hkept => ?_
    · exact {
        formed := fun m hm => (hmember m hm).1.formed
        flat := fun m hm => (hmember m hm).2.1
        noError := fun m hm => (hmember m hm).1.noError
        mem := fun y hy => List.mem_append_right _ hy
        mixed := fun hm => Subtype.eq_mixed_of_contained (hmember _ hm).2.2
        never := fun heq m hm => Subtype.eq_never_of_contained (heq ▸ (hmember m hm).2.2) }
    · rintro flavor alternatives rfl
      rw [hplain flavor alternatives rfl]
      simp [flavorOf, keepsBenevolence]
    · have hinside : ∀ m ∈ kept, m ∈ membersOf a ++ membersOf b := fun m hm => ((hkept m).mp hm).1
      have hbelow : ∀ m ∈ kept, Contained h m b := fun m hm => (hmember m (hinside m hm)).2.2
      have hnever : b ≠ .never := by
        rintro rfl
        obtain ⟨m, hm⟩ := List.exists_mem_of_ne_nil kept hne
        exact ((hkept m).mp hm).2 (Subtype.eq_never_of_contained (hbelow m hm))
      have hmem : ∀ y ∈ membersOf b, y ∈ kept := fun y hy =>
        (hkept y).mpr ⟨List.mem_append_right _ hy, hb.ne_never_of_mem hnever hy⟩
      have hlast : ∀ x ∈ kept, ∀ y ∈ membersOf b, Contained h x y -> Contained h y x ->
          ¬ y.code < x.code := by
        intro x hx y hy hxy hyx
        rcases List.mem_append.mp (hinside x hx) with hxa | hxb
        · exact hspellings x hxa y hy hxy hyx
        · rw [Subtype.eq_of_contained_alternatives hb hxb hy hxy]
          exact List.lt_irrefl _
      refine (meets_prune hfinal (fun s t (hr : _ = exact h s t) => hr.symm)
        (isKept_below_proper hb hdistributed) hready hne hbelow).imp fun pruned hpruned => ?_
      exact ⟨hpruned.ready, hpruned.mem_iff hfinal hb (fun m hm => (hmember m (hinside m hm)).1.complete)
        hordered hmem hlast⟩
  exact hmeets.value fun _ _ _ => rfl

end Union
end GradualTypes
