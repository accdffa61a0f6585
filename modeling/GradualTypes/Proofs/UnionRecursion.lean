import GradualTypes.Proofs.Recursion

/-!
# The recursion of unions

A union calls itself to merge shapes with the same keys: the value of a key is the union of its
values.  These are values of shapes that were among the members before anything was done to them,
since the passes that come first bring in scalar types only.  So shapes are nested less deep in
them, and the recursion goes no deeper than shapes are nested.

In particular, the height of the members is a sufficient bound, and any other sufficient bound
leads to the same inquiry.
-/

namespace GradualTypes
namespace Union

open Inquiry

variable {replies : Ty -> Ty -> Tristate -> Prop} {members ts : List Ty} {limit n : Nat}
  {flavor : Flavor} {combine combine' : List Ty -> Inquiry Ty} {t : Ty}

/-- A value of a shape that is among the members. -/
def IsValueIn (members : List Ty) (t : Ty) : Prop :=
  ∃ entries, .shape entries ∈ members ∧ ∃ e ∈ entries, e.value = t

/-- Two ways to combine types that are the same for values of shapes among the members. -/
def CombineAlike (members : List Ty) (combine combine' : List Ty -> Inquiry Ty) : Prop :=
  ∀ ts, ts ≠ [] -> (∀ t ∈ ts, IsValueIn members t) -> combine ts = combine' ts

/-!
# Merging shapes
-/

section Shapes

variable (hsame : CombineAlike members combine combine')
include hsame

theorem mergeEntry_congr {shapes : List (List (Entry Ty))} (hshapes : ∀ s ∈ shapes, .shape s ∈ members)
    {key : Key} (hkey : ∃ s ∈ shapes, key ∈ Shape.keys s) :
    mergeEntry combine shapes key = mergeEntry combine' shapes key := by
  unfold mergeEntry
  dsimp only
  rw [hsame]
  · obtain ⟨s, hs, hkey⟩ := hkey
    obtain ⟨d, hd, rfl⟩ := List.mem_map.mp hkey
    obtain ⟨e, he⟩ := Shape.entry?_isSome hd
    exact List.ne_nil_of_mem (List.mem_map_of_mem (List.mem_filterMap.mpr ⟨s, hs, he⟩))
  · rw [List.forall_mem_map]
    intro e he
    obtain ⟨s, hs, hentry⟩ := List.mem_filterMap.mp he
    exact ⟨s, hshapes s hs, e, (Shape.mem_of_entry? hentry).1, rfl⟩

theorem mergeGroup_congr {shapes : List (List (Entry Ty))}
    (hshapes : ∀ s ∈ shapes, .shape s ∈ members) :
    mergeGroup combine shapes = mergeGroup combine' shapes := by
  unfold mergeGroup
  dsimp only
  rw [mapM_congr fun key hkey => mergeEntry_congr hsame hshapes ?_]
  cases shapes with
  | nil => cases hkey
  | cons first rest => exact ⟨first, List.mem_cons_self, hkey⟩

theorem mergeGroups_congr {groups : List (List (List (Entry Ty)))} {budget : Nat}
    (hgroups : ∀ group ∈ groups, ∀ s ∈ group, .shape s ∈ members) :
    mergeGroups combine budget groups = mergeGroups combine' budget groups := by
  induction groups generalizing budget with
  | nil => rfl
  | cons group rest ih =>
      rw [List.forall_mem_cons] at hgroups
      have hshare : mergeGroup combine (group.take budget) = mergeGroup combine' (group.take budget) :=
        mergeGroup_congr hsame fun s hs => hgroups.1 s (List.mem_of_mem_take hs)
      have hrest : ∀ left, mergeGroups combine left rest = mergeGroups combine' left rest :=
        fun _ => ih hgroups.2
      simp only [mergeGroups, hshare, hrest]

theorem mergeShapes_congr {given : List Ty} (hgiven : ∀ s, .shape s ∈ given -> .shape s ∈ members) :
    mergeShapes limit combine given = mergeShapes limit combine' given := by
  unfold mergeShapes
  rw [mergeGroups_congr hsame fun group hgroup s hs =>
    hgiven s (mem_shapeGroups.mp ⟨group, hgroup, hs⟩)]

end Shapes

/-!
# The passes before
-/

/-- Types that were given, and types that are no shapes. -/
def BringsNoShape (members result : List Ty) : Prop :=
  ∀ t ∈ result, t ∈ members ∨ t.entries? = none

theorem meets_mergeBools_noShape (members : List Ty) :
    (mergeBools members).Meets (.free replies) (BringsNoShape members) := by
  refine (meets_mergeBools_mem members).imp ?_
  rintro result (rfl | ⟨-, -, hmem⟩) t ht
  · exact .inl ht
  · rcases (hmem t).mp ht with ⟨ht', -⟩ | rfl
    · exact .inl ht'
    · exact .inr rfl

theorem meets_mergeRanges_noShape (members : List Ty) :
    (mergeRanges members).Meets (.free replies) (BringsNoShape members) := by
  have hrange : ∀ r, (Build.range r).Draws ⟨fun _ => True, fun _ => True⟩
      fun t => t ∈ members ∨ t.entries? = none := fun r =>
    Build.draws_range (fun _ => .inr rfl) (fun _ => ⟨trivial, fun _ => .inr rfl⟩)
      ⟨trivial, fun _ => .inr rfl⟩
  unfold mergeRanges
  dsimp only
  split
  · exact fun t ht => .inl ht
  · exact (draws_appendRanges (P := fun _ t => t ∈ members ∨ t.entries? = none) (n := 0)
      (fun t ht => .inl (List.mem_filter.mp ht).1) fun r _ => hrange r).meets

theorem meets_absorb_noShape (members : List Ty) :
    (absorb members).Meets (.free replies) (BringsNoShape members) :=
  (draws_absorb ⟨fun _ => True, fun _ => True⟩ fun _ ht => .inl ht).meets

/-- Before shapes are merged, no shape is among the members that was not given. -/
theorem BringsNoShape.shape_mem (hmembers : BringsNoShape members ts) {s : List (Entry Ty)}
    (hs : .shape s ∈ ts) : .shape s ∈ members := by
  rcases hmembers _ hs with hmem | hnone
  · exact hmem
  · cases hnone

theorem reduce_congr {given : List Ty} (hsame : CombineAlike members combine combine')
    (hgiven : ∀ t ∈ given, t ∈ members) :
    reduce limit combine flavor given = reduce limit combine' flavor given := by
  refine bind_congr_of_meets (meets_mergeBools_noShape given) fun first hfirst => ?_
  refine bind_congr_of_meets (meets_mergeRanges_noShape first) fun second hsecond => ?_
  refine bind_congr_of_meets (meets_absorb_noShape second) fun third hthird => ?_
  rw [mergeShapes_congr hsame fun s hs =>
    hgiven _ (hfirst.shape_mem (hsecond.shape_mem (hthird.shape_mem hs)))]

theorem normalize_congr (hsame : CombineAlike members combine combine') :
    normalize limit combine flavor members = normalize limit combine' flavor members := by
  have hkept : ∀ t ∈ (Ty.distinct members).filter (· != .never), t ∈ members :=
    fun t ht => Ty.mem_distinct.mp (List.mem_filter.mp ht).1
  unfold normalize
  dsimp only
  split
  · rfl
  · split
    · rfl
    · split
      · rfl
      · rfl
      · exact reduce_congr hsame hkept

/-!
# Enough height
-/

/-- A shape that is taken out of some types is one of them or a child of one. -/
theorem exists_of_shape_mem {s : List (Entry Ty)} (hs : .shape s ∈ ts.flatMap membersOf) :
    ∃ t ∈ ts, t = .shape s ∨ .shape s ∈ t.children := by
  obtain ⟨t, ht, hst⟩ := List.mem_flatMap.mp hs
  refine ⟨t, ht, ?_⟩
  cases t with
  | union flavor members => exact .inr hst
  | _ => exact .inl (List.mem_singleton.mp hst).symm

theorem height_lt_of_isValueIn (hvalue : IsValueIn (ts.flatMap membersOf) t) :
    t.height < Ty.heights ts := by
  obtain ⟨s, hs, e, he, rfl⟩ := hvalue
  have hentry : e.value.height < (Ty.shape s).height :=
    Ty.height_lt_of_mem_children (Ty.mem_children_shape he)
  obtain ⟨u, hu, rfl | hchild⟩ := exists_of_shape_mem hs
  · exact Nat.lt_of_lt_of_le hentry (Ty.height_le_heights hu)
  · have hless := Ty.height_lt_of_mem_children hchild
    have hle := Ty.height_le_heights hu
    omega

theorem nesting_lt_of_isValueIn (hts : ∀ u ∈ ts, u.nesting ≤ n)
    (hvalue : IsValueIn (ts.flatMap membersOf) t) : t.nesting < n := by
  obtain ⟨s, hs, e, he, rfl⟩ := hvalue
  have hshape : (Ty.shape s).nesting ≤ n := by
    obtain ⟨u, hu, rfl | hchild⟩ := exists_of_shape_mem hs
    · exact hts _ hu
    · exact Nat.le_trans (Ty.nesting_le_of_mem_children hchild) (hts u hu)
  have hpos : 0 < (Ty.shape s).nesting := by
    rw [Ty.nesting]
    omega
  obtain ⟨k, rfl⟩ : ∃ k, n = k + 1 := ⟨n - 1, by omega⟩
  exact Nat.lt_succ_of_le (Ty.nesting_shape_le_iff.mp hshape _ (Ty.mem_children_shape he))

/-- As much height as the types have does the same as more of it. -/
theorem upTo_succ (hts : Ty.heights ts ≤ n) : upTo limit n ts = upTo limit (n + 1) ts := by
  induction n generalizing ts with
  | zero =>
      match ts with
      | [] => rfl
      | t :: rest =>
          have hpos := t.height_pos
          have hle := Ty.heights_le_iff.mp hts t List.mem_cons_self
          omega
  | succ n ih =>
      match ts with
      | [] => rfl
      | [t] => rfl
      | t :: t' :: rest =>
          refine normalize_congr fun vs _ hvs => ih (Ty.heights_le_iff.mpr fun v hv => ?_)
          exact Nat.le_of_lt_succ (Nat.lt_of_lt_of_le (height_lt_of_isValueIn (hvs v hv)) hts)

theorem upTo_eq_of {options : Options} (hts : Ty.heights ts ≤ n) :
    upTo options.maxUnionShapeMerge n ts = of options ts := by
  induction n, hts using Nat.le_induction with
  | base => rfl
  | succ n hts ih => rw [← upTo_succ hts, ih]

/-- The union of two and more types is normalized with the unions of their values. -/
theorem of_eq_normalize {options : Options} (hmany : 2 ≤ ts.length) :
    of options ts =
      normalize options.maxUnionShapeMerge (of options) (flavorOf ts) (ts.flatMap membersOf) := by
  match ts, hmany with
  | t :: t' :: rest, _ =>
      rw [← upTo_eq_of (Nat.le_succ (Ty.heights (t :: t' :: rest)))]
      refine normalize_congr fun vs _ hvs => upTo_eq_of (Ty.heights_le_iff.mpr fun v hv => ?_)
      exact Nat.le_of_lt (height_lt_of_isValueIn (hvs v hv))

end Union
end GradualTypes
