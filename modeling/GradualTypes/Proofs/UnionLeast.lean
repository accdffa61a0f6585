import GradualTypes.Proofs.UnionBounds

/-!
# Unions hold nothing else

The members of a union are among those that the given types bring in, except that
`never` stands for no members, `bool` for both boolean literals, and a hull for
intervals that touch.  A property of types that these steps keep holds of all members
of the union if it holds of those given.

The merging of shapes is not among these steps, since a merged shape has more values
than the shapes of its group.  It is left out by the assumption that of two members
that are shapes with the same keys one is dropped before.
-/

namespace GradualTypes
namespace Union

open Inquiry
open GradualTypes.Ty (Formed)

variable {T : Ty -> Prop} {replies : Ty -> Ty -> Tristate -> Prop} {members : List Ty} {t : Ty}
  {limit n : Nat} {flavor : Flavor} {combine : List Ty -> Inquiry Ty}

/-- A property of types that is kept when a union is made without merging shapes. -/
structure IsKept (T : Ty -> Prop) : Prop where
  never : T .never
  bools : T (.literal (.bool true)) -> T (.literal (.bool false)) -> T .bool
  hull : ∀ {r s : IntRange}, r.IsWide -> s.IsWide -> r.touches s = true -> T r.toTy -> T s.toTy ->
    T (r.hull s).toTy

/-!
# Scalars
-/

theorem meets_mergeBools_kept (hT : IsKept T) (hall : ∀ m ∈ members, T m) :
    (mergeBools members).Meets (.free replies) fun result => ∀ m ∈ result, T m := by
  apply (meets_mergeBools_mem members).imp
  intro result hresult
  rcases hresult with rfl | ⟨htrue, hfalse, hmem⟩
  · exact hall
  · intro m hm
    rcases (hmem m).mp hm with ⟨hm, -⟩ | rfl
    · exact hall m hm
    · exact hT.bools (hall _ htrue) (hall _ hfalse)

theorem meets_mergeRanges_kept (hT : IsKept T) (hready : IsReady replies members)
    (hall : ∀ m ∈ members, T m) :
    (mergeRanges members).Meets (.free replies) fun result => ∀ m ∈ result, T m := by
  have hjoined : ∀ r ∈ joinedRanges members, r.IsWide ∧ T r.toTy := by
    apply IntRange.forall_joinTouching
    · intro r s hr hs htouches
      exact ⟨hr.1.hull hs.1, hT.hull hr.1 hs.1 htouches hr.2 hs.2⟩
    · intro r hr
      rcases hready.isWide hr with ⟨hne, hwide⟩
      exact ⟨hwide, IntRange.toTy_eq_range hne ▸ hall _ (mem_ranges.mp hr)⟩
  apply (meets_mergeRanges_mem hready).imp
  intro result hmem m hm
  rcases (hmem m).mp hm with ⟨hm, -⟩ | ⟨r, hr, rfl⟩
  · exact hall m hm
  · exact (hjoined r hr).2

/-!
# Shapes
-/

/-- The groups contain each shape among the members once. -/
theorem flatten_shapeGroups (hready : IsReady replies members) :
    (shapeGroups members).flatten.Perm (members.filterMap Ty.entries?) := by
  rcases shapeGroups_spec hready.formed with ⟨-, hcount, hmem⟩
  have hsubset : members.filterMap Ty.entries? ⊆ (shapeGroups members).flatten := by
    intro e he
    rw [List.mem_flatten]
    exact (hmem e).mpr (mem_entries.mp he)
  have hsubperm := List.subperm_of_subset (nodup_entries hready.nodup) hsubset
  exact (hsubperm.perm_of_length_le (Nat.le_of_eq hcount)).symm

theorem mergeGroups_of_few {groups : List (List (List (Entry Ty)))} {budget : Nat}
    (hfew : ∀ group ∈ groups, group.length < 2) :
    mergeGroups combine budget groups = pure ([], []) := by
  induction groups with
  | nil => rfl
  | cons group rest ih =>
      rw [List.forall_mem_cons] at hfew
      rw [mergeGroups, if_pos hfew.1]
      exact ih hfew.2

/-- Shapes with different keys are left as they are. -/
theorem mergeShapes_eq (hready : IsReady replies members) (hkeys : HasOneShapePerKeys members) :
    mergeShapes limit combine members = pure members := by
  rcases shapeGroups_spec hready.formed with ⟨hgrouping, -, hmem⟩
  have hfew : ∀ group ∈ shapeGroups members, group.length < 2 := by
    intro group hgroup
    have hnodup : group.Nodup := by
      have hflatten : (shapeGroups members).flatten.Nodup := by
        rw [(flatten_shapeGroups hready).nodup_iff]
        exact nodup_entries hready.nodup
      exact (List.nodup_flatten.mp hflatten).1 group hgroup
    match group, hgroup, hnodup with
    | [], _, _ => simp
    | [e], _, _ => simp
    | e :: f :: rest, hgroup, hnodup =>
        have hf : f ∈ e :: f :: rest := by simp
        have heq := hkeys e f ((hmem e).mp ⟨_, hgroup, List.mem_cons_self⟩)
          ((hmem f).mp ⟨_, hgroup, hf⟩) (hgrouping.same _ hgroup e List.mem_cons_self f hf)
        simp [heq] at hnodup
  unfold mergeShapes
  rw [mergeGroups_of_few hfew]
  rfl

/-- No two of the members are different shapes with the same keys, neither of which may
be found to be contained in the other one. -/
def HasComparableShapes (replies : Ty -> Ty -> Tristate -> Prop) (members : List Ty) : Prop :=
  ∀ e f, Ty.shape e ∈ members -> Ty.shape f ∈ members -> (Shape.keys e).Perm (Shape.keys f) ->
    e ≠ f -> ¬ (Beside replies (.shape e) (.shape f) ∧ Beside replies (.shape f) (.shape e))

theorem HasOneShapePerKeys.hasComparableShapes (h : HasOneShapePerKeys members) :
    HasComparableShapes replies members :=
  fun e f he hf hperm hne => absurd (h e f he hf hperm) hne

theorem HasComparableShapes.subset {result : List Ty} (h : HasComparableShapes replies members)
    (hresult : ∀ e, Ty.shape e ∈ result -> Ty.shape e ∈ members) :
    HasComparableShapes replies result :=
  fun e f he hf => h e f (hresult e he) (hresult f hf)

theorem IsIrredundant.hasOneShapePerKeys (h : IsIrredundant replies members)
    (hshapes : HasComparableShapes replies members) : HasOneShapePerKeys members := by
  intro e f he hf hperm
  by_contra hne
  have hne' : Ty.shape e ≠ Ty.shape f := fun heq => hne (Ty.shape.inj heq)
  exact hshapes e f he hf hperm hne ⟨h _ he _ hf hne', h _ hf _ he hne'.symm⟩

/-!
# All members
-/

theorem membersOf_of_flat (ht : t.unionMembers? = none) : membersOf t = [t] := by
  cases t <;> first | rfl | cases ht

theorem meets_close_kept (hready : IsReady replies members) (hall : ∀ m ∈ members, T m) :
    (close flavor members).Meets (.free replies) fun t => ∀ m ∈ membersOf t, T m := by
  unfold close
  split
  · rename_i t
    show ∀ m ∈ membersOf t, T m
    rw [membersOf_of_flat (hready.isMember t List.mem_cons_self).2.2.2]
    exact hall
  · refine ⟨trivial, fun m hm => hall m ?_⟩
    exact (Ty.perm_sortCanonical members).mem_iff.mp hm

/-- The property is one of all members that are left before shapes are merged. -/
theorem meets_prune_kept (hT : IsKept T) (hready : IsReady replies members) (hne : members ≠ [])
    (hall : ∀ m ∈ members, T m) :
    (prune members).Meets (.free replies) fun result => ∀ m ∈ result, T m := by
  refine ((meets_mergeBools hready hne).and_free (meets_mergeBools_kept hT hall)).bind
    fun first hfirst => ?_
  rcases hfirst with ⟨⟨hready₁, -⟩, hall₁⟩
  refine (meets_mergeRanges_kept hT hready₁ hall₁).bind fun second hall₂ => ?_
  exact (meets_absorb second).free.imp fun third hthird m hm => hall₂ m (hthird.sublist.subset hm)

/-- No two shapes are merged if they can be compared, since no shape is new. -/
theorem IsPruning.mergeShapes_eq {pruned : List Ty} (hpruned : IsPruning replies members pruned)
    (hshapes : HasComparableShapes replies members) :
    mergeShapes limit combine pruned = pure pruned := by
  have hold : ∀ e, Ty.shape e ∈ pruned -> Ty.shape e ∈ members := fun e he =>
    shape_mem_of_added hpruned.added he
  exact Union.mergeShapes_eq hpruned.ready
    (hpruned.irredundant.hasOneShapePerKeys (hshapes.subset hold))

theorem meets_reduce_kept (hT : IsKept T) (hready : IsReady replies members) (hne : members ≠ [])
    (hshapes : HasComparableShapes replies members) (hall : ∀ m ∈ members, T m) :
    (reduce limit combine flavor members).Meets (.free replies) fun t =>
      ∀ m ∈ membersOf t, T m := by
  rw [reduce_eq]
  refine ((meets_prune_ready hready hne).and_free (meets_prune_kept hT hready hne hall)).bind
    fun pruned hpruned => ?_
  rw [hpruned.1.mergeShapes_eq hshapes]
  exact meets_close_kept hpruned.1.ready hpruned.2

theorem meets_normalize_kept (hT : IsKept T) (hformed : ∀ m ∈ members, Formed replies m)
    (hflat : ∀ m ∈ members, m.unionMembers? = none)
    (hshapes : HasComparableShapes replies members) (hall : ∀ m ∈ members, T m) :
    (normalize limit combine flavor members).Meets (.free replies)
      fun t => ∀ m ∈ membersOf t, T m := by
  have hsingle : ∀ t, t.unionMembers? = none -> T t -> ∀ m ∈ membersOf t, T m := by
    intro t hunion ht
    rw [membersOf_of_flat hunion]
    exact List.forall_mem_singleton.mpr ht
  have hnormalizes := normalizes_normalize limit combine flavor members
  generalize normalize limit combine flavor members = q at hnormalizes ⊢
  cases hnormalizes with
  | error herror => exact hsingle .error rfl (hall _ herror)
  | mixed herror hmixed => exact hsingle .mixed rfl (hall _ hmixed)
  | never hnever => exact hsingle .never rfl hT.never
  | @single t hleft =>
      have ht := ((hleft.mem_iff t).mp List.mem_cons_self).1
      exact hsingle t (hflat t ht) (hall t ht)
  | @several kept hleft hne =>
      have hmem : ∀ m ∈ kept, m ∈ members := fun m hm => ((hleft.mem_iff m).mp hm).1
      exact meets_reduce_kept hT (hleft.isReady hformed hflat) hne
        (hshapes.subset fun e he => hmem _ he) fun m hm => hall m (hmem m hm)

/-- The members of a union have each property that the members which the given types
bring in have and that is kept when a union is made. -/
theorem meets_upTo_kept (hT : IsKept T) {ts : List Ty} (hne : ts ≠ [])
    (hformed : ∀ t ∈ ts, Formed replies t) (hheight : ∀ t ∈ ts, t.height ≤ n)
    (hshapes : HasComparableShapes replies (ts.flatMap membersOf))
    (hall : ∀ m ∈ ts.flatMap membersOf, T m) :
    (upTo limit n ts).Meets (.free replies) fun t => ∀ m ∈ membersOf t, T m := by
  have hunites := unites_upTo limit hheight
  generalize upTo limit n ts = q at hunites ⊢
  cases hunites with
  | empty n => exact absurd rfl hne
  | single n t => exact fun m hm => hall m (List.mem_flatMap.mpr ⟨t, List.mem_cons_self, hm⟩)
  | several hmany _ =>
      exact meets_normalize_kept hT (fun m hm => (exists_of_mem_flatMap hformed hheight hm).1)
        (fun m hm => (exists_of_mem_flatMap hformed hheight hm).2.1) hshapes hall

section Unions

variable {options : Options} {ts : List Ty} (hT : IsKept T) (hne : ts ≠ [])
  (hformed : ∀ t ∈ ts, Formed replies t)
  (hshapes : HasComparableShapes replies (ts.flatMap membersOf))
  (hall : ∀ m ∈ ts.flatMap membersOf, T m)
include hT hne hformed hshapes hall

theorem meets_of_kept :
    (of options ts).Meets (.free replies) fun t => ∀ m ∈ membersOf t, T m :=
  meets_upTo_kept hT hne hformed (fun _ ht => Ty.height_le_heights ht) hshapes hall

theorem meets_benevolentOf_kept :
    (benevolentOf options ts).Meets (.free replies) fun t => ∀ m ∈ membersOf t, T m := by
  apply (meets_of_kept hT hne hformed hshapes hall).bind
  intro t ht
  unfold Build.markBenevolent
  split
  · exact ⟨trivial, ht⟩
  · exact ht

end Unions

end Union
end GradualTypes
