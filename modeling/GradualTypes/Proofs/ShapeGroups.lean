import GradualTypes.Proofs.UnionPasses
import Mathlib.Data.List.Nodup
import Mathlib.Data.List.Perm.Subperm

/-!
# Merging shapes with the same keys

The shapes among the members of a union are put into groups, one for each set of
keys.  Each group of two and more shapes is replaced by one shape with the same
keys, so that afterwards no two shapes have the same keys, unless the budget has
run out.
-/

namespace GradualTypes

namespace Shape

variable {α : Type}

/-- Shapes declare the same keys if one list of keys is a permutation of the
other. -/
theorem sameKeys_iff {entries others : List (Entry α)} (hkeys : (keys entries).Nodup) :
    sameKeys entries others = true ↔ (keys entries).Perm (keys others) := by
  have hlength : ∀ es : List (Entry α), (keys es).length = es.length := fun es => by simp [keys]
  simp only [sameKeys, Bool.and_eq_true, beq_iff_eq, List.all_eq_true, List.contains_iff_mem]
  constructor
  · intro hall
    rcases hall with ⟨hsame, hsubset⟩
    apply (List.subperm_of_subset hkeys hsubset).perm_of_length_le
    rw [hlength, hlength]
    exact Nat.le_of_eq hsame.symm
  · intro hperm
    constructor
    · rw [← hlength, ← hlength]
      exact hperm.length_eq
    · exact fun k hk => hperm.subset hk

end Shape

namespace Union

open Inquiry
open GradualTypes.Ty (Formed)

/-!
# Groups
-/

/-- Groups of shapes by their keys. -/
structure IsGrouping (groups : List (List (List (Entry Ty)))) : Prop where
  ne_nil : ∀ group ∈ groups, group ≠ []
  nodup : ∀ group ∈ groups, ∀ e ∈ group, (Shape.keys e).Nodup
  same : ∀ group ∈ groups, ∀ e ∈ group, ∀ f ∈ group, (Shape.keys e).Perm (Shape.keys f)
  apart : groups.Pairwise fun group other =>
    ∀ e ∈ group, ∀ f ∈ other, ¬ (Shape.keys e).Perm (Shape.keys f)

theorem IsGrouping.tail {group : List (List (Entry Ty))}
    {rest : List (List (List (Entry Ty)))} (h : IsGrouping (group :: rest)) : IsGrouping rest where
  ne_nil := fun g hg => h.ne_nil g (List.mem_cons_of_mem _ hg)
  nodup := fun g hg => h.nodup g (List.mem_cons_of_mem _ hg)
  same := fun g hg => h.same g (List.mem_cons_of_mem _ hg)
  apart := (List.pairwise_cons.mp h.apart).2

theorem IsGrouping.eq_of_perm {groups : List (List (List (Entry Ty)))} (h : IsGrouping groups)
    {group other : List (List (Entry Ty))} (hgroup : group ∈ groups) (hother : other ∈ groups)
    {e f : List (Entry Ty)} (he : e ∈ group) (hf : f ∈ other)
    (hperm : (Shape.keys e).Perm (Shape.keys f)) : group = other := by
  by_contra hne
  have hsymm : Std.Symm fun group other : List (List (Entry Ty)) =>
      ∀ e ∈ group, ∀ f ∈ other, ¬ (Shape.keys e).Perm (Shape.keys f) :=
    ⟨fun g o hgo e he f hf hperm => hgo f hf e he hperm.symm⟩
  exact h.apart.forall hgroup hother hne e he f hf hperm

theorem mem_addToGroups {entries e : List (Entry Ty)} {groups : List (List (List (Entry Ty)))} :
    (∃ group ∈ addToGroups entries groups, e ∈ group) ↔
      e = entries ∨ ∃ group ∈ groups, e ∈ group := by
  induction groups with
  | nil => simp [addToGroups]
  | cons group rest ih =>
      unfold addToGroups
      split
      · simp only [List.exists_mem_cons_iff, List.mem_append, List.mem_singleton]
        rw [or_assoc, or_left_comm]
      · rw [List.exists_mem_cons_iff, ih, List.exists_mem_cons_iff]
        exact or_left_comm

theorem isGrouping_addToGroups {entries : List (Entry Ty)}
    {groups : List (List (List (Entry Ty)))} (hkeys : (Shape.keys entries).Nodup)
    (h : IsGrouping groups) : IsGrouping (addToGroups entries groups) := by
  induction groups with
  | nil =>
      refine ⟨?_, ?_, ?_, List.pairwise_singleton _ _⟩ <;> simp [addToGroups, hkeys]
  | cons group rest ih =>
      have hsameKeys : ∀ f, Shape.sameKeys entries f = true ↔
          (Shape.keys entries).Perm (Shape.keys f) := fun f => Shape.sameKeys_iff hkeys
      rcases List.pairwise_cons.mp h.apart with ⟨hapart, hrest⟩
      unfold addToGroups
      split
      · rename_i hany
        rcases List.any_eq_true.mp hany with ⟨f, hf, hsame⟩
        rw [hsameKeys] at hsame
        have hgroup : ∀ e ∈ group ++ [entries], (Shape.keys entries).Perm (Shape.keys e) := by
          intro e he
          rcases List.mem_append.mp he with he | he
          · exact hsame.trans (h.same group List.mem_cons_self f hf e he)
          · rw [List.mem_singleton.mp he]
        refine ⟨?_, ?_, ?_, List.pairwise_cons.mpr ⟨?_, hrest⟩⟩
        · exact List.forall_mem_cons.mpr ⟨by simp, h.tail.ne_nil⟩
        · refine List.forall_mem_cons.mpr ⟨fun e he => ?_, h.tail.nodup⟩
          rcases List.mem_append.mp he with he | he
          · exact h.nodup group List.mem_cons_self e he
          · rwa [List.mem_singleton.mp he]
        · refine List.forall_mem_cons.mpr ⟨fun e he f hf => ?_, h.tail.same⟩
          exact (hgroup e he).symm.trans (hgroup f hf)
        · intro other hother e he g hg hperm
          exact hapart other hother f hf g hg (hsame.symm.trans ((hgroup e he).trans hperm))
      · rename_i hnone
        have hnew : ∀ f ∈ group, ¬ (Shape.keys f).Perm (Shape.keys entries) := by
          intro f hf hperm
          exact hnone (List.any_eq_true.mpr ⟨f, hf, (hsameKeys f).mpr hperm.symm⟩)
        have hnext := ih h.tail
        refine ⟨?_, ?_, ?_, List.pairwise_cons.mpr ⟨?_, hnext.apart⟩⟩
        · exact List.forall_mem_cons.mpr ⟨h.ne_nil group List.mem_cons_self, hnext.ne_nil⟩
        · exact List.forall_mem_cons.mpr ⟨h.nodup group List.mem_cons_self, hnext.nodup⟩
        · exact List.forall_mem_cons.mpr ⟨h.same group List.mem_cons_self, hnext.same⟩
        · intro other hother e he f hf hperm
          rcases mem_addToGroups.mp ⟨other, hother, hf⟩ with rfl | ⟨g, hg, hfg⟩
          · exact hnew e he hperm
          · exact hapart g hg e he f hfg hperm

def shapeCount (groups : List (List (List (Entry Ty)))) : Nat :=
  groups.flatten.length

theorem shapeCount_addToGroups (entries : List (Entry Ty))
    (groups : List (List (List (Entry Ty)))) :
    shapeCount (addToGroups entries groups) = shapeCount groups + 1 := by
  induction groups with
  | nil => rfl
  | cons group rest ih =>
      unfold addToGroups
      unfold shapeCount at ih ⊢
      split
      · simp only [List.flatten_cons, List.length_append, List.length_singleton]
        omega
      · simp only [List.flatten_cons, List.length_append, ih]
        omega

theorem foldl_addToGroups {shapes : List (List (Entry Ty))}
    {groups : List (List (List (Entry Ty)))} (hgroups : IsGrouping groups)
    (hkeys : ∀ e ∈ shapes, (Shape.keys e).Nodup) :
    let result := shapes.foldl (fun groups entries => addToGroups entries groups) groups
    IsGrouping result ∧ shapeCount result = shapeCount groups + shapes.length := by
  induction shapes generalizing groups with
  | nil => exact ⟨hgroups, rfl⟩
  | cons entries rest ih =>
      rw [List.forall_mem_cons] at hkeys
      rcases ih (isGrouping_addToGroups hkeys.1 hgroups) hkeys.2 with ⟨hgrouping, hcount⟩
      refine ⟨hgrouping, ?_⟩
      rw [List.foldl_cons, hcount, shapeCount_addToGroups, List.length_cons]
      omega

theorem mem_foldl_addToGroups {shapes : List (List (Entry Ty))} {e : List (Entry Ty)}
    {groups : List (List (List (Entry Ty)))} :
    (∃ group ∈ shapes.foldl (fun groups entries => addToGroups entries groups) groups, e ∈ group) ↔
      e ∈ shapes ∨ ∃ group ∈ groups, e ∈ group := by
  induction shapes generalizing groups with
  | nil => simp
  | cons entries rest ih =>
      rw [List.foldl_cons, ih, mem_addToGroups, List.mem_cons]
      exact or_left_comm.trans or_assoc.symm

variable {replies : Ty -> Ty -> Tristate -> Prop} {members : List Ty}

theorem mem_entries {e : List (Entry Ty)} :
    e ∈ members.filterMap Ty.entries? ↔ Ty.shape e ∈ members := by
  rw [List.mem_filterMap]
  constructor
  · intro hall
    rcases hall with ⟨t, ht, heq⟩
    cases t <;> simp [Ty.entries?] at heq
    exact heq ▸ ht
  · intro he
    exact ⟨_, he, rfl⟩

theorem nodup_entries (hnodup : members.Nodup) : (members.filterMap Ty.entries?).Nodup := by
  refine List.Nodup.filterMap (fun t u e ht hu => ?_) hnodup
  cases t <;> simp [Ty.entries?] at ht
  cases u <;> simp [Ty.entries?] at hu
  rw [ht, hu]

theorem mem_shapeGroups {e : List (Entry Ty)} :
    (∃ group ∈ shapeGroups members, e ∈ group) ↔ Ty.shape e ∈ members := by
  rw [← mem_entries]
  exact mem_foldl_addToGroups.trans (by simp)

/-- The shapes among formed members are grouped by their keys. -/
theorem shapeGroups_spec (hformed : ∀ m ∈ members, Formed replies m) :
    IsGrouping (shapeGroups members) ∧
      shapeCount (shapeGroups members) = (members.filterMap Ty.entries?).length ∧
      ∀ e, (∃ group ∈ shapeGroups members, e ∈ group) ↔ Ty.shape e ∈ members := by
  have hempty : IsGrouping [] := ⟨by simp, by simp, by simp, List.Pairwise.nil⟩
  have hkeys : ∀ e ∈ members.filterMap Ty.entries?, (Shape.keys e).Nodup :=
    fun e he => (hformed _ (mem_entries.mp he)).here.1
  rcases foldl_addToGroups hempty hkeys with ⟨hgrouping, hcount⟩
  exact ⟨hgrouping, hcount.trans (by simp [shapeCount]), fun e => mem_shapeGroups⟩

/-!
# Merging a group
-/

/-- What merging needs of the way in which the values of a key are combined. -/
def Combines (replies : Ty -> Ty -> Tristate -> Prop) (n : Nat)
    (combine : List Ty -> Inquiry Ty) : Prop :=
  ∀ ts, ts ≠ [] -> (∀ t ∈ ts, Formed replies t ∧ t ≠ .error ∧ t.height ≤ n) ->
    (combine ts).Meets (.building replies) fun t => Formed replies t ∧ t ≠ .error

/-- A formed shape whose values are of a height that can be combined. -/
def IsMergeable (replies : Ty -> Ty -> Tristate -> Prop) (n : Nat)
    (entries : List (Entry Ty)) : Prop :=
  Formed replies (.shape entries) ∧ ∀ e ∈ entries, e.value.height ≤ n

variable {n : Nat} {combine : List Ty -> Inquiry Ty}

theorem meets_mergeEntry (hcombine : Combines replies n combine)
    {shapes : List (List (Entry Ty))} (hshapes : ∀ s ∈ shapes, IsMergeable replies n s)
    {key : Key} (hkey : ∃ s ∈ shapes, key ∈ Shape.keys s) :
    (mergeEntry combine shapes key).Meets (.building replies) fun e =>
      e.key = key ∧ Formed replies e.value ∧ e.value ≠ .error := by
  have hfound : ∀ e ∈ shapes.filterMap (Shape.entry? · key), ∃ s ∈ shapes, e ∈ s := by
    intro e he
    rcases List.mem_filterMap.mp he with ⟨s, hs, hentry⟩
    exact ⟨s, hs, (Shape.mem_of_entry? hentry).1⟩
  refine (hcombine _ ?_ ?_).bind fun t ht => ⟨rfl, ht⟩
  · rcases hkey with ⟨s, hs, hkey'⟩
    rcases List.mem_map.mp hkey' with ⟨d, hd, rfl⟩
    rcases Shape.entry?_isSome hd with ⟨e, he⟩
    exact List.ne_nil_of_mem
      (List.mem_map_of_mem (List.mem_filterMap.mpr ⟨s, hs, he⟩))
  · intro t ht
    rcases List.mem_map.mp ht with ⟨e, he, rfl⟩
    rcases hfound e he with ⟨s, hs, hes⟩
    rcases hshapes s hs with ⟨hformed, hheight⟩
    exact ⟨hformed.value hes, hformed.here.2 e hes, hheight e hes⟩

theorem keys_eq_of_forall₂ {P : Entry Ty -> Prop} {keys : List Key} {entries : List (Entry Ty)}
    (h : List.Forall₂ (fun key e => e.key = key ∧ P e) keys entries) :
    Shape.keys entries = keys ∧ ∀ e ∈ entries, P e := by
  induction h with
  | nil => exact ⟨rfl, by simp⟩
  | cons hhead _ ih =>
      rcases hhead with ⟨rfl, hP⟩
      rw [Shape.keys_cons, ih.1, List.forall_mem_cons]
      exact ⟨rfl, hP, ih.2⟩

/-- The merged shape declares the keys of the first shape of the group. -/
theorem meets_mergeGroup (hcombine : Combines replies n combine)
    {first : List (Entry Ty)} {rest : List (List (Entry Ty))}
    (hshapes : ∀ s ∈ first :: rest, IsMergeable replies n s) :
    (mergeGroup combine (first :: rest)).Meets (.building replies) fun t =>
      ∃ entries, t = .shape entries ∧ Formed replies t ∧
        Shape.keys entries = Shape.keys first := by
  have hentries : ∀ key ∈ Shape.keys first,
      (mergeEntry combine (first :: rest) key).Meets (.building replies) fun e =>
        e.key = key ∧ Formed replies e.value ∧ e.value ≠ .error :=
    fun key hkey => meets_mergeEntry hcombine hshapes ⟨first, List.mem_cons_self, hkey⟩
  apply (meets_mapM hentries).bind
  intro entries hall
  rcases keys_eq_of_forall₂ hall with ⟨hkeys, hvalues⟩
  have hnodup : (Shape.keys entries).Nodup := by
    rw [hkeys]
    exact (hshapes first List.mem_cons_self).1.here.1
  apply (Build.meets_shape hnodup hvalues).imp
  intro _ heq
  subst heq
  exact ⟨entries, rfl, Ty.formed_shape hnodup hvalues, hkeys⟩

/-!
# Merging all groups
-/

/-- A shape that stands for a group of two and more shapes. -/
def IsMerged (replies : Ty -> Ty -> Tristate -> Prop)
    (groups : List (List (List (Entry Ty)))) (t : Ty) : Prop :=
  Formed replies t ∧ ∃ entries, t = .shape entries ∧
    ∃ group ∈ groups, 2 ≤ group.length ∧ ∀ e ∈ group, (Shape.keys entries).Perm (Shape.keys e)

theorem IsMerged.cons {groups : List (List (List (Entry Ty)))} {group : List (List (Entry Ty))}
    {t : Ty} (ht : IsMerged replies groups t) : IsMerged replies (group :: groups) t := by
  rcases ht with ⟨hformed, entries, rfl, other, hother, hrest⟩
  exact ⟨hformed, entries, rfl, other, List.mem_cons_of_mem _ hother, hrest⟩

/-- Two types that are not shapes with the same keys. -/
def HaveOtherKeys (t u : Ty) : Prop :=
  ∀ e f, t = .shape e -> u = .shape f -> ¬ (Shape.keys e).Perm (Shape.keys f)

theorem meets_mergeGroups (hcombine : Combines replies n combine)
    {groups : List (List (List (Entry Ty)))} (hgroups : IsGrouping groups)
    (hshapes : ∀ group ∈ groups, ∀ s ∈ group, IsMergeable replies n s) {budget : Nat} :
    (mergeGroups combine budget groups).Meets (.building replies) fun result =>
      (∀ t ∈ result.2, IsMerged replies groups t) ∧ result.2.Pairwise HaveOtherKeys ∧
        (shapeCount groups ≤ budget ->
          ∀ group ∈ groups, 2 ≤ group.length ->
            result.2 ≠ [] ∧ ∀ e ∈ group, Ty.shape e ∈ result.1) := by
  induction groups generalizing budget with
  | nil => exact ⟨by simp, List.Pairwise.nil, by simp⟩
  | cons group rest ih =>
      rw [List.forall_mem_cons] at hshapes
      rcases List.pairwise_cons.mp hgroups.apart with ⟨hapart, -⟩
      have hcount : shapeCount (group :: rest) = group.length + shapeCount rest := by
        simp [shapeCount]
      unfold mergeGroups
      split
      · rename_i hsingle
        apply (ih hgroups.tail hshapes.2).imp
        intro result hresult
        rcases hresult with ⟨hmerged, hpairwise, hremoved⟩
        refine ⟨fun t ht => (hmerged t ht).cons, hpairwise, fun hbudget => ?_⟩
        refine List.forall_mem_cons.mpr ⟨fun htwo => by omega, hremoved (by omega)⟩
      · dsimp only
        split
        · rename_i hshort
          refine ⟨by simp, List.Pairwise.nil, fun hbudget => ?_⟩
          rw [List.length_take] at hshort
          omega
        · rename_i hlong
          have hsubset : ∀ s ∈ group.take budget, s ∈ group := fun s hs => List.mem_of_mem_take hs
          cases hshare : group.take budget with
          | nil => simp [hshare] at hlong
          | cons first others =>
              rw [hshare] at hsubset
              refine (meets_mergeGroup hcombine
                fun s hs => hshapes.1 s (hsubset s hs)).bind fun merged hmerged => ?_
              apply (ih hgroups.tail hshapes.2).bind
              intro result hresult
              rcases hmerged with ⟨entries, rfl, hformed, hkeys⟩
              rcases hresult with ⟨hall, hpairwise, hremoved⟩
              have hperm : ∀ e ∈ group, (Shape.keys entries).Perm (Shape.keys e) := by
                intro e he
                rw [hkeys]
                exact hgroups.same group List.mem_cons_self first
                  (hsubset first List.mem_cons_self) e he
              refine ⟨List.forall_mem_cons.mpr ⟨?_, fun t ht => (hall t ht).cons⟩,
                List.pairwise_cons.mpr ⟨?_, hpairwise⟩, fun hbudget => ?_⟩
              · exact ⟨hformed, entries, rfl, group, List.mem_cons_self, by omega, hperm⟩
              · -- the other merged shapes stand for groups with other keys
                rintro t ht e f ⟨⟩ rfl hef
                rcases hall _ ht with ⟨-, f', heq, other, hother, -, hothers⟩
                cases heq
                rcases List.exists_mem_of_ne_nil other (hgroups.tail.ne_nil other hother) with
                  ⟨g, hg⟩
                exact hapart other hother first (hsubset first List.mem_cons_self) g hg
                  (hkeys ▸ hef.trans (hothers g hg))
              · have hwhole : group.take budget = group := List.take_of_length_le (by omega)
                have hshareLength : (first :: others).length = group.length := by
                  rw [← hshare, hwhole]
                refine List.forall_mem_cons.mpr
                  ⟨fun _ => ⟨by simp, fun e he => ?_⟩, fun g hg htwo => ⟨by simp, fun e he => ?_⟩⟩
                · refine List.mem_append_left _ (List.mem_map_of_mem ?_)
                  rw [← hshare, hwhole]
                  exact he
                · exact List.mem_append_right _ ((hremoved (by omega) g hg htwo).2 e he)

/-!
# The members after merging
-/

theorem foldl_appendNew {added : List Ty} (hready : IsReady replies members)
    (hadded : ∀ t ∈ added, Formed replies t ∧ IsMember t) :
    IsReady replies (added.foldl appendNew members) ∧
      ∀ u, u ∈ added.foldl appendNew members ↔ u ∈ members ∨ u ∈ added := by
  induction added generalizing members with
  | nil => exact ⟨hready, fun u => by simp⟩
  | cons t rest ih =>
      rw [List.forall_mem_cons] at hadded
      rcases ih (hready.appendNew hadded.1.1 hadded.1.2) hadded.2 with ⟨hresult, hmem⟩
      constructor
      · exact hresult
      · intro u
        rw [List.foldl_cons, hmem u, mem_appendNew, List.mem_cons, or_assoc]

def HasOneShapePerKeys (members : List Ty) : Prop :=
  ∀ e f, Ty.shape e ∈ members -> Ty.shape f ∈ members ->
    (Shape.keys e).Perm (Shape.keys f) -> e = f

/-- The shapes that are left after all groups of two and more have been replaced
have different keys. -/
theorem hasOneShapePerKeys_of_merged {removed added : List Ty}
    (hformed : ∀ m ∈ members, Formed replies m)
    (hadded : ∀ t ∈ added, IsMerged replies (shapeGroups members) t)
    (hpairwise : added.Pairwise HaveOtherKeys)
    (hremoved : ∀ group ∈ shapeGroups members, 2 ≤ group.length ->
      ∀ e ∈ group, Ty.shape e ∈ removed)
    {result : List Ty}
    (hresult : ∀ u ∈ result, (u ∈ members ∧ u ∉ removed) ∨ u ∈ added) :
    HasOneShapePerKeys result := by
  rcases shapeGroups_spec hformed with ⟨hgrouping, -, hmem⟩
  -- a shape that is left alone has no other shape in its group
  have hleft : ∀ e, Ty.shape e ∈ members -> Ty.shape e ∉ removed ->
      ∃ group ∈ shapeGroups members, group = [e] := by
    intro e he hnot
    rcases (hmem e).mpr he with ⟨group, hgroup, heg⟩
    refine ⟨group, hgroup, ?_⟩
    match group, heg with
    | [f], heg => rw [List.mem_singleton.mp heg]
    | f :: g :: rest, heg => exact absurd (hremoved _ hgroup (by simp) e heg) hnot
  have hmixed : ∀ e f, Ty.shape e ∈ members -> Ty.shape e ∉ removed -> Ty.shape f ∈ added ->
      ¬ (Shape.keys e).Perm (Shape.keys f) := by
    intro e f he hnot hf hperm
    rcases hleft e he hnot with ⟨group, hgroup, rfl⟩
    rcases hadded _ hf with ⟨-, f', heq, other, hother, htwo, hothers⟩
    cases heq
    rcases List.exists_mem_of_ne_nil other (hgrouping.ne_nil other hother) with ⟨g, hg⟩
    have hsame := hgrouping.eq_of_perm hgroup hother List.mem_cons_self hg
      (hperm.trans (hothers g hg))
    subst hsame
    simp at htwo
  have hsymm : Std.Symm HaveOtherKeys :=
    ⟨fun t u htu e f he hf hperm => htu f e hf he hperm.symm⟩
  intro e f he hf hperm
  rcases hresult _ he with ⟨he, hnot⟩ | he <;> rcases hresult _ hf with ⟨hf, hnot'⟩ | hf
  · rcases hleft e he hnot with ⟨group, hgroup, rfl⟩
    rcases hleft f hf hnot' with ⟨other, hother, rfl⟩
    have hsame := hgrouping.eq_of_perm hgroup hother List.mem_cons_self List.mem_cons_self hperm
    exact List.singleton_inj.mp hsame
  · exact absurd hperm (hmixed e f he hnot hf)
  · exact absurd hperm.symm (hmixed f e hf hnot' he)
  · by_contra hne
    exact hpairwise.forall he hf (fun heq => hne (Ty.shape.inj heq)) e f rfl rfl hperm

theorem meets_mergeShapes (hcombine : Combines replies n combine)
    (hready : IsReady replies members) (hne : members ≠ [])
    (hirredundant : IsIrredundant replies members)
    (hheight : ∀ e, Ty.shape e ∈ members -> ∀ x ∈ e, x.value.height ≤ n) {limit : Nat} :
    (mergeShapes limit combine members).Meets (.building replies) fun result =>
      IsReady replies result ∧ result ≠ [] ∧ IsIrredundant replies result ∧
        (∀ u ∈ result, u ∈ members ∨ ∃ e, u = .shape e) ∧
        ((members.filterMap Ty.entries?).length ≤ limit -> HasOneShapePerKeys result) := by
  rcases shapeGroups_spec hready.formed with ⟨hgrouping, hcount, hmem⟩
  have hshapes : ∀ group ∈ shapeGroups members, ∀ s ∈ group, IsMergeable replies n s := by
    intro group hgroup s hs
    have hs' := (hmem s).mp ⟨group, hgroup, hs⟩
    exact ⟨hready.formed _ hs', hheight s hs'⟩
  apply (meets_mergeGroups hcombine hgrouping hshapes).bind
  intro merged hmerged
  rcases merged with ⟨removed, added⟩
  rcases hmerged with ⟨hadded, hpairwise, hremoved⟩
  rw [hcount] at hremoved
  dsimp only
  split
  · rename_i hempty
    rcases List.isEmpty_iff.mp hempty with rfl
    refine ⟨hready, hne, hirredundant, fun u => Or.inl, fun hlimit => ?_⟩
    have hmembers : ∀ u ∈ members, (u ∈ members ∧ u ∉ ([] : List Ty)) ∨ u ∈ ([] : List Ty) :=
      fun u hu => Or.inl ⟨hu, by simp⟩
    refine hasOneShapePerKeys_of_merged hready.formed (by simp) List.Pairwise.nil
      (fun group hgroup htwo => ?_) hmembers
    exact absurd rfl (hremoved hlimit group hgroup htwo).1
  · rename_i hsome
    have hshape : ∀ t ∈ added, Formed replies t ∧ IsMember t := by
      intro t ht
      rcases hadded t ht with ⟨hformed, e, rfl, -⟩
      exact ⟨hformed, by simp [IsMember, Ty.unionMembers?]⟩
    obtain ⟨hready', hmem'⟩ := foldl_appendNew
      (hready.sublist (List.filter_sublist (p := fun t => !removed.contains t))) hshape
    have hne' : added.foldl appendNew (members.filter fun t => !removed.contains t) ≠ [] := by
      obtain ⟨t, ht⟩ := List.exists_mem_of_ne_nil added (by simpa using hsome)
      exact List.ne_nil_of_mem ((hmem' t).mpr (Or.inr ht))
    apply (meets_absorb _).imp
    intro result hall
    rcases hall with ⟨hsublist, hnonempty, hirredundant'⟩
    refine ⟨hready'.sublist hsublist, hnonempty hne', hirredundant', fun u hu => ?_,
      fun hlimit => ?_⟩
    · rcases (hmem' u).mp (hsublist.subset hu) with hu' | hu'
      · exact Or.inl (List.mem_filter.mp hu').1
      · rcases hadded u hu' with ⟨-, e, rfl, -⟩
        exact Or.inr ⟨e, rfl⟩
    · have hresult : ∀ u ∈ result, (u ∈ members ∧ u ∉ removed) ∨ u ∈ added := by
        intro u hu
        apply ((hmem' u).mp (hsublist.subset hu)).imp_left
        intro hu'
        simpa using List.mem_filter.mp hu'
      exact hasOneShapePerKeys_of_merged hready.formed hadded hpairwise
        (fun group hgroup htwo => (hremoved hlimit group hgroup htwo).2) hresult

end Union
end GradualTypes
