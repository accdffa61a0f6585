import GradualTypes.Proofs.Formed
import GradualTypes.Proofs.Ranges
import Mathlib.Data.List.Pairwise

/-!
# Passes over the members of a union

Before the members of a union are closed, both boolean literals become `bool`,
intervals that touch become one, and members contained in others are dropped.
Each pass establishes its own property of the members.  The passes after it keep
that property, because they only drop members or add types of another kind.
-/

namespace GradualTypes
namespace Union

open Inquiry
open GradualTypes.Ty (Formed)

variable {replies : Ty -> Ty -> Tristate -> Prop} {members : List Ty} {t u : Ty}

/-- Members that can be closed to a union once they are merged and irredundant. -/
structure IsReady (replies : Ty -> Ty -> Tristate -> Prop) (members : List Ty) : Prop where
  nodup : members.Nodup
  formed : ∀ m ∈ members, Formed replies m
  isMember : ∀ m ∈ members, IsMember m

theorem IsReady.sublist {kept : List Ty} (h : IsReady replies members)
    (hkept : kept.Sublist members) : IsReady replies kept where
  nodup := h.nodup.sublist hkept
  formed := fun m hm => h.formed m (hkept.subset hm)
  isMember := fun m hm => h.isMember m (hkept.subset hm)

/-- A type that a pass may add to the members: a scalar type that is not a
boolean literal. -/
def IsAdded (t : Ty) : Prop :=
  t = .bool ∨ t = .int ∨ (∃ n, t = .literal (.int n)) ∨ ∃ r, t = .range r

theorem IsAdded.isMember (ht : IsAdded t) : IsMember t := by
  rcases ht with rfl | rfl | ⟨n, rfl⟩ | ⟨r, rfl⟩ <;> simp [IsMember, Ty.unionMembers?]

theorem IsAdded.ne_shape (ht : IsAdded t) (entries : List (Entry Ty)) : t ≠ .shape entries := by
  rcases ht with rfl | rfl | ⟨n, rfl⟩ | ⟨r, rfl⟩ <;> simp

/-- No shape is added. -/
theorem shape_mem_of_added {result : List Ty} (hresult : ∀ u ∈ result, u ∈ members ∨ IsAdded u)
    {e : List (Entry Ty)} (he : .shape e ∈ result) : .shape e ∈ members :=
  (hresult _ he).resolve_right fun hadded => hadded.ne_shape e rfl

/-!
# Adding a member
-/

theorem mem_appendNew : u ∈ appendNew members t ↔ u ∈ members ∨ u = t := by
  unfold appendNew
  split
  · rename_i hmem
    rw [List.contains_iff_mem] at hmem
    constructor
    · exact Or.inl
    · intro hcase
      rcases hcase with hu | rfl
      · exact hu
      · exact hmem
  · simp

theorem IsReady.appendNew (h : IsReady replies members) (ht : Formed replies t)
    (hmember : IsMember t) : IsReady replies (appendNew members t) where
  nodup := by
    unfold Union.appendNew
    split
    · exact h.nodup
    · rename_i hnew
      rw [List.contains_iff_mem] at hnew
      refine List.nodup_append.mpr ⟨h.nodup, by simp, ?_⟩
      intro u hu _ hmem heq
      subst heq
      exact hnew (List.mem_singleton.mp hmem ▸ hu)
  formed := by
    intro m hm
    rcases mem_appendNew.mp hm with hm | rfl
    · exact h.formed m hm
    · exact ht
  isMember := by
    intro m hm
    rcases mem_appendNew.mp hm with hm | rfl
    · exact h.isMember m hm
    · exact hmember

/-!
# Boolean literals
-/

/-- Not both boolean literals are there. -/
def HasMergedBools (members : List Ty) : Prop :=
  ¬ (Ty.literal (.bool true) ∈ members ∧ Ty.literal (.bool false) ∈ members)

theorem HasMergedBools.of_added {result : List Ty} (h : HasMergedBools members)
    (hresult : ∀ u ∈ result, u ∈ members ∨ IsAdded u) : HasMergedBools result := by
  have hbool : ∀ b, Ty.literal (.bool b) ∈ result -> Ty.literal (.bool b) ∈ members := by
    intro b hb
    rcases hresult _ hb with hmem | hadded
    · exact hmem
    · simp [IsAdded] at hadded
  exact fun hboth => h ⟨hbool true hboth.1, hbool false hboth.2⟩

theorem meets_mergeBools (hready : IsReady replies members) (hne : members ≠ []) :
    (mergeBools members).Meets (.building replies) fun result =>
      IsReady replies result ∧ result ≠ [] ∧ HasMergedBools result ∧
        ∀ u ∈ result, u ∈ members ∨ IsAdded u := by
  apply (Build.meets_bool true).bind
  intro _ hsame
  subst hsame
  apply (Build.meets_bool false).bind
  intro _ hsame
  subst hsame
  split
  · have hfilter := hready.sublist (List.filter_sublist
      (p := fun t => t != Ty.literal (.bool true) && t != Ty.literal (.bool false)))
    refine ⟨hfilter.appendNew (Ty.formed_keyword _) (IsAdded.isMember (Or.inl rfl)), ?_, ?_, ?_⟩
    · exact List.ne_nil_of_mem (mem_appendNew.mpr (Or.inr rfl))
    · intro hboth
      rcases mem_appendNew.mp hboth.1 with hmem | heq
      · simp at hmem
      · cases heq
    · intro u hu
      rcases mem_appendNew.mp hu with hmem | rfl
      · exact Or.inl (List.mem_filter.mp hmem).1
      · exact Or.inr (Or.inl rfl)
  · rename_i hboth
    refine ⟨hready, hne, ?_, fun u hu => Or.inl hu⟩
    simpa [HasMergedBools] using hboth

/-!
# Intervals
-/

/-- No two intervals touch. -/
def HasMergedRanges (members : List Ty) : Prop :=
  ∀ r s, Ty.range r ∈ members -> Ty.range s ∈ members -> r ≠ s -> r.touches s = false

theorem meets_appendRanges {rs : List IntRange} (hready : IsReady replies members)
    (hrs : ∀ r ∈ rs, r.isEmpty = false) :
    (appendRanges members rs).Meets (.building replies) fun result =>
      IsReady replies result ∧ (members ≠ [] ∨ rs ≠ [] -> result ≠ []) ∧
        (∀ r, Ty.range r ∈ result -> Ty.range r ∈ members ∨ r ∈ rs) ∧
        ∀ u ∈ result, u ∈ members ∨ IsAdded u := by
  induction rs generalizing members with
  | nil => exact ⟨hready, fun h => h.resolve_right (by simp), fun r => Or.inl, fun u => Or.inl⟩
  | cons s rest ih =>
      rw [List.forall_mem_cons] at hrs
      apply (Build.meets_range hrs.1).bind
      intro t ht
      have hadded : IsAdded t := by
        rcases ht with rfl | hn | ⟨rfl, -⟩
        · exact Or.inr (Or.inl rfl)
        · exact Or.inr (Or.inr (Or.inl hn))
        · exact Or.inr (Or.inr (Or.inr ⟨s, rfl⟩))
      have hformed : Formed replies t := by
        rcases ht with rfl | ⟨n, rfl⟩ | ⟨rfl, hne⟩
        · exact Ty.formed_keyword _
        · exact Ty.formed_literal _
        · exact Ty.formed_range hrs.1 hne
      apply (ih (hready.appendNew hformed hadded.isMember) hrs.2).imp
      intro result hall
      rcases hall with ⟨hresult, hne, hranges, hmem⟩
      refine ⟨hresult, fun _ => ?_, fun r hr => ?_, fun u hu => ?_⟩
      · exact hne (Or.inl (List.ne_nil_of_mem (mem_appendNew.mpr (Or.inr rfl))))
      · rcases hranges r hr with hr' | hr'
        · rcases mem_appendNew.mp hr' with hr'' | rfl
          · exact Or.inl hr''
          · rcases ht with heq | ⟨n, heq⟩ | ⟨heq, -⟩ <;> cases heq
            exact Or.inr List.mem_cons_self
        · exact Or.inr (List.mem_cons_of_mem _ hr')
      · rcases hmem u hu with hu' | hu'
        · rcases mem_appendNew.mp hu' with hu'' | rfl
          · exact Or.inl hu''
          · exact Or.inr hadded
        · exact Or.inr hu'

theorem mem_ranges {r : IntRange} : r ∈ members.filterMap Ty.range? ↔ Ty.range r ∈ members := by
  rw [List.mem_filterMap]
  constructor
  · intro hall
    rcases hall with ⟨t, ht, heq⟩
    cases t <;> simp [Ty.range?] at heq
    exact heq ▸ ht
  · intro hr
    exact ⟨_, hr, rfl⟩

theorem two_le_length {α : Type} {items : List α} {a b : α} (ha : a ∈ items) (hb : b ∈ items)
    (hne : a ≠ b) : 2 ≤ items.length := by
  match items with
  | [] => cases ha
  | [c] => exact absurd ((List.mem_singleton.mp ha).trans (List.mem_singleton.mp hb).symm) hne
  | _ :: _ :: _ => simp

theorem two_le_length_of_ne {α : Type} {items : List α} (hnil : items ≠ [])
    (hsingle : ∀ a, items ≠ [a]) : 2 ≤ items.length := by
  match items with
  | [] => exact absurd rfl hnil
  | [a] => exact absurd rfl (hsingle a)
  | _ :: _ :: _ => simp

theorem meets_mergeRanges (hready : IsReady replies members) (hne : members ≠ []) :
    (mergeRanges members).Meets (.building replies) fun result =>
      IsReady replies result ∧ result ≠ [] ∧ HasMergedRanges result ∧
        ∀ u ∈ result, u ∈ members ∨ IsAdded u := by
  unfold mergeRanges
  dsimp only
  split
  · rename_i hfew
    refine ⟨hready, hne, fun r s hr hs hrs => ?_, fun u => Or.inl⟩
    have htwo := two_le_length (mem_ranges.mpr hr) (mem_ranges.mpr hs) hrs
    omega
  · rename_i hmany
    have hnonempty : ∀ r ∈ members.filterMap Ty.range?, r.isEmpty = false :=
      fun r hr => (hready.formed _ (mem_ranges.mp hr)).here.1
    rcases IntRange.joinTouching_sortByStart hnonempty with ⟨hjoined, hpairwise⟩
    have hfilter := hready.sublist (List.filter_sublist (p := fun t => t.range?.isNone))
    apply (meets_appendRanges hfilter hjoined).imp
    intro result hall
    rcases hall with ⟨hresult, hne', hranges, hmem⟩
    have hsome : IntRange.joinTouching (sortByStart (members.filterMap Ty.range?)) ≠ [] := by
      obtain ⟨r, hr⟩ := List.exists_mem_of_length_pos (l := members.filterMap Ty.range?) (by omega)
      have hsorted := IntRange.mem_sortByStart.mpr hr
      cases hlist : sortByStart (members.filterMap Ty.range?) with
      | nil => simp [hlist] at hsorted
      | cons s rest => exact IntRange.joinTouching_go_ne_nil
    have hjoinedOnly : ∀ r, Ty.range r ∈ result ->
        r ∈ IntRange.joinTouching (sortByStart (members.filterMap Ty.range?)) := by
      intro r hr
      apply (hranges r hr).resolve_left
      intro hr'
      simp [Ty.range?] at hr'
    have hsymm : Std.Symm fun r s : IntRange => r.touches s = false :=
      ⟨fun r s hrs => (IntRange.touches_comm s r).trans hrs⟩
    refine ⟨hresult, hne' (Or.inr hsome), fun r s hr hs hrs => ?_, fun u hu => ?_⟩
    · exact hpairwise.forall (hjoinedOnly r hr) (hjoinedOnly s hs) hrs
    · exact (hmem u hu).imp_left fun hu' => (List.mem_filter.mp hu').1

/-!
# Absorption
-/

theorem meets_isAbsorbed (t : Ty) (others : List Ty) :
    (isAbsorbed t others).Meets (.building replies) fun absorbed =>
      (absorbed = true -> others ≠ []) ∧
        (absorbed = false -> ∀ u ∈ others, Beside replies t u) := by
  induction others with
  | nil => exact ⟨fun h => (by cases h), fun _ u hu => (by cases hu)⟩
  | cons u rest ih =>
      have hrest : Beside replies t u ->
          (isAbsorbed t rest).Meets (.building replies) fun absorbed =>
            (absorbed = true -> u :: rest ≠ []) ∧
              (absorbed = false -> ∀ v ∈ u :: rest, Beside replies t v) := by
        intro hu
        refine ih.imp fun absorbed habsorbed => ⟨fun _ => by simp, fun hfalse => ?_⟩
        exact List.forall_mem_cons.mpr ⟨hu, habsorbed.2 hfalse⟩
      unfold isAbsorbed
      split
      · rename_i hliterals
        exact hrest fun hnot => absurd (hliterals.symm.trans hnot) (by decide)
      · refine ⟨trivial, fun r hr => ?_⟩
        show Meets _ _ (if r = .yes then pure true else isAbsorbed t rest)
        split
        · exact ⟨fun _ => by simp, fun h => by cases h⟩
        · rename_i hne
          exact hrest fun _ => ⟨r, hr, hne⟩

/-- What absorption leaves: some of the members, and some if there were any, none
of which is found to be contained in another. -/
structure IsAbsorption (replies : Ty -> Ty -> Tristate -> Prop) (members result : List Ty) :
    Prop where
  sublist : result.Sublist members
  ne_nil : members ≠ [] -> result ≠ []
  irredundant : IsIrredundant replies result

/-- The kept members stay apart from one another and from all that come after
them. -/
theorem meets_absorbFrom {kept rest : List Ty}
    (hkept : ∀ x ∈ kept, ∀ y ∈ kept ++ rest, x ≠ y -> Beside replies x y) :
    (absorbFrom kept rest).Meets (.building replies) (IsAbsorption replies (kept ++ rest)) := by
  induction rest generalizing kept with
  | nil =>
      rw [List.append_nil] at hkept ⊢
      exact ⟨List.Sublist.refl _, id, fun x hx y hy hne => hkept x hx y hy hne⟩
  | cons t rest ih =>
      apply (meets_isAbsorbed t (kept ++ rest)).bind
      intro absorbed habsorbed
      have hdrop : (kept ++ rest).Sublist (kept ++ t :: rest) :=
        (List.Sublist.refl kept).append (List.sublist_cons_self t rest)
      split
      · rename_i htrue
        refine (ih fun x hx y hy => hkept x hx y (hdrop.subset hy)).imp ?_
        intro result hall
        rcases hall with ⟨hsublist, hne, hirredundant⟩
        exact ⟨hsublist.trans hdrop, fun _ => hne (habsorbed.1 htrue), hirredundant⟩
      · rename_i hfalse
        have hbeside := habsorbed.2 (by simpa using hfalse)
        have happend : kept ++ [t] ++ rest = kept ++ t :: rest := by simp
        have hkept' : ∀ x ∈ kept ++ [t], ∀ y ∈ kept ++ [t] ++ rest,
            x ≠ y -> Beside replies x y := by
          intro x hx y hy hne
          rw [happend] at hy
          rcases List.mem_append.mp hx with hx | hx
          · exact hkept x hx y hy hne
          · rcases List.mem_singleton.mp hx with rfl
            apply hbeside y
            rcases List.mem_append.mp hy with hy | hy
            · exact List.mem_append_left _ hy
            · exact List.mem_append_right _ ((List.mem_cons.mp hy).resolve_left hne.symm)
        exact happend ▸ ih hkept'

theorem meets_absorb (members : List Ty) :
    (absorb members).Meets (.building replies) (IsAbsorption replies members) := by
  unfold absorb
  split
  · rename_i hfew
    refine ⟨List.Sublist.refl _, id, fun x hx y hy hne => ?_⟩
    have htwo := two_le_length hx hy hne
    omega
  · refine ⟨trivial, ?_⟩
    have hnone : ∀ x ∈ ([] : List Ty), ∀ y ∈ [] ++ members, x ≠ y -> Beside replies x y := by simp
    exact meets_absorbFrom hnone

/-!
# The passes before shapes are merged
-/

/-- The passes that make members merged and irredundant, apart from their shapes. -/
def prune (members : List Ty) : Inquiry (List Ty) := do
  let members ← mergeBools members
  let members ← mergeRanges members
  absorb members

theorem reduce_eq (limit : Nat) (combine : List Ty -> Inquiry Ty) (flavor : Flavor)
    (members : List Ty) :
    reduce limit combine flavor members =
      prune members >>= fun pruned => mergeShapes limit combine pruned >>= close flavor := by
  simp only [reduce, prune, bind_assoc]

/-- What these passes leave of some members. -/
structure IsPruning (replies : Ty -> Ty -> Tristate -> Prop) (members pruned : List Ty) : Prop where
  ready : IsReady replies pruned
  ne_nil : pruned ≠ []
  bools : HasMergedBools pruned
  ranges : HasMergedRanges pruned
  irredundant : IsIrredundant replies pruned
  added : ∀ u ∈ pruned, u ∈ members ∨ IsAdded u

theorem meets_prune_ready (hready : IsReady replies members) (hne : members ≠ []) :
    (prune members).Meets (.building replies) (IsPruning replies members) := by
  refine (meets_mergeBools hready hne).bind fun first hfirst => ?_
  rcases hfirst with ⟨hready₁, hne₁, hbools₁, hadded₁⟩
  refine (meets_mergeRanges hready₁ hne₁).bind fun second hsecond => ?_
  rcases hsecond with ⟨hready₂, hne₂, hranges₂, hadded₂⟩
  have hbools₂ := hbools₁.of_added hadded₂
  refine (meets_absorb second).imp fun third hthird => ?_
  have hsubset : ∀ {u}, u ∈ third -> u ∈ second := fun hu => hthird.sublist.subset hu
  exact {
    ready := hready₂.sublist hthird.sublist
    ne_nil := hthird.ne_nil hne₂
    bools := fun hboth => hbools₂ ⟨hsubset hboth.1, hsubset hboth.2⟩
    ranges := fun r s hr hs => hranges₂ r s (hsubset hr) (hsubset hs)
    irredundant := hthird.irredundant
    added := fun u hu => (hadded₂ u (hsubset hu)).elim (hadded₁ u) Or.inr }

end Union
end GradualTypes
