import GradualTypes.Proofs.ShapeGroups

/-!
# The form of unions

The union of formed types is a formed type.  The values of merged shapes are
combined by the same operation for lower types, so the induction is on the
height of the members.
-/

namespace GradualTypes
namespace Union

open Inquiry
open GradualTypes.Ty (Formed)

variable {replies : Ty -> Ty -> Tristate -> Prop} {members : List Ty} {t : Ty} {limit n : Nat}
  {flavor : Flavor} {combine : List Ty -> Inquiry Ty}

/-!
# Closing
-/

/-- A union result: formed, and if it is a union that was built from few enough
shapes, then with one shape for each set of keys. -/
structure IsResult (replies : Ty -> Ty -> Tristate -> Prop) (few : Prop) (t : Ty) : Prop where
  formed : Formed replies t
  keys : few -> ∀ flavor members, t = .union flavor members -> HasOneShapePerKeys members

/-- A type that, if it is a union, has the given flavor. -/
def HasFlavor (flavor : Flavor) (t : Ty) : Prop :=
  ∀ flavor' alternatives, t = .union flavor' alternatives -> flavor' = flavor

theorem hasFlavor_of_flat (hflat : t.unionMembers? = none) : HasFlavor flavor t := by
  rintro flavor' alternatives rfl
  cases hflat

theorem HasOneShapePerKeys.subset {result : List Ty} (h : HasOneShapePerKeys members)
    (hresult : ∀ u ∈ result, u ∈ members) : HasOneShapePerKeys result :=
  fun e f he hf => h e f (hresult _ he) (hresult _ hf)

theorem formed_union (htwo : 2 ≤ members.length) (hready : IsReady replies members)
    (hbools : HasMergedBools members) (hranges : HasMergedRanges members)
    (hirredundant : IsIrredundant replies members) :
    Formed replies (.union flavor (Ty.sortCanonical members)) := by
  have hperm := Ty.perm_sortCanonical members
  have hmem : ∀ {u}, u ∈ Ty.sortCanonical members -> u ∈ members := fun hu => hperm.mem_iff.mp hu
  refine .intro ⟨⟨?_, ?_, ?_, ?_, ?_, ?_⟩, ?_⟩ fun c hc => hready.formed c (hmem hc)
  · rwa [hperm.length_eq]
  · exact hperm.nodup_iff.mpr hready.nodup
  · exact fun m hm => hready.isMember m (hmem hm)
  · exact Ty.isCanonical_sortCanonical members
  · exact fun hboth => hbools ⟨hmem hboth.1, hmem hboth.2⟩
  · exact fun r s hr hs => hranges r s (hmem hr) (hmem hs)
  · exact fun x hx y hy => hirredundant x (hmem hx) y (hmem hy)

theorem meets_close {few : Prop} (hne : members ≠ []) (hready : IsReady replies members)
    (hbools : HasMergedBools members) (hranges : HasMergedRanges members)
    (hirredundant : IsIrredundant replies members) (hkeys : few -> HasOneShapePerKeys members) :
    (close flavor members).Meets (.building replies) fun t =>
      IsResult replies few t ∧ (t ≠ .error ∧ t ≠ .mixed ∧ t ≠ .never) ∧ HasFlavor flavor t := by
  unfold close
  split
  · rename_i t
    have ht := hready.isMember t List.mem_cons_self
    refine ⟨⟨hready.formed t List.mem_cons_self, fun _ flavor members heq => ?_⟩,
      ⟨ht.1, ht.2.1, ht.2.2.1⟩, hasFlavor_of_flat ht.2.2.2⟩
    subst heq
    cases ht.2.2.2
  · rename_i hmany
    have htwo := two_le_length_of_ne hne hmany
    have hformed : Formed replies (.union flavor (Ty.sortCanonical members)) :=
      formed_union htwo hready hbools hranges hirredundant
    refine ⟨hformed, ⟨hformed, fun hfew flavor members heq => ?_⟩, by simp, ?_⟩
    · cases heq
      exact (hkeys hfew).subset fun u hu => (Ty.perm_sortCanonical _).mem_iff.mp hu
    · rintro flavor' alternatives ⟨⟩
      rfl

/-!
# The passes together
-/

def shapesAmong (members : List Ty) : Nat :=
  (members.filterMap Ty.entries?).length

theorem shapesAmong_le {result : List Ty} (hnodup : result.Nodup)
    (hsubset : ∀ e, Ty.shape e ∈ result -> Ty.shape e ∈ members) :
    shapesAmong result ≤ shapesAmong members := by
  refine (List.subperm_of_subset (nodup_entries hnodup) fun e he => ?_).length_le
  exact mem_entries.mpr (hsubset e (mem_entries.mp he))

/-- The values of the shapes that pruning leaves are less high than the members. -/
theorem entries_height_le {result : List Ty} (hresult : ∀ u ∈ result, u ∈ members ∨ IsAdded u)
    (hheight : ∀ m ∈ members, m.height ≤ n + 1) {e : List (Entry Ty)} (he : .shape e ∈ result) :
    ∀ x ∈ e, x.value.height ≤ n := by
  intro x hx
  have hle := hheight _ (shape_mem_of_added hresult he)
  have hlt := Ty.height_lt_of_mem_children (Ty.mem_children_shape hx)
  omega

theorem meets_reduce (hcombine : Combines replies n combine) (hready : IsReady replies members)
    (hne : members ≠ []) (hheight : ∀ m ∈ members, m.height ≤ n + 1) :
    (reduce limit combine flavor members).Meets (.building replies) fun t =>
      IsResult replies (shapesAmong members ≤ limit) t ∧
        (t ≠ .error ∧ t ≠ .mixed ∧ t ≠ .never) ∧ HasFlavor flavor t := by
  rw [reduce_eq]
  refine (meets_prune_ready hready hne).bind fun pruned hpruned => ?_
  have hshapes : ∀ e, Ty.shape e ∈ pruned -> Ty.shape e ∈ members := fun e he =>
    shape_mem_of_added hpruned.added he
  have hvalues : ∀ e, Ty.shape e ∈ pruned -> ∀ x ∈ e, x.value.height ≤ n :=
    fun e he => entries_height_le hpruned.added hheight he
  refine (meets_mergeShapes hcombine hpruned.ready hpruned.ne_nil hpruned.irredundant
    hvalues).bind fun result hresult => ?_
  rcases hresult with ⟨hready', hne', hirredundant, hmem, hkeys⟩
  -- no literal and no interval is new after pruning
  have hold : ∀ u ∈ result, (∀ e, u ≠ .shape e) -> u ∈ pruned := by
    intro u hu hshape
    rcases hmem u hu with hu' | ⟨e, rfl⟩
    · exact hu'
    · exact absurd rfl (hshape e)
  refine meets_close hne' hready' ?_ ?_ hirredundant fun hfew => ?_
  · intro hboth
    exact hpruned.bools ⟨hold _ hboth.1 (by simp), hold _ hboth.2 (by simp)⟩
  · intro r s hr hs
    exact hpruned.ranges r s (hold _ hr (by simp)) (hold _ hs (by simp))
  · exact hkeys (Nat.le_trans (shapesAmong_le hpruned.ready.nodup hshapes) hfew)

/-!
# All members
-/

/-- The members that are left when nothing settles the result. -/
theorem isReady_left (hnodup : members.Nodup) (hformed : ∀ m ∈ members, Formed replies m)
    (hflat : ∀ m ∈ members, m.unionMembers? = none) (herror : .error ∉ members)
    (hmixed : .mixed ∉ members.filter (· != .never)) :
    IsReady replies (members.filter (· != .never)) := by
  have hmem : ∀ m ∈ members.filter (· != .never), m ∈ members ∧ m ≠ .never := by
    intro m hm
    rcases List.mem_filter.mp hm with ⟨hm, hnever⟩
    exact ⟨hm, by simpa using hnever⟩
  refine ⟨hnodup.filter _, fun m hm => hformed m (hmem m hm).1, ?_⟩
  intro m hm
  refine ⟨?_, ?_, (hmem m hm).2, hflat m (hmem m hm).1⟩
  · intro hsame
    subst hsame
    exact herror (hmem _ hm).1
  · intro hsame
    subst hsame
    exact hmixed hm

/-- The members of which a union is made if none of them settles it: the different ones, in the
order of their codes. -/
structure AreLeft (members kept : List Ty) : Prop where
  error : .error ∉ members
  mixed : .mixed ∉ members
  mem_iff : ∀ m, m ∈ kept ↔ m ∈ members ∧ m ≠ .never
  sublist : kept.Sublist (Ty.distinct members)

theorem AreLeft.isReady {kept : List Ty} (hkept : AreLeft members kept)
    (hformed : ∀ m ∈ members, Formed replies m) (hflat : ∀ m ∈ members, m.unionMembers? = none) :
    IsReady replies kept where
  nodup := (Ty.nodup_distinct members).sublist hkept.sublist
  formed := fun m hm => hformed m ((hkept.mem_iff m).mp hm).1
  isMember := by
    intro m hm
    rcases (hkept.mem_iff m).mp hm with ⟨hmem, hnever⟩
    refine ⟨?_, ?_, hnever, hflat m hmem⟩
    · rintro rfl
      exact hkept.error hmem
    · rintro rfl
      exact hkept.mixed hmem

/-- What becomes of the members of a union, as long as no two of them have been compared. -/
inductive Normalizes (limit : Nat) (combine : List Ty -> Inquiry Ty) (flavor : Flavor)
    (members : List Ty) : Inquiry Ty -> Prop where
  | error : .error ∈ members -> Normalizes limit combine flavor members (pure .error)
  | mixed : .error ∉ members -> .mixed ∈ members ->
      Normalizes limit combine flavor members (pure .mixed)
  | never : (∀ m ∈ members, m = .never) -> Normalizes limit combine flavor members (pure .never)
  | single {t : Ty} : AreLeft members [t] -> Normalizes limit combine flavor members (pure t)
  | several {kept : List Ty} : AreLeft members kept -> kept ≠ [] ->
      Normalizes limit combine flavor members (reduce limit combine flavor kept)

theorem normalizes_normalize (limit : Nat) (combine : List Ty -> Inquiry Ty) (flavor : Flavor)
    (members : List Ty) :
    Normalizes limit combine flavor members (normalize limit combine flavor members) := by
  have hmem : ∀ m, m ∈ (Ty.distinct members).filter (· != .never) ↔ m ∈ members ∧ m ≠ .never := by
    intro m
    rw [List.mem_filter, Ty.mem_distinct, bne_iff_ne]
  unfold normalize
  dsimp only
  split
  · rename_i herror
    exact .error (Ty.mem_distinct.mp (List.contains_iff_mem.mp herror))
  · rename_i herror
    rw [List.contains_iff_mem, Ty.mem_distinct] at herror
    split
    · rename_i hmixed
      exact .mixed herror ((hmem _).mp (List.contains_iff_mem.mp hmixed)).1
    · rename_i hmixed
      rw [List.contains_iff_mem, hmem] at hmixed
      have hleft : AreLeft members ((Ty.distinct members).filter (· != .never)) :=
        ⟨herror, fun hmem => hmixed ⟨hmem, by simp⟩, hmem, List.filter_sublist⟩
      split
      · rename_i hnil
        refine .never fun m hm => ?_
        by_contra hnever
        exact absurd ((hmem m).mpr ⟨hm, hnever⟩) (by simp [hnil])
      · rename_i t hsingle
        exact .single (hsingle ▸ hleft)
      · rename_i hnil hmany
        exact .several hleft hnil

theorem meets_normalize (hcombine : Combines replies n combine)
    (hformed : ∀ m ∈ members, Formed replies m) (hflat : ∀ m ∈ members, m.unionMembers? = none)
    (hheight : ∀ m ∈ members, m.height ≤ n + 1) :
    (normalize limit combine flavor members).Meets (.building replies) fun t =>
      IsResult replies (shapesAmong (Ty.distinct members) ≤ limit) t ∧
        ((∀ m ∈ members, m ≠ .error) -> t ≠ .error) ∧ HasFlavor flavor t := by
  have hplain : ∀ {few : Prop} {u : Ty}, Formed replies u -> u.unionMembers? = none ->
      IsResult replies few u := by
    intro few u hu hunion
    constructor
    · exact hu
    · intro _ flavor members heq
      subst heq
      cases hunion
  have hnormalizes := normalizes_normalize limit combine flavor members
  generalize normalize limit combine flavor members = q at hnormalizes ⊢
  cases hnormalizes with
  | error herror =>
      refine ⟨hplain (.leaf trivial rfl) rfl, ?_, hasFlavor_of_flat rfl⟩
      exact fun hnone => absurd rfl (hnone _ herror)
  | mixed herror hmixed =>
      exact ⟨hplain (Ty.formed_keyword _) rfl, fun _ => by simp, hasFlavor_of_flat rfl⟩
  | never hall =>
      exact ⟨hplain (Ty.formed_keyword _) rfl, fun _ => by simp, hasFlavor_of_flat rfl⟩
  | @single t hleft =>
      have hready := hleft.isReady hformed hflat
      have hmember := hready.isMember t List.mem_cons_self
      exact ⟨hplain (hready.formed t List.mem_cons_self) hmember.2.2.2, fun _ => hmember.1,
        hasFlavor_of_flat hmember.2.2.2⟩
  | @several kept hleft hne =>
      have hready := hleft.isReady hformed hflat
      have hheight' : ∀ m ∈ kept, m.height ≤ n + 1 :=
        fun m hm => hheight m ((hleft.mem_iff m).mp hm).1
      refine (meets_reduce hcombine hready hne hheight').imp fun t ht => ?_
      refine ⟨⟨ht.1.formed, fun hfew => ht.1.keys ?_⟩, fun _ => ht.2.1.1, ht.2.2⟩
      exact Nat.le_trans (shapesAmong_le hready.nodup fun e he => hleft.sublist.subset he) hfew

/-- The number of shapes that the union of some types has to do with. -/
def shapesSeen (members : List Ty) : Nat :=
  shapesAmong (Ty.distinct (members.flatMap membersOf))

theorem mem_membersOf (ht : Formed replies t) (hheight : t.height ≤ n) {m : Ty}
    (hm : m ∈ membersOf t) :
    Formed replies m ∧ m.unionMembers? = none ∧ m.height ≤ n ∧ (t ≠ .error -> m ≠ .error) := by
  cases t with
  | union flavor members =>
      rcases ht.unionMember hm with ⟨hformed, hmember⟩
      have hlt := Ty.height_lt_of_mem_children (t := .union flavor members) hm
      exact ⟨hformed, hmember.2.2.2, by omega, fun _ => hmember.1⟩
  | _ =>
      rcases List.mem_singleton.mp hm with rfl
      exact ⟨ht, rfl, hheight, id⟩

/-- So it is with all that some types bring into their union. -/
theorem exists_of_mem_flatMap {ts : List Ty} (hformed : ∀ t ∈ ts, Formed replies t)
    (hheight : ∀ t ∈ ts, t.height ≤ n) {m : Ty} (hm : m ∈ ts.flatMap membersOf) :
    Formed replies m ∧ m.unionMembers? = none ∧ m.height ≤ n ∧
      ∃ t ∈ ts, m ∈ membersOf t ∧ (t ≠ .error -> m ≠ .error) := by
  rcases List.mem_flatMap.mp hm with ⟨t, ht, hmt⟩
  rcases mem_membersOf (hformed t ht) (hheight t ht) hmt with ⟨hformed', hflat, hheight', herror⟩
  exact ⟨hformed', hflat, hheight', t, ht, hmt, herror⟩

/-- How the union of some types comes about, down to the values of the shapes that it merges. -/
inductive Unites (limit : Nat) : Nat -> List Ty -> Inquiry Ty -> Prop where
  | empty (n : Nat) : Unites limit n [] (pure .error)
  | single (n : Nat) (t : Ty) : Unites limit n [t] (pure t)
  | several {n : Nat} {ts : List Ty} : 2 ≤ ts.length ->
      (∀ us, (∀ u ∈ us, u.height ≤ n) -> Unites limit n us (upTo limit n us)) ->
      Unites limit (n + 1) ts
        (normalize limit (upTo limit n) (flavorOf ts) (ts.flatMap membersOf))

theorem unites_upTo (limit : Nat) {ts : List Ty} (hheight : ∀ t ∈ ts, t.height ≤ n) :
    Unites limit n ts (upTo limit n ts) := by
  induction n generalizing ts with
  | zero =>
      match ts with
      | [] => exact .empty 0
      | [t] => exact .single 0 t
      | t :: _ :: _ =>
          have hpos := t.height_pos
          have hle := hheight t List.mem_cons_self
          omega
  | succ n ih =>
      match ts with
      | [] => exact .empty (n + 1)
      | [t] => exact .single (n + 1) t
      | t :: u :: rest => exact .several (by simp) fun us hus => ih hus

/-- The union of formed types is formed.  It is not an error unless one of them
is, and if few enough shapes were seen, it has one shape for each set of keys.  Its
flavor is that of several types together. -/
theorem meets_upTo {ts : List Ty} (hformed : ∀ t ∈ ts, Formed replies t)
    (hheight : ∀ t ∈ ts, t.height ≤ n) :
    (upTo limit n ts).Meets (.building replies) fun t =>
      IsResult replies (2 ≤ ts.length ∧ shapesSeen ts ≤ limit) t ∧
        (ts ≠ [] -> (∀ m ∈ ts, m ≠ .error) -> t ≠ .error) ∧
        (2 ≤ ts.length -> HasFlavor (flavorOf ts) t) := by
  have hunites := unites_upTo limit hheight
  generalize upTo limit n ts = q at hunites ⊢
  induction hunites with
  | empty n => exact ⟨⟨.leaf trivial rfl, by simp⟩, fun h => absurd rfl h, by simp⟩
  | single n t =>
      exact ⟨⟨hformed t List.mem_cons_self, by simp⟩, fun _ h => h t List.mem_cons_self, by simp⟩
  | @several n ts hmany _ ih =>
      have hcombine : Combines replies n (upTo limit n) := by
        intro us hne hus
        have hlow : ∀ u ∈ us, u.height ≤ n := fun u hu => (hus u hu).2.2
        refine (ih us hlow (fun u hu => (hus u hu).1) hlow).imp fun v hv => ?_
        exact ⟨hv.1.formed, hv.2.1 hne fun u hu => (hus u hu).2.1⟩
      have hmem := fun m (hm : m ∈ ts.flatMap membersOf) =>
        exists_of_mem_flatMap hformed hheight hm
      refine (meets_normalize hcombine (fun m hm => (hmem m hm).1) (fun m hm => (hmem m hm).2.1)
        fun m hm => (hmem m hm).2.2.1).imp fun v hv => ?_
      refine ⟨⟨hv.1.formed, fun hfew => hv.1.keys hfew.2⟩, fun _ hall => ?_, fun _ => hv.2.2⟩
      apply hv.2.1
      intro m hm
      rcases (hmem m hm).2.2.2 with ⟨t, ht, -, herror⟩
      exact herror (hall t ht)

theorem meets_of {options : Options} {ts : List Ty} (hformed : ∀ t ∈ ts, Formed replies t) :
    (of options ts).Meets (.building replies) (Formed replies) :=
  (meets_upTo hformed fun _ ht => Ty.height_le_heights ht).imp fun _ ht => ht.1.formed

theorem meets_markBenevolent (ht : Formed replies t) :
    (Build.markBenevolent t).Meets (.building replies) (Formed replies) := by
  unfold Build.markBenevolent
  split
  · have hmarked : ∀ {members}, Formed replies (.union .plain members) ->
        Formed replies (.union .benevolent members) :=
      fun h => .intro h.here fun c hc => h.inside hc
    exact ⟨hmarked ht, hmarked ht⟩
  · exact ht

theorem meets_benevolentOf {options : Options} {ts : List Ty}
    (hformed : ∀ t ∈ ts, Formed replies t) :
    (benevolentOf options ts).Meets (.building replies) (Formed replies) :=
  (meets_of hformed).bind fun _ ht => meets_markBenevolent ht

end Union
end GradualTypes
