import GradualTypes.Proofs.Containments
import GradualTypes.Proofs.Hulls
import GradualTypes.Proofs.UnionForm

/-!
# Unions are above their members

Each pass over the members of a union covers what it was given: for every member
there is one in the result that contains it.  A boolean literal is covered by `bool`,
an interval by a joined one, an absorbed member by the one that has absorbed it, and
a shape by the one it was merged into.  So the union contains every given type, in
every sense of containment that obeys the rules and that the answers `yes` respect.

The values of a merged shape are unions of lower types, so the induction is on the
height of the given types.
-/

namespace GradualTypes
namespace Union

open Inquiry
open GradualTypes.Subtype (Covers IsContainment)
open GradualTypes.Ty (Formed)

variable {h : Hierarchy} {R : Ty -> Ty -> Prop} {replies : Ty -> Ty -> Tristate -> Prop}
  {members : List Ty} {t u : Ty} {limit n : Nat} {flavor : Flavor}
  {combine : List Ty -> Inquiry Ty}

/-!
# What the passes over scalars leave
-/

/-- Either nothing changes, or both boolean literals are there and `bool` takes their
place. -/
theorem meets_mergeBools_mem (members : List Ty) :
    (mergeBools members).Meets (.free replies) fun result =>
      result = members ∨
        (Ty.literal (.bool true) ∈ members ∧ Ty.literal (.bool false) ∈ members ∧
          ∀ u, u ∈ result ↔ (u ∈ members ∧ ∀ b, u ≠ .literal (.bool b)) ∨ u = .bool) := by
  refine ⟨trivial, trivial, ?_⟩
  show Meets _ _ (if members.contains (.literal (.bool true)) &&
    members.contains (.literal (.bool false)) then _ else pure members)
  split
  · rename_i hboth
    rw [Bool.and_eq_true, List.contains_iff_mem, List.contains_iff_mem] at hboth
    refine Or.inr ⟨hboth.1, hboth.2, fun u => ?_⟩
    rw [mem_appendNew, List.mem_filter]
    simp [and_comm]
  · exact Or.inl rfl

theorem meets_range_toTy {r : IntRange} (hr : r.IsWide) :
    (Build.range r).Meets (.free replies) fun t => t = r.toTy := by
  apply (Build.meets_range_cases hr.nonempty).free.imp
  intro t ht
  rcases ht with ⟨rfl, hopen⟩ | ⟨n, -, hsingle⟩ | ⟨rfl, hne⟩
  · exact (if_pos hopen).symm
  · exact absurd hsingle (hr.notSingle n)
  · exact (IntRange.toTy_eq_range hne).symm

theorem meets_appendRanges_eq {rs : List IntRange} (hrs : ∀ r ∈ rs, r.IsWide) :
    (appendRanges members rs).Meets (.free replies)
      (· = (rs.map IntRange.toTy).foldl appendNew members) := by
  induction rs generalizing members with
  | nil => rfl
  | cons r rest ih =>
      rw [List.forall_mem_cons] at hrs
      refine (meets_range_toTy hrs.1).bind ?_
      rintro _ rfl
      exact ih hrs.2

theorem mem_foldl_appendNew {added : List Ty} :
    t ∈ added.foldl appendNew members ↔ t ∈ members ∨ t ∈ added := by
  induction added generalizing members with
  | nil => simp
  | cons u rest ih => rw [List.foldl_cons, ih, mem_appendNew, List.mem_cons, or_assoc]

theorem meets_appendRanges_mem {rs : List IntRange} (hrs : ∀ r ∈ rs, r.IsWide) :
    (appendRanges members rs).Meets (.free replies) fun result =>
      ∀ u, u ∈ result ↔ u ∈ members ∨ ∃ r ∈ rs, u = r.toTy := by
  refine (meets_appendRanges_eq hrs).imp ?_
  rintro _ rfl u
  rw [mem_foldl_appendNew, List.mem_map]
  simp only [eq_comm]

theorem IsReady.isWide (hready : IsReady replies members) {r : IntRange}
    (hr : r ∈ members.filterMap Ty.range?) : r.lo ≠ r.hi ∧ r.IsWide := by
  rcases (hready.formed _ (mem_ranges.mp hr)).here with ⟨hnonempty, hne⟩
  exact ⟨hne, IntRange.isWide_of_ne hnonempty hne⟩

/-- The intervals among the members, those that touch made one. -/
def joinedRanges (members : List Ty) : List IntRange :=
  IntRange.joinTouching (sortByStart (members.filterMap Ty.range?))

theorem IsReady.isWide_joined (hready : IsReady replies members) :
    ∀ r ∈ joinedRanges members, r.IsWide :=
  IntRange.forall_joinTouching (fun _ _ hr hs _ => hr.hull hs)
    fun _ hr => (hready.isWide hr).2

/-- A single interval is joined with no other one. -/
theorem mem_joinedRanges_of_few (hready : IsReady replies members)
    (hfew : (members.filterMap Ty.range?).length < 2) :
    (∃ r ∈ joinedRanges members, u = r.toTy) ↔ u ∈ members ∧ u.range? ≠ none := by
  have hmem : ∀ r, r ∈ joinedRanges members ↔ r ∈ members.filterMap Ty.range? := by
    intro r
    unfold joinedRanges
    match members.filterMap Ty.range?, hfew with
    | [], _ => rfl
    | [s], _ => rfl
  constructor
  · intro hu
    rcases hu with ⟨r, hr, rfl⟩
    rw [hmem] at hr
    rw [IntRange.toTy_eq_range (hready.isWide hr).1]
    exact ⟨mem_ranges.mp hr, by simp [Ty.range?]⟩
  · intro hu
    rcases hu with ⟨hu, hrange⟩
    cases u with
    | range r =>
        have hr := mem_ranges.mpr hu
        exact ⟨r, (hmem r).mpr hr, (IntRange.toTy_eq_range (hready.isWide hr).1).symm⟩
    | _ => exact absurd rfl hrange

/-- The intervals among the members are replaced by the joined ones. -/
theorem meets_mergeRanges_mem (hready : IsReady replies members) :
    (mergeRanges members).Meets (.free replies) fun result =>
      ∀ u, u ∈ result ↔
        (u ∈ members ∧ u.range? = none) ∨ ∃ r ∈ joinedRanges members, u = r.toTy := by
  unfold mergeRanges
  dsimp only
  split
  · rename_i hfew
    intro u
    rw [mem_joinedRanges_of_few hready hfew, ← and_or_left]
    simp [em]
  · apply (meets_appendRanges_mem hready.isWide_joined).imp
    intro result hmem u
    rw [hmem u, List.mem_filter, Option.isNone_iff_eq_none]

/-!
# Covering by the passes over scalars
-/

theorem meets_mergeBools_covers (hR : IsContainment h R) (members : List Ty) :
    (mergeBools members).Meets (.free replies) (Covers R members) := by
  apply (meets_mergeBools_mem members).imp
  intro result hresult
  rcases hresult with rfl | ⟨-, -, hmem⟩
  · exact hR.covers_of_subset fun m hm => hm
  · intro m hm
    by_cases hbool : ∃ b, m = .literal (.bool b)
    · rcases hbool with ⟨b, rfl⟩
      exact ⟨.bool, (hmem _).mpr (Or.inr rfl), hR.rule (.fits rfl rfl (.literal_base (.bool b)))⟩
    · rw [not_exists] at hbool
      exact ⟨m, (hmem m).mpr (Or.inl ⟨hm, hbool⟩), hR.refl m⟩

theorem meets_mergeRanges_covers (hR : IsContainment h R) (hready : IsReady replies members) :
    (mergeRanges members).Meets (.free replies) (Covers R members) := by
  apply (meets_mergeRanges_mem hready).imp
  intro result hmem m hm
  cases hrange : m.range? with
  | none => exact ⟨m, (hmem m).mpr (Or.inl ⟨hm, hrange⟩), hR.refl m⟩
  | some r =>
      cases m <;> simp [Ty.range?] at hrange
      subst hrange
      rcases IntRange.exists_within_joinTouching (mem_ranges.mpr hm) with ⟨s, hs, hwithin⟩
      refine ⟨s.toTy, (hmem _).mpr (Or.inr ⟨s, hs, rfl⟩), ?_⟩
      unfold IntRange.toTy
      split
      · exact hR.rule (.fits rfl rfl (.range_int _))
      · exact hR.rule (.fits rfl rfl (.range_range hwithin))

/-!
# Covering by absorption
-/

theorem meets_isAbsorbed_covers (hyes : ∀ s t, replies s t .yes -> R s t) (others : List Ty) :
    (isAbsorbed t others).Meets (.free replies) fun absorbed =>
      absorbed = true -> ∃ u ∈ others, R t u := by
  induction others with
  | nil => exact fun htrue => by cases htrue
  | cons u rest ih =>
      have hrest : (isAbsorbed t rest).Meets (.free replies) fun absorbed =>
          absorbed = true -> ∃ v ∈ u :: rest, R t v := by
        apply ih.imp
        intro absorbed hall htrue
        rcases hall htrue with ⟨v, hv, htv⟩
        exact ⟨v, List.mem_cons_of_mem _ hv, htv⟩
      unfold isAbsorbed
      split
      · exact hrest
      · constructor
        · trivial
        · intro r hr
          show Meets _ _ (if r = .yes then pure true else isAbsorbed t rest)
          split
          · rename_i heq
            exact fun _ => ⟨u, List.mem_cons_self, hyes t u (heq ▸ hr)⟩
          · exact hrest

/-- A dropped member is contained in one that is still there, and that one is covered
in the end. -/
theorem meets_absorbFrom_covers (hR : IsContainment h R)
    (hyes : ∀ s t, replies s t .yes -> R s t) {kept rest : List Ty}
    (hformed : ∀ m ∈ kept ++ rest, Formed replies m) :
    (absorbFrom kept rest).Meets (.free replies) (Covers R (kept ++ rest)) := by
  induction rest generalizing kept with
  | nil =>
      rw [List.append_nil]
      exact hR.covers_of_subset fun m hm => hm
  | cons t rest ih =>
      apply (meets_isAbsorbed_covers hyes (kept ++ rest)).bind
      intro absorbed habsorbed
      have hdrop : (kept ++ rest).Sublist (kept ++ t :: rest) :=
        (List.Sublist.refl kept).append (List.sublist_cons_self t rest)
      split
      · rename_i htrue
        apply (ih fun m hm => hformed m (hdrop.subset hm)).imp
        intro result hcovers m hm
        by_cases hsame : m = t
        · subst hsame
          rcases habsorbed htrue with ⟨u, hu, hmu⟩
          rcases hcovers u hu with ⟨v, hv, huv⟩
          exact ⟨v, hv, hR.trans (hformed m hm).hasDistinctKeys hmu huv⟩
        · have hm' : m ∈ kept ++ rest := by simpa [hsame] using hm
          exact hcovers m hm'
      · have happend : kept ++ [t] ++ rest = kept ++ t :: rest := by simp
        rw [← happend] at hformed ⊢
        exact ih hformed

theorem meets_absorb_covers (hR : IsContainment h R) (hyes : ∀ s t, replies s t .yes -> R s t)
    (hformed : ∀ m ∈ members, Formed replies m) :
    (absorb members).Meets (.free replies) (Covers R members) := by
  unfold absorb
  split
  · exact hR.covers_of_subset fun m hm => hm
  · constructor
    · trivial
    · have hstart : ∀ m ∈ [] ++ members, Formed replies m := hformed
      exact meets_absorbFrom_covers hR hyes hstart

/-!
# Covering by merged shapes
-/

/-- What merging needs of the way in which the values of a key are combined: the
result contains all of them. -/
def CombinesAbove (replies : Ty -> Ty -> Tristate -> Prop) (R : Ty -> Ty -> Prop) (n : Nat)
    (combine : List Ty -> Inquiry Ty) : Prop :=
  ∀ ts, ts ≠ [] -> (∀ t ∈ ts, (Formed replies t ∧ t ≠ .error ∧ t.height ≤ n) ∧ Ty.IsComplete t) ->
    (combine ts).Meets (.free replies) fun u => Ty.IsComplete u ∧ ∀ t ∈ ts, R t u

/-- An entry covers those of its key in some shapes. -/
def CoversEntries (R : Ty -> Ty -> Prop) (shapes : List (List (Entry Ty))) (e : Entry Ty) : Prop :=
  ∀ s ∈ shapes, ∀ d, Shape.entry? s e.key = some d ->
    R d.value e.value ∧ (d.optional = true -> e.optional = true)

theorem meets_mergeEntry_covers (hcombine : CombinesAbove replies R n combine)
    {shapes : List (List (Entry Ty))} (hshapes : ∀ s ∈ shapes, IsMergeable replies n s)
    (hcomplete : ∀ s ∈ shapes, Ty.IsComplete (.shape s)) {key : Key}
    (hkey : ∃ s ∈ shapes, key ∈ Shape.keys s) :
    (mergeEntry combine shapes key).Meets (.free replies) fun e =>
      e.key = key ∧ Ty.IsComplete e.value ∧ CoversEntries R shapes e := by
  have hfound : ∀ s ∈ shapes, ∀ e, Shape.entry? s key = some e ->
      e ∈ shapes.filterMap (Shape.entry? · key) :=
    fun s hs e he => List.mem_filterMap.mpr ⟨s, hs, he⟩
  refine (hcombine _ ?_ ?_).bind fun u hu => ?_
  · rcases hkey with ⟨s, hs, hkey'⟩
    rcases List.mem_map.mp hkey' with ⟨d, hd, rfl⟩
    rcases Shape.entry?_isSome hd with ⟨e, he⟩
    exact List.ne_nil_of_mem (List.mem_map_of_mem (hfound s hs e he))
  · intro t ht
    rcases List.mem_map.mp ht with ⟨e, he, rfl⟩
    rcases List.mem_filterMap.mp he with ⟨s, hs, hentry⟩
    have hes := (Shape.mem_of_entry? hentry).1
    rcases hshapes s hs with ⟨hformed, hheight⟩
    exact ⟨⟨hformed.value hes, hformed.here.2 e hes, hheight e hes⟩, (hcomplete s hs).value hes⟩
  · refine ⟨rfl, hu.1, fun s hs d hd => ⟨hu.2 _ (List.mem_map_of_mem (hfound s hs d hd)), ?_⟩⟩
    intro hoptional
    exact List.any_eq_true.mpr ⟨d, hfound s hs d hd, hoptional⟩

/-- A shape whose entries cover those of another shape with the same keys contains
it. -/
theorem shape_below_merged (hR : IsContainment h R) {entries s : List (Entry Ty)}
    (hkeys : (Shape.keys entries).Perm (Shape.keys s))
    (hcovers : ∀ e ∈ entries, ∀ d, Shape.entry? s e.key = some d ->
      R d.value e.value ∧ (d.optional = true -> e.optional = true)) :
    R (.shape s) (.shape entries) := by
  have hentry : ∀ {es fs : List (Entry Ty)}, (Shape.keys es).Perm (Shape.keys fs) -> ∀ e ∈ es,
      ∃ d, Shape.entry? fs e.key = some d := by
    intro es fs hperm e he
    rcases List.mem_map.mp (hperm.subset (List.mem_map_of_mem he)) with ⟨d, hd, hkey⟩
    exact hkey ▸ Shape.entry?_isSome hd
  apply hR.rule (.fits rfl rfl (.shape_shape ?_ ?_ ?_))
  · exact hentry hkeys.symm
  · intro e he hnone
    rcases hentry hkeys e he with ⟨d, hd⟩
    rw [hnone] at hd
    cases hd
  · intro e he d hd
    exact hcovers e he d hd

/-- A merged shape contains the shapes of its group. -/
theorem meets_mergeGroup_covers (hR : IsContainment h R)
    (hcombine : CombinesAbove replies R n combine)
    {first : List (Entry Ty)} {rest : List (List (Entry Ty))}
    (hshapes : ∀ s ∈ first :: rest, IsMergeable replies n s)
    (hcomplete : ∀ s ∈ first :: rest, Ty.IsComplete (.shape s))
    (hkeys : ∀ s ∈ first :: rest, (Shape.keys first).Perm (Shape.keys s)) :
    (mergeGroup combine (first :: rest)).Meets (.free replies) fun t =>
      ∀ entries, t = .shape entries ->
        Ty.IsComplete t ∧ ∀ s ∈ first :: rest, R (.shape s) t := by
  have hentries : ∀ key ∈ Shape.keys first,
      (mergeEntry combine (first :: rest) key).Meets (.free replies) fun e =>
        e.key = key ∧ Ty.IsComplete e.value ∧ CoversEntries R (first :: rest) e :=
    fun key hkey => meets_mergeEntry_covers hcombine hshapes hcomplete
      ⟨first, List.mem_cons_self, hkey⟩
  apply (meets_mapM hentries).bind
  intro entries hall
  rcases keys_eq_of_forall₂ hall with ⟨hsame, hvalues⟩
  have hnodup : (Shape.keys entries).Nodup := by
    rw [hsame]
    exact (hshapes first List.mem_cons_self).1.here.1
  unfold Build.shape
  split
  · rintro _ ⟨⟩
  · rw [Shape.ofList_eq_self hnodup]
    refine ⟨trivial, ?_⟩
    rintro _ ⟨⟩
    constructor
    · exact Ty.isComplete_shape fun e he => (hvalues e he).1
    · intro s hs
      exact shape_below_merged hR (hsame ▸ hkeys s hs) fun e he => (hvalues e he).2 s hs

/-- Each removed shape is contained in an added one. -/
theorem meets_mergeGroups_covers (hR : IsContainment h R) (hcombine : Combines replies n combine)
    (habove : CombinesAbove replies R n combine)
    {groups : List (List (List (Entry Ty)))} (hgroups : IsGrouping groups)
    (hshapes : ∀ group ∈ groups, ∀ s ∈ group, IsMergeable replies n s)
    (hcomplete : ∀ group ∈ groups, ∀ s ∈ group, Ty.IsComplete (.shape s)) {budget : Nat} :
    (mergeGroups combine budget groups).Meets (.free replies) fun result =>
      (∀ t ∈ result.2, Ty.IsComplete t) ∧ Covers R result.1 result.2 := by
  induction groups generalizing budget with
  | nil => exact ⟨by simp, fun m hm => by cases hm⟩
  | cons group rest ih =>
      rw [List.forall_mem_cons] at hshapes hcomplete
      unfold mergeGroups
      split
      · exact ih hgroups.tail hshapes.2 hcomplete.2
      · dsimp only
        split
        · exact ⟨by simp, fun m hm => by cases hm⟩
        · rename_i hlong
          have hsubset : ∀ s ∈ group.take budget, s ∈ group := fun s hs => List.mem_of_mem_take hs
          cases hshare : group.take budget with
          | nil => simp [hshare] at hlong
          | cons first others =>
              rw [hshare] at hsubset
              have hmergeable : ∀ s ∈ first :: others, IsMergeable replies n s :=
                fun s hs => hshapes.1 s (hsubset s hs)
              have hsame : ∀ s ∈ first :: others, (Shape.keys first).Perm (Shape.keys s) :=
                fun s hs => hgroups.same group List.mem_cons_self first
                  (hsubset first List.mem_cons_self) s (hsubset s hs)
              apply ((meets_mergeGroup hcombine hmergeable).and_free
                (meets_mergeGroup_covers hR habove hmergeable
                  (fun s hs => hcomplete.1 s (hsubset s hs)) hsame)).bind
              intro merged hmerged
              rcases hmerged with ⟨⟨entries, rfl, -, -⟩, hmerged⟩
              rcases hmerged entries rfl with ⟨hmergedComplete, habove'⟩
              apply (ih hgroups.tail hshapes.2 hcomplete.2).bind
              intro result hresult
              rcases hresult with ⟨hall, hcovers⟩
              constructor
              · exact List.forall_mem_cons.mpr ⟨hmergedComplete, hall⟩
              · intro m hm
                rcases List.mem_append.mp hm with hm | hm
                · rcases List.mem_map.mp hm with ⟨s, hs, rfl⟩
                  exact ⟨_, List.mem_cons_self, habove' s hs⟩
                · rcases hcovers m hm with ⟨u, hu, hmu⟩
                  exact ⟨u, List.mem_cons_of_mem _ hu, hmu⟩

/-!
# The members after merging
-/

/-- Merging shapes and absorbing what they contain loses nothing. -/
theorem meets_mergeShapes_covers (hR : IsContainment h R)
    (hyes : ∀ s t, replies s t .yes -> R s t) (hcombine : Combines replies n combine)
    (habove : CombinesAbove replies R n combine) (hready : IsReady replies members)
    (hcomplete : ∀ m ∈ members, Ty.IsComplete m)
    (hheight : ∀ e, Ty.shape e ∈ members -> ∀ x ∈ e, x.value.height ≤ n) :
    (mergeShapes limit combine members).Meets (.free replies) fun result =>
      (∀ m ∈ result, Ty.IsComplete m) ∧ Covers R members result := by
  rcases shapeGroups_spec hready.formed with ⟨hgrouping, -, hmem⟩
  have hgroups : ∀ group ∈ shapeGroups members, ∀ s ∈ group, Ty.shape s ∈ members :=
    fun group hgroup s hs => (hmem s).mp ⟨group, hgroup, hs⟩
  have hshapes : ∀ group ∈ shapeGroups members, ∀ s ∈ group, IsMergeable replies n s :=
    fun group hgroup s hs => ⟨hready.formed _ (hgroups group hgroup s hs),
      hheight s (hgroups group hgroup s hs)⟩
  apply ((meets_mergeGroups hcombine hgrouping hshapes).and_free
    (meets_mergeGroups_covers hR hcombine habove hgrouping hshapes
      fun group hgroup s hs => hcomplete _ (hgroups group hgroup s hs))).bind
  intro merged hmerged
  rcases merged with ⟨removed, added⟩
  rcases hmerged with ⟨⟨hadded, -, -⟩, haddedComplete, hcovers⟩
  dsimp only
  split
  · exact ⟨hcomplete, hR.covers_of_subset fun m hm => hm⟩
  · have hshape : ∀ t ∈ added, Formed replies t ∧ IsMember t := by
      intro t ht
      rcases hadded t ht with ⟨hformed, e, rfl, -⟩
      exact ⟨hformed, by simp [IsMember, Ty.unionMembers?]⟩
    obtain ⟨hready', hmem'⟩ := foldl_appendNew
      (hready.sublist (List.filter_sublist (p := fun t => !removed.contains t))) hshape
    have hfirst : Covers R members
        (added.foldl appendNew (members.filter fun t => !removed.contains t)) := by
      intro m hm
      by_cases hremoved : m ∈ removed
      · rcases hcovers m hremoved with ⟨u, hu, hmu⟩
        exact ⟨u, (hmem' u).mpr (Or.inr hu), hmu⟩
      · exact ⟨m, (hmem' m).mpr (Or.inl (List.mem_filter.mpr ⟨hm, by simpa using hremoved⟩)),
          hR.refl m⟩
    apply ((meets_absorb _).and_free (meets_absorb_covers hR hyes hready'.formed)).imp
    intro result hresult
    rcases hresult with ⟨hsublist, hsecond⟩
    constructor
    · intro m hm
      rcases (hmem' m).mp (hsublist.sublist.subset hm) with hm' | hm'
      · exact hcomplete m (List.mem_filter.mp hm').1
      · exact haddedComplete m hm'
    · exact hfirst.trans hR (fun m hm => (hready.formed m hm).hasDistinctKeys) hsecond

/-!
# The union is above its members
-/

theorem IsAdded.isComplete (ht : IsAdded t) : Ty.IsComplete t := by
  rcases ht with rfl | rfl | ⟨n, rfl⟩ | ⟨r, rfl⟩
  · exact Ty.isComplete_keyword _
  · exact Ty.isComplete_keyword _
  · exact Ty.isComplete_literal _
  · exact Ty.isComplete_range _

theorem isOrdinary_of_isMember (ht : Formed replies t) (hcomplete : Ty.IsComplete t)
    (hmember : IsMember t) : t.isOrdinary = true :=
  ht.isOrdinary hcomplete hmember.1 hmember.2.1 hmember.2.2.1

/-- A closed union is above what its members cover. -/
theorem meets_close_above (hR : IsContainment h R) {sources : List Ty}
    (hsources : IsReady replies sources) (hcompleteSources : ∀ m ∈ sources, Ty.IsComplete m)
    (hready : IsReady replies members) (hcomplete : ∀ m ∈ members, Ty.IsComplete m)
    (hcovers : Covers R sources members) :
    (close flavor members).Meets (.free replies) fun t =>
      Ty.IsComplete t ∧ t ≠ .never ∧ ∀ m ∈ sources, R m t := by
  unfold close
  split
  · rename_i t
    refine ⟨hcomplete t List.mem_cons_self, (hready.isMember t List.mem_cons_self).2.2.1, ?_⟩
    intro m hm
    rcases hcovers m hm with ⟨u, hu, hmu⟩
    rcases List.mem_singleton.mp hu with rfl
    exact hmu
  · have hperm := Ty.perm_sortCanonical members
    refine ⟨trivial, Ty.isComplete_union.mpr fun m hm => hcomplete m (hperm.mem_iff.mp hm),
      by simp, fun m hm => ?_⟩
    rcases hcovers m hm with ⟨u, hu, hmu⟩
    have hordinary := isOrdinary_of_isMember (hsources.formed m hm) (hcompleteSources m hm)
      (hsources.isMember m hm)
    exact hR.union_right hordinary (hsources.isMember m hm).2.2.2 (hperm.mem_iff.mpr hu) hmu

/-- Nothing is lost before shapes are merged. -/
theorem meets_prune_covers (hR : IsContainment h R) (hyes : ∀ s t, replies s t .yes -> R s t)
    (hready : IsReady replies members) (hne : members ≠ []) :
    (prune members).Meets (.free replies) (Covers R members) := by
  have hkeys : ∀ m ∈ members, Ty.Everywhere Ty.HasDistinctKeys m :=
    fun m hm => (hready.formed m hm).hasDistinctKeys
  refine ((meets_mergeBools hready hne).and_free (meets_mergeBools_covers hR members)).bind
    fun first hfirst => ?_
  rcases hfirst with ⟨⟨hready₁, hne₁, -⟩, hcovers₁⟩
  refine ((meets_mergeRanges hready₁ hne₁).and_free (meets_mergeRanges_covers hR hready₁)).bind
    fun second hsecond => ?_
  rcases hsecond with ⟨⟨hready₂, -⟩, hcovers₂⟩
  refine (meets_absorb_covers hR hyes hready₂.formed).imp fun third hcovers₃ => ?_
  exact (hcovers₁.trans hR hkeys hcovers₂).trans hR hkeys hcovers₃

theorem meets_reduce_above (hR : IsContainment h R) (hyes : ∀ s t, replies s t .yes -> R s t)
    (hcombine : Combines replies n combine) (habove : CombinesAbove replies R n combine)
    (hready : IsReady replies members) (hne : members ≠ [])
    (hcomplete : ∀ m ∈ members, Ty.IsComplete m) (hheight : ∀ m ∈ members, m.height ≤ n + 1) :
    (reduce limit combine flavor members).Meets (.free replies) fun t =>
      Ty.IsComplete t ∧ t ≠ .never ∧ ∀ m ∈ members, R m t := by
  rw [reduce_eq]
  refine ((meets_prune_ready hready hne).and_free (meets_prune_covers hR hyes hready hne)).bind
    fun pruned hpruned => ?_
  rcases hpruned with ⟨hpruned, hcovers⟩
  have hcomplete' : ∀ u ∈ pruned, Ty.IsComplete u :=
    fun u hu => (hpruned.added u hu).elim (hcomplete u) IsAdded.isComplete
  have hheight' : ∀ e, Ty.shape e ∈ pruned -> ∀ x ∈ e, x.value.height ≤ n :=
    fun e he => entries_height_le hpruned.added hheight he
  refine ((meets_mergeShapes hcombine hpruned.ready hpruned.ne_nil hpruned.irredundant
    hheight').and_free (meets_mergeShapes_covers hR hyes hcombine habove hpruned.ready hcomplete'
      hheight')).bind fun result hresult => ?_
  rcases hresult with ⟨⟨hready', -⟩, hcomplete'', hcovers'⟩
  apply meets_close_above hR hready hcomplete hready' hcomplete''
  exact hcovers.trans hR (fun m hm => (hready.formed m hm).hasDistinctKeys) hcovers'

/-!
# All members
-/

/-- What a union of some types has to do with them: it is complete, and unless one of
them is an error, it is above all of them, and never only if all of them are. -/
structure IsAbove (R : Ty -> Ty -> Prop) (members : List Ty) (t : Ty) : Prop where
  complete : Ty.IsComplete t
  above : (∀ m ∈ members, m ≠ .error) -> ∀ m ∈ members, R m t
  ne_never : (∀ m ∈ members, m ≠ .error) -> (∃ m ∈ members, m ≠ .never) -> t ≠ .never

theorem isAbove_singleton (hR : IsContainment h R) (ht : Ty.IsComplete t) : IsAbove R [t] t where
  complete := ht
  above := by
    intro _ m hm
    rcases List.mem_singleton.mp hm with rfl
    exact hR.refl m
  ne_never := by
    rintro - ⟨m, hm, hne⟩
    rcases List.mem_singleton.mp hm with rfl
    exact hne

theorem isAbove_of_error (herror : .error ∈ members) (ht : Ty.IsComplete t) :
    IsAbove R members t where
  complete := ht
  above := fun hnone => absurd rfl (hnone _ herror)
  ne_never := fun hnone => absurd rfl (hnone _ herror)

/-- `never` is below every result, so that it is enough to look at the other
members. -/
theorem isAbove_of_kept (hR : IsContainment h R) {kept : List Ty}
    (hkept : ∀ m ∈ members, m ≠ .never -> m ∈ kept) (ht : Formed replies t)
    (hcomplete : Ty.IsComplete t) (hnever : kept ≠ [] -> t ≠ .never)
    (hall : ∀ m ∈ kept, R m t) : IsAbove R members t where
  complete := hcomplete
  above := by
    intro _ m hm
    by_cases hmnever : m = .never
    · subst hmnever
      exact hR.rule (.never ht.isUnknown)
    · exact hall m (hkept m hm hmnever)
  ne_never := by
    rintro - ⟨m, hm, hne⟩
    exact hnever (List.ne_nil_of_mem (hkept m hm hne))

theorem meets_normalize_above (hR : IsContainment h R) (hyes : ∀ s t, replies s t .yes -> R s t)
    (hcombine : Combines replies n combine) (habove : CombinesAbove replies R n combine)
    (hformed : ∀ m ∈ members, Formed replies m) (hflat : ∀ m ∈ members, m.unionMembers? = none)
    (hcomplete : ∀ m ∈ members, Ty.IsComplete m) (hheight : ∀ m ∈ members, m.height ≤ n + 1) :
    (normalize limit combine flavor members).Meets (.free replies) (IsAbove R members) := by
  have hnormalizes := normalizes_normalize limit combine flavor members
  generalize normalize limit combine flavor members = q at hnormalizes ⊢
  cases hnormalizes with
  | error herror => exact isAbove_of_error herror (.leaf (by simp) rfl)
  | mixed herror hmixed =>
      refine ⟨Ty.isComplete_keyword _, fun _ m hm => ?_, by simp⟩
      exact hR.rule (.mixed (hformed m hm).isUnknown)
  | never hall =>
      have hnever : Formed replies .never := Ty.formed_keyword _
      exact isAbove_of_kept hR (fun m hm hne => absurd (hall m hm) hne) hnever
        (Ty.isComplete_keyword _) (absurd rfl) (by simp)
  | @single t hleft =>
      have hready := hleft.isReady hformed hflat
      have ht : t ∈ [t] := List.mem_cons_self
      refine isAbove_of_kept hR (fun m hm hne => (hleft.mem_iff m).mpr ⟨hm, hne⟩)
        (hready.formed t ht) (hcomplete t ((hleft.mem_iff t).mp ht).1)
        (fun _ => (hready.isMember t ht).2.2.1) ?_
      exact List.forall_mem_singleton.mpr (hR.refl t)
  | @several kept hleft hne =>
      have hready := hleft.isReady hformed hflat
      have hmem : ∀ m ∈ kept, m ∈ members := fun m hm => ((hleft.mem_iff m).mp hm).1
      have hheight' : ∀ m ∈ kept, m.height ≤ n + 1 := fun m hm => hheight m (hmem m hm)
      refine ((meets_reduce hcombine hready hne hheight').and_free
        (meets_reduce_above hR hyes hcombine habove hready hne
          (fun m hm => hcomplete m (hmem m hm)) hheight')).imp fun t ht => ?_
      rcases ht with ⟨hresult, ht, hnever, hall⟩
      exact isAbove_of_kept hR (fun m hm hne => (hleft.mem_iff m).mpr ⟨hm, hne⟩)
        hresult.1.formed ht (fun _ => hnever) hall

theorem isComplete_of_mem_membersOf (ht : Ty.IsComplete t) {m : Ty} (hm : m ∈ membersOf t) :
    Ty.IsComplete m := by
  cases t with
  | union flavor members => exact Ty.isComplete_union.mp ht m hm
  | _ =>
      rcases List.mem_singleton.mp hm with rfl
      exact ht

theorem exists_mem_membersOf (ht : Formed replies t) (hnever : t ≠ .never) :
    ∃ m ∈ membersOf t, m ≠ .never := by
  cases t with
  | union flavor members =>
      have htwo := ht.here.1.two
      obtain ⟨m, hm⟩ := List.exists_mem_of_length_pos (l := members) (by omega)
      exact ⟨m, hm, (ht.here.1.isMember m hm).2.2.1⟩
  | _ => exact ⟨_, List.mem_singleton.mpr rfl, hnever⟩

/-- What is above the members that some types bring into a union is above these
types. -/
theorem isAbove_of_flatMap (hR : IsContainment h R) {ts : List Ty} {u : Ty}
    (hformed : ∀ t ∈ ts, Formed replies t) (hu : Formed replies u)
    (herror : (∀ m ∈ ts.flatMap membersOf, m ≠ .error) -> u ≠ .error)
    (habove : IsAbove R (ts.flatMap membersOf) u) : IsAbove R ts u := by
  have hnone : (∀ t ∈ ts, t ≠ .error) -> ∀ m ∈ ts.flatMap membersOf, m ≠ .error := by
    intro hall m hm
    rcases List.mem_flatMap.mp hm with ⟨t, ht, hmt⟩
    exact (mem_membersOf (hformed t ht) (Nat.le_refl _) hmt).2.2.2 (hall t ht)
  have hsome : ∀ t ∈ ts, t ≠ .never -> ∃ m ∈ ts.flatMap membersOf, m ≠ .never := by
    intro t ht hnever
    rcases exists_mem_membersOf (hformed t ht) hnever with ⟨m, hm, hne⟩
    exact ⟨m, List.mem_flatMap.mpr ⟨t, ht, hm⟩, hne⟩
  constructor
  · exact habove.complete
  · intro hall t ht
    have hmembers : ∀ m ∈ membersOf t, R m u :=
      fun m hm => habove.above (hnone hall) m (List.mem_flatMap.mpr ⟨t, ht, hm⟩)
    cases t with
    | union flavor members =>
        have htwo := (hformed _ ht).here.1.two
        have hmissing : u.isMissing = false := by
          have hcomplete := habove.complete.here
          have herror' := herror (hnone hall)
          cases u <;> simp_all [Ty.isMissing]
        refine hR.union_left hu.isUnknown hmissing ?_ ?_ hmembers
        · exact habove.ne_never (hnone hall) (hsome _ ht (by simp))
        · exact List.ne_nil_of_length_pos (by omega)
    | _ => exact hmembers _ (List.mem_singleton.mpr rfl)
  · rintro hall ⟨t, ht, hnever⟩
    exact habove.ne_never (hnone hall) (hsome t ht hnever)

theorem combines_upTo (limit n : Nat) : Combines replies n (upTo limit n) := by
  intro ts hne hts
  apply (meets_upTo (fun t ht => (hts t ht).1) fun t ht => (hts t ht).2.2).imp
  intro u hu
  exact ⟨hu.1.formed, hu.2.1 hne fun t ht => (hts t ht).2.1⟩

/-- A union is above each given type, and complete if the given types are. -/
theorem meets_upTo_above (hR : IsContainment h R) (hyes : ∀ s t, replies s t .yes -> R s t)
    {ts : List Ty} (hformed : ∀ t ∈ ts, Formed replies t) (hcomplete : ∀ t ∈ ts, Ty.IsComplete t)
    (hheight : ∀ t ∈ ts, t.height ≤ n) :
    (upTo limit n ts).Meets (.free replies) (IsAbove R ts) := by
  have hunites := unites_upTo limit hheight
  generalize upTo limit n ts = q at hunites ⊢
  induction hunites with
  | empty n => exact ⟨.leaf (by simp) rfl, by simp, by simp⟩
  | single n t => exact isAbove_singleton hR (hcomplete t List.mem_cons_self)
  | @several n ts hmany _ ih =>
      have hcombine : Combines replies n (upTo limit n) := combines_upTo limit n
      have habove : CombinesAbove replies R n (upTo limit n) := by
        intro us _ hus
        have hlow : ∀ u ∈ us, u.height ≤ n := fun u hu => (hus u hu).1.2.2
        refine (ih us hlow (fun u hu => (hus u hu).1.1) (fun u hu => (hus u hu).2) hlow).imp
          fun u hu => ?_
        exact ⟨hu.complete, hu.above fun t ht => (hus t ht).1.2.1⟩
      have hmem := fun m (hm : m ∈ ts.flatMap membersOf) =>
        exists_of_mem_flatMap hformed hheight hm
      have hcomplete' : ∀ m ∈ ts.flatMap membersOf, Ty.IsComplete m := by
        intro m hm
        rcases (hmem m hm).2.2.2 with ⟨t, ht, hmt, -⟩
        exact isComplete_of_mem_membersOf (hcomplete t ht) hmt
      have hformed' : ∀ m ∈ ts.flatMap membersOf, Formed replies m := fun m hm => (hmem m hm).1
      have hflat : ∀ m ∈ ts.flatMap membersOf, m.unionMembers? = none :=
        fun m hm => (hmem m hm).2.1
      have hheight' : ∀ m ∈ ts.flatMap membersOf, m.height ≤ n + 1 :=
        fun m hm => (hmem m hm).2.2.1
      refine ((meets_normalize hcombine hformed' hflat hheight').and_free
        (meets_normalize_above hR hyes hcombine habove hformed' hflat hcomplete' hheight')).imp
          fun u hu => ?_
      exact isAbove_of_flatMap hR hformed hu.1.1.formed hu.1.2.1 hu.2

theorem meets_of_above (hR : IsContainment h R) (hyes : ∀ s t, replies s t .yes -> R s t)
    {options : Options} {ts : List Ty} (hformed : ∀ t ∈ ts, Formed replies t)
    (hcomplete : ∀ t ∈ ts, Ty.IsComplete t) :
    (of options ts).Meets (.free replies) (IsAbove R ts) :=
  meets_upTo_above hR hyes hformed hcomplete fun _ ht => Ty.height_le_heights ht

/-- The members of a union decide what it contains, not its flavor. -/
theorem union_below_union (hR : IsContainment h R) {flavor' : Flavor}
    (ht : Formed replies (.union flavor members))
    (hcomplete : Ty.IsComplete (.union flavor members)) :
    R (.union flavor members) (.union flavor' members) := by
  have htwo := ht.here.1.two
  refine hR.union_left rfl rfl (by simp) (List.ne_nil_of_length_pos (by omega)) fun m hm => ?_
  have hmember := ht.here.1.isMember m hm
  have hordinary := isOrdinary_of_isMember (ht.inside hm) (hcomplete.inside hm) hmember
  exact hR.union_right hordinary hmember.2.2.2 hm (hR.refl m)

theorem meets_markBenevolent_above (hR : IsContainment h R) {ts : List Ty}
    (hformed : ∀ t ∈ ts, Formed replies t) (ht : Formed replies t) (habove : IsAbove R ts t) :
    (Build.markBenevolent t).Meets (.free replies) (IsAbove R ts) := by
  unfold Build.markBenevolent
  split
  · refine ⟨trivial, ?_, fun hall m hm => ?_, by simp⟩
    · exact Ty.isComplete_union.mpr (Ty.isComplete_union.mp habove.complete)
    · exact hR.trans (hformed m hm).hasDistinctKeys (habove.above hall m hm)
        (union_below_union hR ht habove.complete)
  · exact habove

theorem meets_benevolentOf_above (hR : IsContainment h R) (hyes : ∀ s t, replies s t .yes -> R s t)
    {options : Options} {ts : List Ty} (hformed : ∀ t ∈ ts, Formed replies t)
    (hcomplete : ∀ t ∈ ts, Ty.IsComplete t) :
    (benevolentOf options ts).Meets (.free replies) (IsAbove R ts) :=
  ((meets_of hformed).and_free (meets_of_above hR hyes hformed hcomplete)).bind
    fun _ ht => meets_markBenevolent_above hR hformed ht.1 ht.2

end Union
end GradualTypes
