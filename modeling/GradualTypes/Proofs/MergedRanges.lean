import GradualTypes.Proofs.Memory
import GradualTypes.Proofs.UnionBounds

/-!
# Merged intervals

Intervals among the members of a union that touch are made one.  If the intervals are those that
the constructor of intervals gives, this is exact: the members have the same integers as before,
any two intervals that are left are more than one apart, and all other members stay.

The bounds of the intervals are bounds of given ones, so nothing overflows, and an interval
without bounds becomes `int`.
-/

namespace GradualTypes

/-- What an inquiry ends with, if this does not depend on the answers. -/
theorem Session.perform_meets {α : Type} {q : Inquiry α} {post : α -> Prop}
    (hq : q.Meets (.free fun _ _ _ => True) post) (σ : Session) : post (σ.perform q).1 := by
  unfold Session.perform
  induction q generalizing σ with
  | done a => exact hq
  | ask s t next ih => exact ih _ (hq.2 _ trivial) _
  | announce t next ih => exact ih () hq.2 { σ with types := σ.types.enter t }
  | announceText s next ih => exact ih () hq { σ with texts := σ.texts.enter s }
  | restart next ih => exact ih () hq.2 { σ with limited := false }

namespace IntRange

variable {r s : IntRange} {rs : List IntRange} {n : Int}

/-- An interval that the constructor of intervals gives for some bounds. -/
def IsConstructed (r : IntRange) : Prop :=
  ∃ (bounds : IntRange) (σ : Session), (σ.perform (Build.range bounds)).1 = .range r

/-- No integer of one interval is equal or next to one of the other. -/
def Separate (r s : IntRange) : Prop :=
  ∀ m n, r.contains m = true -> s.contains n = true -> m + 1 < n ∨ n + 1 < m

theorem isConstructed_iff : r.IsConstructed ↔ r.isEmpty = false ∧ r.lo ≠ r.hi := by
  constructor
  · rintro ⟨bounds, σ, hresult⟩
    cases hempty : bounds.isEmpty with
    | true => simp [Build.range, hempty, Session.perform, Session.run, pure] at hresult
    | false =>
        have hmeets : (Build.range bounds).Meets (.free fun _ _ _ => True) _ :=
          (Build.meets_range_cases hempty).free
        have hcases := Session.perform_meets hmeets σ
        rw [hresult] at hcases
        rcases hcases with ⟨hint, -⟩ | ⟨n, hliteral, -⟩ | ⟨hrange, hne⟩
        · cases hint
        · cases hliteral
        · cases hrange
          exact ⟨hempty, hne⟩
  · rintro ⟨hnonempty, hne⟩
    refine ⟨r, default, ?_⟩
    have hmeets : (Build.range r).Meets (.free fun _ _ _ => True) (· = r.toTy) :=
      Union.meets_range_toTy (isWide_of_ne hnonempty hne)
    rw [← toTy_eq_range hne]
    exact Session.perform_meets hmeets default

theorem IsConstructed.isWide (hr : r.IsConstructed) : r.IsWide :=
  isWide_of_ne (isConstructed_iff.mp hr).1 (isConstructed_iff.mp hr).2

theorem separate_of_not_touches (htouches : r.touches s = false) : r.Separate s := by
  intro m n hm hn
  rw [contains_iff] at hm hn
  rw [Bool.eq_false_iff, ne_eq, touches_iff] at htouches
  by_contra hclose
  refine htouches ⟨?_, ?_⟩
  · intro a ha b hb
    have ham := hm.1 a ha
    have hnb := hn.2 b hb
    omega
  · intro a ha b hb
    have han := hn.1 a ha
    have hmb := hm.2 b hb
    omega

/-- Joining intervals that touch changes nothing about the integers in them. -/
theorem contains_joinTouching :
    (∃ s ∈ joinTouching (Union.sortByStart rs), s.contains n = true) ↔
      ∃ r ∈ rs, r.contains n = true := by
  constructor
  · rintro ⟨s, hs, hn⟩
    exact forall_joinTouching (P := fun s => s.contains n = true -> ∃ r ∈ rs, r.contains n = true)
      (fun r s hr hs htouches hn => (contains_of_hull htouches hn).elim hr hs)
      (fun r hr hn => ⟨r, hr, hn⟩) s hs hn
  · rintro ⟨r, hr, hn⟩
    obtain ⟨s, hs, hwithin⟩ := exists_within_joinTouching hr
    exact ⟨s, hs, contains_of_within hn hwithin⟩

/-- The bounds of a hull are bounds of the two intervals. -/
theorem bounds_hull (r s : IntRange) :
    ((r.hull s).lo = r.lo ∨ (r.hull s).lo = s.lo) ∧
      ((r.hull s).hi = r.hi ∨ (r.hull s).hi = s.hi) := by
  rcases r with ⟨lo, hi⟩
  rcases s with ⟨lo', hi'⟩
  constructor
  · cases lo <;> cases lo' <;> simp [hull]
    omega
  · cases hi <;> cases hi' <;> simp [hull]
    omega

/-- The bounds of joined intervals are bounds of the given ones. -/
theorem bounds_joinTouching (hs : s ∈ joinTouching (Union.sortByStart rs)) :
    (∃ r ∈ rs, s.lo = r.lo) ∧ ∃ r ∈ rs, s.hi = r.hi := by
  refine forall_joinTouching (P := fun s => (∃ r ∈ rs, s.lo = r.lo) ∧ ∃ r ∈ rs, s.hi = r.hi)
    (fun r s hr hs _ => ?_) (fun r hr => ⟨⟨r, hr, rfl⟩, r, hr, rfl⟩) s hs
  constructor
  · rcases (bounds_hull r s).1 with heq | heq
    · rw [heq]
      exact hr.1
    · rw [heq]
      exact hs.1
  · rcases (bounds_hull r s).2 with heq | heq
    · rw [heq]
      exact hr.2
    · rw [heq]
      exact hs.2

end IntRange

namespace Ty

/-- Whether a type is `int` or an interval, and has an integer. -/
def HasInteger (n : Int) : Ty -> Prop
  | keyword .int => True
  | range r => r.contains n = true
  | _ => False

theorem hasInteger_toTy {r : IntRange} {n : Int} :
    r.toTy.HasInteger n ↔ r.contains n = true := by
  unfold IntRange.toTy
  split
  · rename_i hopen
    rw [HasInteger, IntRange.contains_iff, hopen.1, hopen.2]
    simp
  · rfl

end Ty

namespace Union

open GradualTypes.Ty (hasInteger_toTy)

variable {replies : Ty -> Ty -> Tristate -> Prop} {members : List Ty} {rs : List IntRange}
  {t : Ty} {n : Int}

theorem sublist_foldl_appendNew (members added : List Ty) :
    members.Sublist (added.foldl appendNew members) := by
  induction added generalizing members with
  | nil => exact .refl _
  | cons t rest ih =>
      refine List.Sublist.trans ?_ (ih _)
      unfold appendNew
      split
      · exact .refl _
      · exact List.sublist_append_left _ _

/-- The intervals among the members are those before, followed by added ones. -/
theorem ranges_foldl_appendNew (members : List Ty) (rs : List IntRange) :
    (((rs.map IntRange.toTy).foldl appendNew members).filterMap Ty.range?).Sublist
      (members.filterMap Ty.range? ++ rs) := by
  induction rs generalizing members with
  | nil => simp
  | cons r rest ih =>
      have hfirst : ((appendNew members r.toTy).filterMap Ty.range?).Sublist
          (members.filterMap Ty.range? ++ [r]) := by
        unfold appendNew
        split
        · exact List.sublist_append_left _ _
        · rw [List.filterMap_append]
          refine (List.Sublist.refl _).append ?_
          unfold IntRange.toTy
          split
          · exact List.nil_sublist _
          · exact .refl _
      refine (ih _).trans ?_
      have hrest := hfirst.append (List.Sublist.refl rest)
      rwa [List.append_assoc] at hrest

/-- What is left of the intervals among the members, when those that touch are made one. -/
structure HasJoinedRanges (members merged : List Ty) : Prop where
  /-- The members have the same integers as before. -/
  integers : ∀ n, (∃ t ∈ merged, t.HasInteger n) ↔ ∃ t ∈ members, t.HasInteger n
  separate : (merged.filterMap Ty.range?).Pairwise IntRange.Separate
  notOpen : ∀ r, Ty.range r ∈ merged -> ¬ (r.lo = none ∧ r.hi = none)
  constructed : ∀ r, Ty.range r ∈ merged -> r.IsConstructed
  /-- No bound is made up. -/
  bounds : ∀ r, Ty.range r ∈ merged ->
    (∃ s, Ty.range s ∈ members ∧ r.lo = s.lo) ∧ ∃ s, Ty.range s ∈ members ∧ r.hi = s.hi
  /-- All other members are still there, in their order. -/
  others : (members.filter (·.range?.isNone)).Sublist merged
  added : ∀ t ∈ merged, t ∈ members ∨ t = .int ∨ ∃ r, t = .range r

theorem HasJoinedRanges.of_few (hfew : (members.filterMap Ty.range?).length < 2)
    (hmembers : ∀ r, Ty.range r ∈ members -> r.IsConstructed) : HasJoinedRanges members members where
  integers := fun n => Iff.rfl
  separate := by
    match members.filterMap Ty.range?, hfew with
    | [], _ => exact .nil
    | [r], _ => exact List.pairwise_singleton _ _
  notOpen := fun r hr hopen =>
    (IntRange.isConstructed_iff.mp (hmembers r hr)).2 (hopen.1.trans hopen.2.symm)
  constructed := hmembers
  bounds := fun r hr => ⟨⟨r, hr, rfl⟩, r, hr, rfl⟩
  others := List.filter_sublist
  added := fun t ht => .inl ht

/-- The members that are no intervals, and what became of the intervals. -/
def joinedMembers (members : List Ty) : List Ty :=
  ((joinedRanges members).map IntRange.toTy).foldl appendNew (members.filter (·.range?.isNone))

theorem mem_joinedMembers : t ∈ joinedMembers members ↔
    (t ∈ members ∧ t.range? = none) ∨ ∃ r ∈ joinedRanges members, r.toTy = t := by
  rw [joinedMembers, mem_foldl_appendNew, List.mem_filter, Option.isNone_iff_eq_none, List.mem_map]

theorem mem_joinedRanges_of_range {r : IntRange} (hr : .range r ∈ joinedMembers members) :
    r ∈ joinedRanges members ∧ ¬ (r.lo = none ∧ r.hi = none) := by
  rcases mem_joinedMembers.mp hr with ⟨-, hnone⟩ | ⟨s, hs, heq⟩
  · cases hnone
  · unfold IntRange.toTy at heq
    split at heq
    · cases heq
    · rename_i hclosed
      cases heq
      exact ⟨hs, hclosed⟩

theorem hasInteger_joinedMembers :
    (∃ t ∈ joinedMembers members, t.HasInteger n) ↔ ∃ t ∈ members, t.HasInteger n := by
  constructor
  · rintro ⟨t, ht, hn⟩
    rcases mem_joinedMembers.mp ht with ⟨ht', -⟩ | ⟨r, hr, rfl⟩
    · exact ⟨t, ht', hn⟩
    · obtain ⟨s, hs, hn'⟩ := IntRange.contains_joinTouching.mp ⟨r, hr, hasInteger_toTy.mp hn⟩
      exact ⟨.range s, mem_ranges.mp hs, hn'⟩
  · rintro ⟨t, ht, hn⟩
    cases hrange? : t.range? with
    | none => exact ⟨t, mem_joinedMembers.mpr (.inl ⟨ht, hrange?⟩), hn⟩
    | some s =>
        have hs : s ∈ members.filterMap Ty.range? := List.mem_filterMap.mpr ⟨t, ht, hrange?⟩
        cases t <;> cases hrange?
        obtain ⟨r, hr, hn'⟩ := IntRange.contains_joinTouching.mpr ⟨s, hs, hn⟩
        exact ⟨r.toTy, mem_joinedMembers.mpr (.inr ⟨r, hr, rfl⟩), hasInteger_toTy.mpr hn'⟩

theorem ranges_joinedMembers (members : List Ty) :
    ((joinedMembers members).filterMap Ty.range?).Sublist (joinedRanges members) := by
  have hnone : (members.filter (·.range?.isNone)).filterMap Ty.range? = [] := by
    rw [List.filterMap_eq_nil_iff]
    intro t ht
    exact Option.isNone_iff_eq_none.mp (List.mem_filter.mp ht).2
  have hsublist := ranges_foldl_appendNew (members.filter (·.range?.isNone)) (joinedRanges members)
  rwa [hnone, List.nil_append] at hsublist

section Constructed

variable (hmembers : ∀ r, Ty.range r ∈ members -> r.IsConstructed)
include hmembers

theorem isWide_joinedRanges : ∀ r ∈ joinedRanges members, r.IsWide :=
  IntRange.forall_joinTouching (fun _ _ hr hs _ => hr.hull hs)
    fun r hr => (hmembers r (mem_ranges.mp hr)).isWide

theorem pairwise_joinedRanges : (joinedRanges members).Pairwise IntRange.Separate := by
  have hnonempty : ∀ r ∈ members.filterMap Ty.range?, r.isEmpty = false :=
    fun r hr => (hmembers r (mem_ranges.mp hr)).isWide.nonempty
  exact (IntRange.joinTouching_sortByStart hnonempty).2.imp IntRange.separate_of_not_touches

theorem hasJoinedRanges_joinedMembers : HasJoinedRanges members (joinedMembers members) where
  integers := fun n => hasInteger_joinedMembers
  separate := (pairwise_joinedRanges hmembers).sublist (ranges_joinedMembers members)
  notOpen := fun r hr => (mem_joinedRanges_of_range hr).2
  constructed := fun r hr => by
    obtain ⟨hjoined, hclosed⟩ := mem_joinedRanges_of_range hr
    have hwide := isWide_joinedRanges hmembers r hjoined
    refine IntRange.isConstructed_iff.mpr ⟨hwide.nonempty, fun heq => ?_⟩
    cases hlo : r.lo with
    | none => exact hclosed ⟨hlo, heq ▸ hlo⟩
    | some n => exact hwide.notSingle n ⟨hlo, heq ▸ hlo⟩
  bounds := fun r hr => by
    obtain ⟨⟨s, hs, hlo⟩, s', hs', hhi⟩ :=
      IntRange.bounds_joinTouching (mem_joinedRanges_of_range hr).1
    exact ⟨⟨s, mem_ranges.mp hs, hlo⟩, s', mem_ranges.mp hs', hhi⟩
  others := sublist_foldl_appendNew _ _
  added := fun t ht => by
    rcases mem_joinedMembers.mp ht with ⟨ht', -⟩ | ⟨r, -, rfl⟩
    · exact .inl ht'
    · unfold IntRange.toTy
      split
      · exact .inr (.inl rfl)
      · exact .inr (.inr ⟨r, rfl⟩)

end Constructed

/-- Merging the intervals of a union is exact, in every session and for any bounds. -/
theorem perform_mergeRanges_exact (hmembers : ∀ r, Ty.range r ∈ members -> r.IsConstructed)
    (σ : Session) : HasJoinedRanges members (σ.perform (mergeRanges members)).1 := by
  refine Session.perform_meets (?_ : (mergeRanges members).Meets _ (HasJoinedRanges members)) σ
  unfold mergeRanges
  dsimp only
  split
  · rename_i hfew
    exact .of_few hfew hmembers
  · have hwide := isWide_joinedRanges hmembers
    refine (meets_appendRanges_eq hwide).imp ?_
    rintro _ rfl
    exact hasJoinedRanges_joinedMembers hmembers

/-- With open bounds, bounds at both ends of a machine word, and an interval within a longer one
that starts earlier. -/
theorem perform_mergeRanges_exact_extremes :
    HasJoinedRanges
        [.range ⟨some 7, some 9⟩, .string, .range ⟨none, some 4⟩,
          .range ⟨some (-9223372036854775808), some 5⟩, .range ⟨some (-3), some 2⟩,
          .range ⟨some 11, some 9223372036854775807⟩]
        [.string, .range ⟨none, some 5⟩, .range ⟨some 7, some 9⟩,
          .range ⟨some 11, some 9223372036854775807⟩] := by
  refine perform_mergeRanges_exact (fun r hr => ?_) default
  simp only [List.mem_cons, Ty.range.injEq, reduceCtorEq, List.not_mem_nil, false_or, or_false] at hr
  rw [IntRange.isConstructed_iff]
  rcases hr with rfl | rfl | rfl | rfl | rfl <;> decide

end Union

end GradualTypes
