import GradualTypes.Union

/-!
# Integer intervals

What the comparisons of intervals say about their bounds, and what becomes of a
sorted list of intervals when those that touch are joined: no two intervals of
the result touch.
-/

namespace GradualTypes
namespace IntRange

/-!
# Containment
-/

theorem contains_iff {r : IntRange} {n : Int} :
    r.contains n = true ↔ (∀ lo ∈ r.lo, lo ≤ n) ∧ ∀ hi ∈ r.hi, n ≤ hi := by
  rcases r with ⟨lo, hi⟩
  cases lo <;> cases hi <;> simp [contains, below]

theorem within_iff {r s : IntRange} :
    r.within s = true ↔
      (∀ b ∈ s.lo, ∃ a ∈ r.lo, b ≤ a) ∧ ∀ b ∈ s.hi, ∃ a ∈ r.hi, a ≤ b := by
  rcases r with ⟨lo, hi⟩
  rcases s with ⟨lo', hi'⟩
  cases lo <;> cases hi <;> cases lo' <;> cases hi' <;>
    simp [within, within.lowerWithin, within.upperWithin]

theorem contains_of_within {r s : IntRange} {n : Int} (hn : r.contains n = true)
    (hwithin : r.within s = true) : s.contains n = true := by
  rw [contains_iff] at hn ⊢
  rw [within_iff] at hwithin
  constructor
  · intro b hb
    rcases hwithin.1 b hb with ⟨a, ha, hle⟩
    exact Int.le_trans hle (hn.1 a ha)
  · intro b hb
    rcases hwithin.2 b hb with ⟨a, ha, hle⟩
    exact Int.le_trans (hn.2 a ha) hle

theorem within_trans {r s u : IntRange} (hrs : r.within s = true) (hsu : s.within u = true) :
    r.within u = true := by
  rw [within_iff] at hrs hsu ⊢
  constructor
  · intro c hc
    rcases hsu.1 c hc with ⟨b, hb, hcb⟩
    rcases hrs.1 b hb with ⟨a, ha, hba⟩
    exact ⟨a, ha, Int.le_trans hcb hba⟩
  · intro c hc
    rcases hsu.2 c hc with ⟨b, hb, hcb⟩
    rcases hrs.2 b hb with ⟨a, ha, hba⟩
    exact ⟨a, ha, Int.le_trans hba hcb⟩

theorem within_antisymm {r s : IntRange} (hrs : r.within s = true) (hsr : s.within r = true) :
    r = s := by
  rcases r with ⟨lo, hi⟩
  rcases s with ⟨lo', hi'⟩
  rw [within_iff] at hrs hsr
  cases lo <;> cases hi <;> cases lo' <;> cases hi' <;> simp_all <;> omega

/-!
# Intervals in order
-/

variable {r s u : IntRange}

theorem startsBefore_iff :
    r.startsBefore s = true ↔ ∀ a ∈ r.lo, ∃ b ∈ s.lo, a ≤ b := by
  rcases r with ⟨lo, hi⟩
  rcases s with ⟨lo', hi'⟩
  cases lo <;> cases lo' <;> simp [startsBefore]

theorem startsBefore_refl (r : IntRange) : r.startsBefore r = true :=
  startsBefore_iff.mpr fun a ha => ⟨a, ha, Int.le_refl a⟩

theorem startsBefore_trans (hrs : r.startsBefore s = true) (hsu : s.startsBefore u = true) :
    r.startsBefore u = true := by
  rw [startsBefore_iff] at hrs hsu ⊢
  intro a ha
  rcases hrs a ha with ⟨b, hb, hab⟩
  rcases hsu b hb with ⟨c, hc, hbc⟩
  exact ⟨c, hc, Int.le_trans hab hbc⟩

theorem startsBefore_total (r s : IntRange) :
    r.startsBefore s = true ∨ s.startsBefore r = true := by
  rcases r with ⟨lo, hi⟩
  rcases s with ⟨lo', hi'⟩
  cases lo <;> cases lo' <;> simp [startsBefore]
  exact Int.le_total _ _

theorem touches_comm (r s : IntRange) : r.touches s = s.touches r :=
  Bool.and_comm _ _

theorem touches_iff :
    r.touches s = true ↔
      (∀ a ∈ r.lo, ∀ b ∈ s.hi, a ≤ b + 1) ∧ ∀ a ∈ s.lo, ∀ b ∈ r.hi, a ≤ b + 1 := by
  rcases r with ⟨lo, hi⟩
  rcases s with ⟨lo', hi'⟩
  cases lo <;> cases hi <;> cases lo' <;> cases hi' <;> simp [touches, below]

theorem isEmpty_eq_false_iff : r.isEmpty = false ↔ ∀ a ∈ r.lo, ∀ b ∈ r.hi, a ≤ b := by
  rcases r with ⟨lo, hi⟩
  cases lo <;> cases hi <;> simp [isEmpty, below]

/-- An interval that is not touched by a later one is not touched by those that
start later still. -/
theorem touches_eq_false_of_startsBefore (hr : r.touches s = false)
    (hrs : r.startsBefore s = true) (hs : s.isEmpty = false)
    (hsu : s.startsBefore u = true) : r.touches u = false := by
  rw [Bool.eq_false_iff, ne_eq, touches_iff] at hr ⊢
  rw [startsBefore_iff] at hrs hsu
  rw [isEmpty_eq_false_iff] at hs
  intro htouches
  refine hr ⟨?_, ?_⟩
  · intro a ha b hb
    rcases hrs a ha with ⟨c, hc, hac⟩
    have hcb := hs c hc b hb
    omega
  · intro a ha b hb
    rcases hsu a ha with ⟨c, hc, hac⟩
    have hcb := htouches.2 c hc b hb
    omega

theorem overlaps_iff :
    r.overlaps s = true ↔
      (∀ a ∈ r.lo, ∀ b ∈ s.hi, a ≤ b) ∧ ∀ a ∈ s.lo, ∀ b ∈ r.hi, a ≤ b := by
  rcases r with ⟨lo, hi⟩
  rcases s with ⟨lo', hi'⟩
  cases lo <;> cases hi <;> cases lo' <;> cases hi' <;> simp [overlaps, below]

theorem overlaps_self (hr : r.isEmpty = false) : r.overlaps r = true :=
  overlaps_iff.mpr ⟨isEmpty_eq_false_iff.mp hr, isEmpty_eq_false_iff.mp hr⟩

theorem overlaps_comm (r s : IntRange) : r.overlaps s = s.overlaps r :=
  Bool.and_comm _ _

/-- An integer of an interval lies in no interval that does not overlap it. -/
theorem contains_of_overlaps {n : Int} (hn : r.contains n = true)
    (hoverlap : r.overlaps s = false) : s.contains n = false := by
  rw [Bool.eq_false_iff, ne_eq] at hoverlap ⊢
  rw [contains_iff] at hn ⊢
  rw [overlaps_iff] at hoverlap
  intro hn'
  refine hoverlap ⟨?_, ?_⟩
  · intro a ha b hb
    exact Int.le_trans (hn.1 a ha) (hn'.2 b hb)
  · intro a ha b hb
    exact Int.le_trans (hn'.1 a ha) (hn.2 b hb)

theorem overlaps_of_within (hwithin : r.within s = true) (hoverlap : s.overlaps u = false) :
    r.overlaps u = false := by
  rw [Bool.eq_false_iff, ne_eq] at hoverlap ⊢
  rw [within_iff] at hwithin
  rw [overlaps_iff] at hoverlap ⊢
  intro hall
  rcases hall with ⟨hlo, hhi⟩
  refine hoverlap ⟨?_, ?_⟩
  · intro a ha b hb
    rcases hwithin.1 a ha with ⟨c, hc, hac⟩
    exact Int.le_trans hac (hlo c hc b hb)
  · intro a ha b hb
    rcases hwithin.2 b hb with ⟨c, hc, hcb⟩
    exact Int.le_trans (hhi a ha c hc) hcb

/-- Intervals around two that touch touch as well. -/
theorem touches_of_within {r' s' : IntRange} (hr : r.within r' = true) (hs : s.within s' = true)
    (htouches : r.touches s = true) : r'.touches s' = true := by
  rw [within_iff] at hr hs
  rw [touches_iff] at htouches ⊢
  constructor
  · intro a ha b hb
    rcases hr.1 a ha with ⟨c, hc, hac⟩
    rcases hs.2 b hb with ⟨d, hd, hdb⟩
    have hcd := htouches.1 c hc d hd
    omega
  · intro a ha b hb
    rcases hs.1 a ha with ⟨c, hc, hac⟩
    rcases hr.2 b hb with ⟨d, hd, hdb⟩
    have hcd := htouches.2 c hc d hd
    omega

theorem isEmpty_hull (hr : r.isEmpty = false) (hs : s.isEmpty = false) :
    (r.hull s).isEmpty = false := by
  rcases r with ⟨lo, hi⟩
  rcases s with ⟨lo', hi'⟩
  cases lo <;> cases hi <;> cases lo' <;> cases hi' <;>
    simp_all [isEmpty, below, hull] <;> omega

theorem startsBefore_hull (hrs : r.startsBefore s = true) : r.startsBefore (r.hull s) = true := by
  rcases r with ⟨lo, hi⟩
  rcases s with ⟨lo', hi'⟩
  cases lo with
  | none => rfl
  | some a =>
      cases lo' with
      | none => cases hrs
      | some b =>
          exact decide_eq_true (Int.le_min.mpr ⟨Int.le_refl a, of_decide_eq_true hrs⟩)

theorem hull_startsBefore (r s : IntRange) : (r.hull s).startsBefore r = true := by
  rcases r with ⟨lo, hi⟩
  rcases s with ⟨lo', hi'⟩
  cases lo with
  | none => rfl
  | some a =>
      cases lo' with
      | none => rfl
      | some b => exact decide_eq_true (Int.min_le_left a b)

/-!
# Joining
-/

/-- The intervals of a list, from the given one on in order, when those that
touch are joined: none is empty, none starts before the given one, and no two of
them touch. -/
theorem joinTouching_go {last : IntRange} {rest : List IntRange} (hlast : last.isEmpty = false)
    (hrest : ∀ r ∈ rest, r.isEmpty = false)
    (hsorted : (last :: rest).Pairwise fun r s => r.startsBefore s = true) :
    (∀ r ∈ joinTouching.go last rest, r.isEmpty = false ∧ last.startsBefore r = true) ∧
      (joinTouching.go last rest).Pairwise fun r s => r.touches s = false := by
  induction rest generalizing last with
  | nil =>
      constructor
      · intro r hr
        rcases List.mem_singleton.mp hr with rfl
        exact ⟨hlast, startsBefore_refl r⟩
      · exact List.pairwise_singleton _ _
  | cons next rest ih =>
      rw [List.forall_mem_cons] at hrest
      rcases List.pairwise_cons.mp hsorted with ⟨hbefore, hsorted'⟩
      rw [List.forall_mem_cons] at hbefore
      unfold joinTouching.go
      split
      · -- the hull starts where the given interval starts
        have hhull : (last.hull next :: rest).Pairwise fun r s => r.startsBefore s = true := by
          refine List.pairwise_cons.mpr ⟨fun r hr => ?_, (List.pairwise_cons.mp hsorted').2⟩
          exact startsBefore_trans (hull_startsBefore last next) (hbefore.2 r hr)
        rcases ih (isEmpty_hull hlast hrest.1) hrest.2 hhull with ⟨hall, hpairwise⟩
        refine ⟨fun r hr => ⟨(hall r hr).1, ?_⟩, hpairwise⟩
        exact startsBefore_trans (startsBefore_hull hbefore.1) (hall r hr).2
      · rename_i htouches
        rcases ih hrest.1 hrest.2 hsorted' with ⟨hall, hpairwise⟩
        constructor
        · intro r hr
          rcases List.mem_cons.mp hr with rfl | hr
          · exact ⟨hlast, startsBefore_refl r⟩
          · exact ⟨(hall r hr).1, startsBefore_trans hbefore.1 (hall r hr).2⟩
        · refine List.pairwise_cons.mpr ⟨fun r hr => ?_, hpairwise⟩
          exact touches_eq_false_of_startsBefore (by simpa using htouches) hbefore.1 hrest.1
            (hall r hr).2

theorem joinTouching_go_ne_nil {last : IntRange} {rest : List IntRange} :
    joinTouching.go last rest ≠ [] := by
  induction rest generalizing last with
  | nil => simp [joinTouching.go]
  | cons next rest ih =>
      unfold joinTouching.go
      split
      · exact ih
      · simp

theorem mem_insertByStart {rs : List IntRange} :
    u ∈ Union.insertByStart r rs ↔ u = r ∨ u ∈ rs := by
  induction rs with
  | nil => simp [Union.insertByStart]
  | cons s rest ih =>
      unfold Union.insertByStart
      split
      · simp
      · rw [List.mem_cons, ih, List.mem_cons]
        exact or_left_comm

theorem mem_sortByStart {rs : List IntRange} : u ∈ Union.sortByStart rs ↔ u ∈ rs := by
  induction rs with
  | nil => simp [Union.sortByStart]
  | cons s rest ih =>
      rw [List.mem_cons, ← ih]
      exact mem_insertByStart

theorem pairwise_insertByStart {rs : List IntRange}
    (hsorted : rs.Pairwise fun r s => r.startsBefore s = true) :
    (Union.insertByStart r rs).Pairwise fun r s => r.startsBefore s = true := by
  induction rs with
  | nil => exact List.pairwise_singleton _ _
  | cons s rest ih =>
      rcases List.pairwise_cons.mp hsorted with ⟨hbefore, hrest⟩
      unfold Union.insertByStart
      split
      · rename_i hle
        refine List.pairwise_cons.mpr ⟨fun u hu => ?_, hsorted⟩
        rcases List.mem_cons.mp hu with rfl | hu
        · exact hle
        · exact startsBefore_trans hle (hbefore u hu)
      · rename_i hle
        refine List.pairwise_cons.mpr ⟨fun u hu => ?_, ih hrest⟩
        rcases mem_insertByStart.mp hu with rfl | hu
        · exact (startsBefore_total _ _).resolve_left hle
        · exact hbefore u hu

theorem pairwise_sortByStart (rs : List IntRange) :
    (Union.sortByStart rs).Pairwise fun r s => r.startsBefore s = true := by
  induction rs with
  | nil => exact List.Pairwise.nil
  | cons r rest ih => exact pairwise_insertByStart ih

/-- No two intervals touch after sorting and joining, and none is empty. -/
theorem joinTouching_sortByStart {rs : List IntRange} (hrs : ∀ r ∈ rs, r.isEmpty = false) :
    (∀ r ∈ joinTouching (Union.sortByStart rs), r.isEmpty = false) ∧
      (joinTouching (Union.sortByStart rs)).Pairwise fun r s => r.touches s = false := by
  have hsorted := pairwise_sortByStart rs
  have hall : ∀ r ∈ Union.sortByStart rs, r.isEmpty = false :=
    fun r hr => hrs r (mem_sortByStart.mp hr)
  cases hlist : Union.sortByStart rs with
  | nil => simp [joinTouching]
  | cons first rest =>
      rw [hlist] at hsorted hall
      rw [List.forall_mem_cons] at hall
      rcases joinTouching_go hall.1 hall.2 hsorted with ⟨hresult, hpairwise⟩
      exact ⟨fun r hr => (hresult r hr).1, hpairwise⟩

end IntRange
end GradualTypes
