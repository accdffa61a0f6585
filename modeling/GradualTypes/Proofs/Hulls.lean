import GradualTypes.Proofs.Ranges

/-!
# Hulls of intervals

Joining intervals that touch loses no integer and adds none: the hull of two such
intervals has exactly their integers.  So whatever holds of some intervals and is
kept by hulls holds of all joined ones, and each of the intervals lies within one of
the joined ones.

Intervals with more than one integer are called wide.  These are the intervals that
occur in types, since one without integers is `never` and one with a single integer
is a literal.
-/

namespace GradualTypes
namespace IntRange

variable {r s u : IntRange}

/-!
# The integers of a hull
-/

theorem within_refl (r : IntRange) : r.within r = true := by
  rw [within_iff]
  constructor
  · intro b hb
    exact ⟨b, hb, Int.le_refl b⟩
  · intro b hb
    exact ⟨b, hb, Int.le_refl b⟩

theorem within_hull_left (r s : IntRange) : r.within (r.hull s) = true := by
  rcases r with ⟨lo, hi⟩
  rcases s with ⟨lo', hi'⟩
  rw [within_iff]
  cases lo <;> cases hi <;> cases lo' <;> cases hi' <;> simp [hull] <;> omega

theorem within_hull_right (r s : IntRange) : s.within (r.hull s) = true := by
  rcases r with ⟨lo, hi⟩
  rcases s with ⟨lo', hi'⟩
  rw [within_iff]
  cases lo <;> cases hi <;> cases lo' <;> cases hi' <;> simp [hull] <;> omega

theorem hull_within (hr : r.within u = true) (hs : s.within u = true) :
    (r.hull s).within u = true := by
  rw [within_iff] at hr hs ⊢
  constructor
  · intro b hb
    rcases hr.1 b hb with ⟨a, ha, hba⟩
    rcases hs.1 b hb with ⟨c, hc, hbc⟩
    rw [Option.mem_def] at ha hc
    exact ⟨min a c, by simp [hull, ha, hc], Int.le_min.mpr ⟨hba, hbc⟩⟩
  · intro b hb
    rcases hr.2 b hb with ⟨a, ha, hab⟩
    rcases hs.2 b hb with ⟨c, hc, hcb⟩
    rw [Option.mem_def] at ha hc
    exact ⟨max a c, by simp [hull, ha, hc], Int.max_le.mpr ⟨hab, hcb⟩⟩

/-- The hull of intervals that touch has no further integers. -/
theorem contains_of_hull {n : Int} (htouches : r.touches s = true)
    (hn : (r.hull s).contains n = true) : r.contains n = true ∨ s.contains n = true := by
  rcases r with ⟨lo, hi⟩
  rcases s with ⟨lo', hi'⟩
  rw [touches_iff] at htouches
  rw [contains_iff] at hn ⊢
  rw [contains_iff]
  cases lo <;> cases hi <;> cases lo' <;> cases hi' <;> simp_all [hull] <;> omega

/-!
# Wide intervals
-/

/-- An interval with more than one integer. -/
structure IsWide (r : IntRange) : Prop where
  nonempty : r.isEmpty = false
  notSingle : ∀ n, ¬ (r.lo = some n ∧ r.hi = some n)

theorem isWide_of_ne (hr : r.isEmpty = false) (hne : r.lo ≠ r.hi) : r.IsWide where
  nonempty := hr
  notSingle := fun _ hsingle => hne (hsingle.1.trans hsingle.2.symm)

theorem IsWide.hull (hr : r.IsWide) (hs : s.IsWide) : (r.hull s).IsWide where
  nonempty := isEmpty_hull hr.nonempty hs.nonempty
  notSingle := by
    rintro n ⟨hlo, hhi⟩
    have hwithin := within_hull_left r s
    rw [within_iff, hlo, hhi] at hwithin
    rcases hwithin with ⟨hleft, hright⟩
    rcases hleft n rfl with ⟨a, ha, hna⟩
    rcases hright n rfl with ⟨b, hb, hbn⟩
    -- both bounds of the first interval are the integer
    have hab := isEmpty_eq_false_iff.mp hr.nonempty a ha b hb
    have heq : a = n := by omega
    have heq' : b = n := by omega
    exact hr.notSingle n ⟨heq ▸ ha, heq' ▸ hb⟩

/-- The type of a wide interval. -/
def toTy (r : IntRange) : Ty :=
  if r.lo = none ∧ r.hi = none then .int else .range r

theorem toTy_eq_range (hne : r.lo ≠ r.hi) : r.toTy = .range r := by
  apply if_neg
  intro hopen
  exact hne (hopen.1.trans hopen.2.symm)

theorem toTy_ne_shape (r : IntRange) (entries : List (Entry Ty)) : r.toTy ≠ .shape entries := by
  unfold toTy
  split <;> simp

/-!
# Joined intervals
-/

section Joined

variable {last : IntRange} {rest rs : List IntRange} {P : IntRange -> Prop}

theorem forall_joinTouching_go (hhull : ∀ r s, P r -> P s -> r.touches s = true -> P (r.hull s))
    (hlast : P last) (hrest : ∀ r ∈ rest, P r) : ∀ r ∈ joinTouching.go last rest, P r := by
  induction rest generalizing last with
  | nil =>
      intro r hr
      rcases List.mem_singleton.mp hr with rfl
      exact hlast
  | cons next rest ih =>
      rw [List.forall_mem_cons] at hrest
      unfold joinTouching.go
      split
      · rename_i htouches
        exact ih (hhull last next hlast hrest.1 htouches) hrest.2
      · rw [List.forall_mem_cons]
        exact ⟨hlast, ih hrest.1 hrest.2⟩

/-- What holds of some intervals and of the hull of two that touch holds of the
joined ones. -/
theorem forall_joinTouching (hhull : ∀ r s, P r -> P s -> r.touches s = true -> P (r.hull s))
    (hrs : ∀ r ∈ rs, P r) : ∀ r ∈ joinTouching (Union.sortByStart rs), P r := by
  have hall : ∀ r ∈ Union.sortByStart rs, P r := fun r hr => hrs r (mem_sortByStart.mp hr)
  cases hlist : Union.sortByStart rs with
  | nil => simp [joinTouching]
  | cons first rest =>
      rw [hlist, List.forall_mem_cons] at hall
      exact forall_joinTouching_go hhull hall.1 hall.2

theorem exists_within_joinTouching_go (hr : r ∈ last :: rest) :
    ∃ s ∈ joinTouching.go last rest, r.within s = true := by
  induction rest generalizing last r with
  | nil =>
      rcases List.mem_singleton.mp hr with rfl
      exact ⟨r, List.mem_cons_self, within_refl r⟩
  | cons next rest ih =>
      unfold joinTouching.go
      split
      · -- the first two intervals lie within their hull, which is joined further
        have hfirst : last.hull next ∈ last.hull next :: rest := List.mem_cons_self
        rcases ih hfirst with ⟨s, hs, hhull⟩
        rcases List.mem_cons.mp hr with rfl | hr
        · exact ⟨s, hs, within_trans (within_hull_left _ _) hhull⟩
        · rcases List.mem_cons.mp hr with rfl | hr
          · exact ⟨s, hs, within_trans (within_hull_right _ _) hhull⟩
          · exact ih (List.mem_cons_of_mem _ hr)
      · rcases List.mem_cons.mp hr with rfl | hr
        · exact ⟨r, List.mem_cons_self, within_refl r⟩
        · rcases ih hr with ⟨s, hs, hwithin⟩
          exact ⟨s, List.mem_cons_of_mem _ hs, hwithin⟩

/-- Each interval lies within a joined one. -/
theorem exists_within_joinTouching (hr : r ∈ rs) :
    ∃ s ∈ joinTouching (Union.sortByStart rs), r.within s = true := by
  rw [← mem_sortByStart] at hr
  cases hlist : Union.sortByStart rs with
  | nil => simp [hlist] at hr
  | cons first rest =>
      rw [hlist] at hr
      exact exists_within_joinTouching_go hr

end Joined

end IntRange
end GradualTypes
