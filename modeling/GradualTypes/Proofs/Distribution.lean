import GradualTypes.Proofs.Alternatives

/-!
# Distribution of an intersection

An intersection of unions is distributed: each alternative of the first union takes the
place of the union, and the call is made again.  What an alternative brings in is not
taken apart any more, so the number of pieces does not grow on the way and the limit is
not met later than at the start.
-/

namespace GradualTypes
namespace Intersection

open Inquiry
open GradualTypes.Subtype (exact)
open GradualTypes.Ty (Formed)

variable {h : Hierarchy} {options : Options} {members kept rest alternatives : List Ty}
  {flavor : Flavor} {r s t : Ty}

/-!
# The number of pieces
-/

theorem pieces_cons (t : Ty) (ts : List Ty) : pieces (t :: ts) = width t * pieces ts := by
  have hstart : ∀ n, (ts.foldl (fun n t => n * width t) n) = n * pieces ts := by
    unfold pieces
    induction ts with
    | nil => simp
    | cons u rest ih =>
        intro n
        rw [List.foldl_cons, List.foldl_cons, ih, ih (1 * width u), Nat.one_mul, Nat.mul_assoc]
  rw [pieces, List.foldl_cons, Nat.one_mul]
  exact hstart (width t)

theorem pieces_perm {ts us : List Ty} (hperm : ts.Perm us) : pieces ts = pieces us := by
  induction hperm with
  | nil => rfl
  | cons t _ ih => rw [pieces_cons, pieces_cons, ih]
  | swap t u ts => simp only [pieces_cons, Nat.mul_left_comm]
  | trans _ _ ih ih' => exact ih.trans ih'

/-- Different types among the given ones, and types that are not taken apart, have no
more pieces than the given ones. -/
theorem pieces_le {small large : List Ty} (hnodup : small.Nodup)
    (hsmall : ∀ t ∈ small, t ∈ large ∨ width t = 1) (hlarge : ∀ t ∈ large, 1 ≤ width t) :
    pieces small ≤ pieces large := by
  induction small generalizing large with
  | nil =>
      clear hsmall hnodup
      induction large with
      | nil => exact Nat.le_refl _
      | cons t ts ih =>
          rw [List.forall_mem_cons] at hlarge
          rw [pieces_cons]
          exact Nat.mul_le_mul hlarge.1 (ih hlarge.2)
  | cons t ts ih =>
      rw [List.nodup_cons] at hnodup
      rw [List.forall_mem_cons] at hsmall
      rw [pieces_cons]
      by_cases ht : t ∈ large
      · rw [pieces_perm (List.perm_cons_erase ht), pieces_cons]
        refine Nat.mul_le_mul_left _ (ih hnodup.2 (fun u hu => ?_) fun u hu => ?_)
        · refine (hsmall.2 u hu).imp_left fun hmem => ?_
          refine (List.mem_erase_of_ne ?_).mpr hmem
          rintro rfl
          exact hnodup.1 hu
        · exact hlarge u (List.mem_of_mem_erase hu)
      · rw [hsmall.1.resolve_left ht, Nat.one_mul]
        exact ih hnodup.2 hsmall.2 hlarge

/-!
# Types that distribution takes apart
-/

/-- The members that are to be compared have no more pieces than may be made. -/
def HasFewPieces (options : Options) (members : List Ty) : Prop :=
  ∀ kept, prepare members = .inr kept -> pieces kept ≤ options.maxIntersectionDistribution

instance : Decidable (HasFewPieces options members) :=
  match hprepare : prepare members with
  | .inl _ => isTrue fun kept hkept => by simp [hprepare] at hkept
  | .inr kept => decidable_of_iff (pieces kept ≤ options.maxIntersectionDistribution)
      (by simp [HasFewPieces, hprepare])

/-- No alternative of a union among the members is an intersection that has kept a union
itself. -/
def HasDistributedAlternatives (members : List Ty) : Prop :=
  ∀ t ∈ members.flatMap membersOf, ∀ a ∈ Union.membersOf t, a.isDistributed = true

/-- Types whose intersection is distributed completely. -/
structure IsDistributable (h : Hierarchy) (options : Options) (members : List Ty) : Prop where
  proper : ∀ m ∈ members, Formed (Session.exactly h) m ∧ Ty.IsComplete m
  noError : ∀ m ∈ members, m ≠ .error
  distributed : HasDistributedAlternatives members
  few : HasFewPieces options members

theorem prepares_of_eq {result : Ty ⊕ List Ty} (hprepare : prepare members = result) :
    Prepares members result :=
  hprepare ▸ prepares_prepare members

namespace IsDistributable

variable (hmembers : IsDistributable h options members)
include hmembers

/-- What is known of the types that the members bring in. -/
theorem flat : ∀ t ∈ members.flatMap membersOf, Formed (Session.exactly h) t ∧
    Ty.IsComplete t ∧ t ≠ .error ∧ ∀ others, t ≠ .inter others := by
  apply forall_flatMap
  intro m hm t ht
  rcases hmembers.proper m hm with ⟨hformed, hcomplete⟩
  rcases mem_membersOf hformed ht with ⟨hformed', hinter⟩
  refine ⟨hformed', isComplete_of_mem_membersOf hcomplete ht, ?_, hinter⟩
  cases m with
  | inter members => exact (hformed.here.isMember t ht).1
  | _ =>
      rcases List.mem_singleton.mp ht with rfl
      exact hmembers.noError _ hm

theorem isOperand (hprepare : prepare members = .inr kept) : ∀ k ∈ kept, IsOperand h k := by
  cases prepares_of_eq hprepare with
  | several htwo hnodup hopen hmem =>
      intro k hk
      have hflat := ((hmem k).mp hk).1
      rcases hmembers.flat k hflat with ⟨hformed, hcomplete, -, hinter⟩
      rcases hopen k hk with ⟨herror, hmixed, hnever⟩
      exact ⟨hformed, hcomplete, ⟨herror, hmixed, hnever, hinter⟩, hmembers.distributed k hflat⟩

end IsDistributable

/-- The result is formed and complete. -/
theorem IsDistributable.proper_value (hmembers : IsDistributable h options members) :
    Formed (Session.exactly h) ((of options members).value (exact h)) ∧
      Ty.IsComplete ((of options members).value (exact h)) := by
  have hformed : ∀ m ∈ members, Formed (Session.exactly h) m := fun m hm => (hmembers.proper m hm).1
  have hcomplete : ∀ m ∈ members, Ty.IsComplete m := fun m hm => (hmembers.proper m hm).2
  exact ((meets_of hformed).and_free (meets_of_complete h hformed hcomplete)).value
    fun _ _ _ => rfl

/-!
# One alternative in the place of its union
-/

theorem isDistributed_of_isSimple (ht : t.isSimple = true) : t.isDistributed = true := by
  cases t <;> first | rfl | cases ht

theorem membersOf_of_isSimple (ht : t.isSimple = true) : membersOf t = [t] := by
  cases t <;> first | rfl | cases ht

/-- What a formed alternative without unions inside brings in is not taken apart. -/
theorem isSimple_of_mem_membersOf {replies : Ty -> Ty -> Tristate -> Prop}
    (ht : t.IsFormed replies) (hflat : t.unionMembers? = none)
    (hdistributed : t.isDistributed = true) (hs : s ∈ membersOf t) : s.isSimple = true := by
  rcases Ty.union_or_inter_or_simple t with ⟨flavor, members, rfl⟩ | ⟨members, rfl⟩ | hsimple
  · cases hflat
  · have hmember := ht.isMember s hs
    have hunion := List.all_eq_true.mp hdistributed s hs
    rcases Ty.union_or_inter_or_simple s with ⟨flavor, others, rfl⟩ | ⟨others, rfl⟩ | hsimple
    · cases hunion
    · exact absurd rfl (hmember.2.2.2 others)
    · exact hsimple
  · rw [membersOf_of_isSimple hsimple] at hs
    rwa [List.mem_singleton.mp hs]

theorem one_le_width (ht : Formed (Session.exactly h) t) : 1 ≤ width t := by
  cases t with
  | union flavor members =>
      have htwo := ht.here.1.two
      simp only [width]
      omega
  | _ => exact Nat.le_refl 1

/-- The types of a piece are at least two as well. -/
theorem two_le_length_piece (hprepare : prepare members = .inr kept)
    (hfirst : firstUnion? kept = some (flavor, alternatives, rest)) (t : Ty) :
    2 ≤ (rest ++ [t]).length := by
  have hlength := (perm_of_firstUnion? hfirst).length_eq
  cases prepares_of_eq hprepare with
  | several htwo hnodup hopen hmem =>
      simp only [List.length_cons, List.length_append, List.length_nil] at hlength ⊢
      omega

theorem width_of_isSimple (ht : t.isSimple = true) : width t = 1 := by
  cases t <;> first | rfl | cases ht

namespace IsDistributable

variable (hmembers : IsDistributable h options members) (hprepare : prepare members = .inr kept)
  (hfirst : firstUnion? kept = some (flavor, alternatives, rest))
include hmembers hprepare hfirst

theorem mem_flat_piece : s ∈ (rest ++ [t]).flatMap membersOf ↔ s ∈ rest ∨ s ∈ membersOf t := by
  have hself : ∀ k ∈ rest, membersOf k = [k] := by
    intro k hk
    have hmember := (hmembers.isOperand hprepare k ((mem_of_firstUnion? hfirst).2 k hk)).isMember
    cases k with
    | inter others => exact absurd rfl (hmember.2.2.2 others)
    | _ => rfl
  have hrest : rest.flatMap membersOf = rest := by
    rw [List.flatMap_congr hself, List.flatMap_singleton']
  rw [List.flatMap_append, hrest, List.mem_append, List.flatMap_singleton]

variable (ht : t ∈ alternatives)
include ht

/-- What the alternative of a union brings in is not taken apart. -/
theorem alternative : Formed (Session.exactly h) t ∧ Ty.IsComplete t ∧ t.isOrdinary = true ∧
    t.unionMembers? = none ∧ ∀ s ∈ membersOf t, s.isSimple = true := by
  have hunion := hmembers.isOperand hprepare _ (mem_of_firstUnion? hfirst).1
  have hmember := hunion.formed.unionMember ht
  have hcomplete := hunion.complete.inside ht
  have hdistributed := hunion.distributed t ht
  refine ⟨hmember.1, hcomplete, Union.isOrdinary_of_isMember hmember.1 hcomplete hmember.2,
    hmember.2.2.2.2,
    fun s => isSimple_of_mem_membersOf hmember.1.here hmember.2.2.2.2 hdistributed⟩

/-- The types of a piece are distributed completely as well. -/
theorem piece : IsDistributable h options (rest ++ [t]) := by
  have hrest : ∀ k ∈ rest, IsOperand h k :=
    fun k hk => hmembers.isOperand hprepare k ((mem_of_firstUnion? hfirst).2 k hk)
  rcases hmembers.alternative hprepare hfirst ht with ⟨hformed, hcomplete, hordinary, -, hsimple⟩
  have hflat := fun s => hmembers.mem_flat_piece hprepare hfirst (s := s) (t := t)
  constructor
  · refine List.forall_mem_append.mpr ⟨fun k hk => ⟨(hrest k hk).formed, (hrest k hk).complete⟩, ?_⟩
    exact List.forall_mem_singleton.mpr ⟨hformed, hcomplete⟩
  · refine List.forall_mem_append.mpr ⟨fun k hk => (hrest k hk).isMember.1, ?_⟩
    rw [List.forall_mem_singleton]
    rintro rfl
    cases hordinary
  · intro s hs
    rcases (hflat s).mp hs with hs | hs
    · exact (hrest s hs).distributed
    · rw [Union.membersOf_of_flat (Ty.unionMembers?_of_isSimple (hsimple s hs)),
        List.forall_mem_singleton]
      exact isDistributed_of_isSimple (hsimple s hs)
  · intro kept' hprepare'
    cases prepares_of_eq hprepare' with
    | several htwo hnodup hopen hmem =>
        refine Nat.le_trans (pieces_le hnodup (fun s hs => ?_) fun k hk => ?_)
          (hmembers.few kept hprepare)
        · rcases (hflat s).mp ((hmem s).mp hs).1 with hs | hs
          · exact Or.inl ((mem_of_firstUnion? hfirst).2 s hs)
          · exact Or.inr (width_of_isSimple (hsimple s hs))
        · exact one_le_width (hmembers.isOperand hprepare k hk).formed

/-- The intersection of the types of a piece is no union before it is reduced. -/
theorem unionMembers?_of_settled {u : Ty} (hsettled : prepare (rest ++ [t]) = .inl u) :
    u.unionMembers? = none := by
  rcases hmembers.alternative hprepare hfirst ht with ⟨hformed, -, hordinary, -, hsimple⟩
  cases prepares_of_eq hsettled with
  | single hu hopen hothers =>
      have hmem : ∃ s, s ∈ membersOf t := by
        cases t with
        | inter others =>
            have htwo := hformed.here.two
            exact List.exists_mem_of_length_pos (by simp only [membersOf]; omega)
        | _ => exact ⟨_, List.mem_cons_self⟩
      rcases hmem with ⟨s, hs⟩
      have hs' := (hmembers.mem_flat_piece hprepare hfirst).mpr (Or.inr hs)
      rcases hothers s hs' with rfl | rfl
      · -- neither the alternative nor a member of it is `mixed`
        exfalso
        cases t with
        | inter others => exact (hformed.here.isMember _ hs).2.1 rfl
        | _ =>
            rw [← List.mem_singleton.mp hs] at hordinary
            cases hordinary
      · exact Ty.unionMembers?_of_isSimple (hsimple _ hs)
  | _ => rfl

end IsDistributable

end Intersection
end GradualTypes
