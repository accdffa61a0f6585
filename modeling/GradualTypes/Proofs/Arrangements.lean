import GradualTypes.Proofs.IntersectionForm
import Mathlib.Data.List.Perm.Subperm

/-!
# Arrangements

The members of a union or an intersection are compared one after another, so they have to be
put in order first.  Here the order is that of codes, which depends on the types alone.  Where
types are known by handles it is the order of the handles, and these tell which types were met
earlier.

An arrangement is any way to put types in order.  Unions and intersections are made with an
arrangement in the same way as with the order of codes; which of several members comes first
decides only what they are compared with.  The result lists its members in canonical order in
either case.
-/

namespace GradualTypes

open Inquiry

namespace Ty

variable {ts us : List Ty}

theorem sizes_perm (hperm : ts.Perm us) : sizes ts = sizes us := by
  induction hperm with
  | nil => rfl
  | cons t _ ih => simp only [sizes, ih]
  | swap t u ts =>
      simp only [sizes]
      omega
  | trans _ _ ih ih' => exact ih.trans ih'

end Ty

/-- A way to put types in order, each of them once. -/
structure Arrangement where
  arrange : List Ty -> List Ty
  nodup : ∀ ts, (arrange ts).Nodup
  mem_iff : ∀ ts t, t ∈ arrange ts ↔ t ∈ ts

namespace Arrangement

/-- The order of codes. -/
def byCode : Arrangement where
  arrange := Ty.distinct
  nodup := Ty.nodup_distinct
  mem_iff := fun _ _ => Ty.mem_distinct

/-- The order of codes, read backwards. -/
def backwards : Arrangement where
  arrange := fun ts => (Ty.distinct ts).reverse
  nodup := fun ts => List.nodup_reverse.mpr (Ty.nodup_distinct ts)
  mem_iff := fun _ _ => List.mem_reverse.trans Ty.mem_distinct

/-- The order of numbers that the types have, such as their handles. -/
def byRank (rank : Ty -> Nat) : Arrangement where
  arrange := fun ts => (Ty.distinct ts).mergeSort fun s t => decide (rank s ≤ rank t)
  nodup := fun ts => (List.mergeSort_perm _ _).nodup_iff.mpr (Ty.nodup_distinct ts)
  mem_iff := fun _ _ => (List.mergeSort_perm _ _).mem_iff.trans Ty.mem_distinct

variable (a : Arrangement)

/-- Lists of the same types are put in order up to their order. -/
theorem perm {a b : Arrangement} {ts us : List Ty} (hsame : ∀ t, t ∈ ts ↔ t ∈ us) :
    (a.arrange ts).Perm (b.arrange us) := by
  refine (List.perm_ext_iff_of_nodup (a.nodup ts) (b.nodup us)).mpr fun t => ?_
  rw [a.mem_iff, b.mem_iff, hsame]

theorem sizes_le (ts : List Ty) : Ty.sizes (a.arrange ts) ≤ Ty.sizes ts := by
  have hsubset : a.arrange ts ⊆ ts := fun t ht => (a.mem_iff ts t).mp ht
  rcases List.subperm_of_subset (a.nodup ts) hsubset with ⟨us, hperm, hsublist⟩
  rw [← Ty.sizes_perm hperm]
  exact Ty.sizes_le_of_sublist hsublist

end Arrangement

/-!
# Unions
-/

namespace Union

variable (a : Arrangement)

/-- The union of members that have been put in order. -/
def settle (limit : Nat) (combine : List Ty -> Inquiry Ty) (flavor : Flavor)
    (members : List Ty) : Inquiry Ty :=
  if members.contains .error then
    pure .error
  else
    let members := members.filter (· != .never)
    if members.contains .mixed then
      pure .mixed
    else
      match members with
      | [] => pure .never
      | [t] => pure t
      | members => reduce limit combine flavor members

def upToBy (limit : Nat) : Nat -> List Ty -> Inquiry Ty
  | _, [] => pure .error
  | _, [t] => pure t
  | 0, _ => pure .error
  | height + 1, members =>
      settle limit (upToBy limit height) (flavorOf members)
        (a.arrange (members.flatMap membersOf))

def ofBy (options : Options) (members : List Ty) : Inquiry Ty :=
  upToBy a options.maxUnionShapeMerge (Ty.heights members) members

def benevolentOfBy (options : Options) (members : List Ty) : Inquiry Ty := do
  Build.markBenevolent (← ofBy a options members)

theorem upToBy_byCode (limit : Nat) : upToBy .byCode limit = upTo limit := by
  funext height members
  induction height generalizing members with
  | zero => match members with
    | [] => rfl
    | [_] => rfl
    | _ :: _ :: _ => rfl
  | succ height ih => match members with
    | [] => rfl
    | [_] => rfl
    | t :: u :: rest =>
        have hcombine : upToBy .byCode limit height = upTo limit height := funext ih
        show settle limit (upToBy .byCode limit height) _ _ = _
        rw [hcombine]
        rfl

theorem ofBy_byCode (options : Options) (members : List Ty) :
    ofBy .byCode options members = of options members := by
  unfold ofBy of
  rw [upToBy_byCode]

end Union

/-!
# Intersections
-/

namespace Intersection

variable (a : Arrangement) {options : Options} {members kept rest alternatives : List Ty}
  {flavor : Flavor} {t : Ty}

def prepareBy (members : List Ty) : Ty ⊕ List Ty :=
  settle (a.arrange (members.flatMap membersOf))

theorem prepareBy_byCode (members : List Ty) : prepareBy .byCode members = prepare members := rfl

theorem prepares_prepareBy (members : List Ty) : Prepares members (prepareBy a members) :=
  prepares_settle (a.nodup _) (a.mem_iff _)

def gatherBy (options : Options) : Flavor -> List Ty -> Inquiry Ty
  | .plain, parts => Union.ofBy a options parts
  | .benevolent, parts => Union.benevolentOfBy a options parts

variable {a}

theorem sizes_prepareBy_le (h : prepareBy a members = .inr kept) :
    Ty.sizes kept ≤ Ty.sizes members := by
  have hkept : kept.Sublist (a.arrange (members.flatMap membersOf)) := sublist_of_settle h
  exact Nat.le_trans (Ty.sizes_le_of_sublist hkept)
    (Nat.le_trans (a.sizes_le _) (sizes_flatMap_le _))

theorem sizes_pieceBy_lt {limit : Nat} (hprepare : prepareBy a members = .inr kept)
    (hunion : toDistribute? limit kept = some (flavor, alternatives, rest))
    (ht : t ∈ alternatives) : Ty.sizes (rest ++ [t]) < Ty.sizes members := by
  have hkept := sizes_prepareBy_le hprepare
  have hsplit := sizes_firstUnion? (firstUnion?_of_toDistribute? hunion)
  have hmember := Ty.size_le_sizes ht
  simp only [Ty.sizes_append, Ty.sizes]
  omega

variable (a)

def ofBy (options : Options) (members : List Ty) : Inquiry Ty :=
  match members with
  | [] => pure .mixed
  | [t] => pure t
  | members =>
      match _hprepare : prepareBy a members with
      | .inl t => pure t
      | .inr kept =>
          match hunion : toDistribute? options.maxIntersectionDistribution kept with
          | none => reduce kept
          | some (flavor, alternatives, rest) => do
              let parts ← alternatives.attach.mapM fun t => ofBy options (rest ++ [t.1])
              gatherBy a options flavor parts
termination_by Ty.sizes members
decreasing_by exact sizes_pieceBy_lt _hprepare hunion t.2

/-- The intersection of types that have been prepared. -/
def compareBy (options : Options) (kept : List Ty) : Inquiry Ty :=
  match toDistribute? options.maxIntersectionDistribution kept with
  | none => reduce kept
  | some (flavor, alternatives, rest) =>
      (alternatives.mapM fun t => ofBy a options (rest ++ [t])) >>= gatherBy a options flavor

variable {a}

theorem compareBy_of_none (hfirst : firstUnion? kept = none) :
    compareBy a options kept = reduce kept := by
  rw [compareBy, toDistribute?, hfirst, ite_self]

theorem compareBy_of_some (hfew : pieces kept ≤ options.maxIntersectionDistribution)
    (hfirst : firstUnion? kept = some (flavor, alternatives, rest)) :
    compareBy a options kept = (alternatives.mapM fun t => ofBy a options (rest ++ [t])) >>=
      gatherBy a options flavor := by
  rw [compareBy, toDistribute?, if_neg (Nat.not_lt.mpr hfew), hfirst]

section OfBy

variable (hmany : 2 ≤ members.length)
include hmany

theorem ofBy_settled (hprepare : prepareBy a members = .inl t) :
    ofBy a options members = pure t := by
  unfold ofBy
  split
  · cases hmany
  · simp at hmany
  · split
    · rename_i heq
      rw [hprepare] at heq
      cases heq
      rfl
    · rename_i heq
      rw [hprepare] at heq
      cases heq

theorem ofBy_prepared (hprepare : prepareBy a members = .inr kept) :
    ofBy a options members = compareBy a options kept := by
  rw [ofBy.eq_def, compareBy]
  split
  · cases hmany
  · simp at hmany
  · split
    · rename_i heq
      rw [hprepare] at heq
      cases heq
    · rename_i heq
      rw [hprepare] at heq
      cases heq
      split
      · rename_i hnone
        rw [hnone]
      · rename_i flavor alternatives rest hsome
        rw [hsome, List.mapM_subtype (g := fun t => ofBy a options (rest ++ [t])) (by simp),
          List.unattach_attach]

end OfBy

theorem mapM_congr {f g : Ty -> Inquiry Ty} {ts : List Ty} (hsame : ∀ t ∈ ts, f t = g t) :
    ts.mapM f = ts.mapM g := by
  induction ts with
  | nil => rfl
  | cons t rest ih =>
      rw [List.forall_mem_cons] at hsame
      rw [List.mapM_cons, List.mapM_cons, hsame.1, ih hsame.2]

theorem gatherBy_byCode (options : Options) (flavor : Flavor) (parts : List Ty) :
    gatherBy .byCode options flavor parts = gather options flavor parts := by
  cases flavor with
  | plain => exact Union.ofBy_byCode options parts
  | benevolent =>
      show Union.benevolentOfBy .byCode options parts = Union.benevolentOf options parts
      unfold Union.benevolentOfBy Union.benevolentOf
      rw [Union.ofBy_byCode]

theorem ofBy_byCode (options : Options) (members : List Ty) :
    ofBy .byCode options members = of options members := by
  have hintersects := intersects_of options members
  generalize of options members = q at hintersects ⊢
  induction hintersects with
  | empty => unfold ofBy; rfl
  | single t => unfold ofBy; rfl
  | @settled members t hmany hprepare =>
      exact ofBy_settled hmany ((prepareBy_byCode members).trans hprepare)
  | @compared members kept hmany hprepare hdistribute =>
      rw [ofBy_prepared hmany ((prepareBy_byCode members).trans hprepare), compareBy, hdistribute]
  | @distributed members kept alternatives rest flavor hmany hprepare hdistribute _ ih =>
      rw [ofBy_prepared hmany ((prepareBy_byCode members).trans hprepare), compareBy, hdistribute,
        ← mapM_congr ih, ← funext (gatherBy_byCode options flavor)]

end Intersection
end GradualTypes
