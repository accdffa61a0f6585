import GradualTypes.Union

/-!
# Intersections

An intersection is first distributed over the unions among its members, as long
as that does not give too many pieces.  Members that are not unions are then
reduced pair by pair: of two related members the narrower one stays, two
intervals become their common part, and two members that share no value make the
whole intersection `never`.

Distribution makes the list of members smaller in total size, since a union is
replaced by one of its members; that is why it ends.
-/

namespace GradualTypes
namespace Intersection

open Inquiry

/-- The members that a type brings into an intersection. -/
def membersOf : Ty -> List Ty
  | .inter members => members
  | t => [t]

/-!
# Reduction of pairs
-/

/-- What becomes of two members. -/
inductive Meeting where
  /-- The earlier one is at least as narrow. -/
  | keep
  /-- The later one is narrower. -/
  | replace
  /-- Both together are one narrower type. -/
  | narrowed (t : Ty)
  | disjoint
  /-- The two constraints are independent. -/
  | both
deriving DecidableEq

def meetRanges : Ty -> Ty -> Inquiry Meeting
  | .range r, .range s =>
      let common := r.meet s
      if common.isEmpty then
        pure .disjoint
      else do
        return .narrowed (← Build.range common)
  | _, _ => pure .both

def meet (earlier later : Ty) : Inquiry Meeting := do
  let there ← isContained earlier later
  if there = .yes then
    return .keep
  let back ← isContained later earlier
  if back = .yes then
    return .replace
  else if there = .no ∧ back = .no then
    return .disjoint
  else
    meetRanges earlier later

/-- Let a member meet the kept ones, of which the first list has been passed
without effect.  A narrowed member meets all of them again.  The result is
nothing if some two share no value. -/
def narrow (passed : List Ty) (current : Ty) : List Ty -> Inquiry (Option (List Ty))
  | [] => pure (some (passed ++ [current]))
  | t :: rest => do
      match ← meet t current with
      | .disjoint => return none
      | .keep => return some (passed ++ t :: rest)
      | .replace => narrow passed current rest
      | .narrowed narrower => narrow [] narrower (passed ++ rest)
      | .both => narrow (passed ++ [t]) current rest
termination_by kept => (passed.length + kept.length, kept.length)
decreasing_by
  · simp [Prod.lex_def]
  · simp [Prod.lex_def]
  · simp only [Prod.lex_def, List.length_append, List.length_cons, List.length_nil]
    omega

def narrowAll (kept : List Ty) : List Ty -> Inquiry (Option (List Ty))
  | [] => pure (some kept)
  | t :: rest => do
      match ← narrow [] t kept with
      | none => return none
      | some kept => narrowAll kept rest

/-- The type of the members that are left. -/
def close : List Ty -> Inquiry Ty
  | [t] => pure t
  | members => built (.inter (Ty.sortCanonical members))

def reduce (members : List Ty) : Inquiry Ty := do
  fresh
  match ← narrowAll [] members with
  | none => return .never
  | some kept => close kept

/-!
# Distribution over unions
-/

/-- The number of pieces that a member contributes as a factor. -/
def width : Ty -> Nat
  | .union _ members => members.length
  | _ => 1

def pieces (members : List Ty) : Nat :=
  members.foldl (fun n t => n * width t) 1

/-- The first union in a list, with the other types of the list. -/
def firstUnion? : List Ty -> Option (Flavor × List Ty × List Ty)
  | [] => none
  | .union flavor members :: rest => some (flavor, members, rest)
  | t :: rest =>
      match firstUnion? rest with
      | some (flavor, members, others) => some (flavor, members, t :: others)
      | none => none

/-- The first union to distribute over, unless that gives too many pieces. -/
def toDistribute? (limit : Nat) (members : List Ty) :
    Option (Flavor × List Ty × List Ty) :=
  if limit < pieces members then none else firstUnion? members

/-- The result of a list of members before any two of them are compared, or the
members that are to be compared. -/
def prepare (members : List Ty) : Ty ⊕ List Ty :=
  let members := Ty.distinct (members.flatMap membersOf)
  if members.contains .error then .inl .error
  else if members.contains .never then .inl .never
  else
    match members.filter (· != .mixed) with
    | [] => .inl .mixed
    | [t] => .inl t
    | members => .inr members

def gather (options : Options) : Flavor -> List Ty -> Inquiry Ty
  | .plain, parts => Union.of options parts
  | .benevolent, parts => Union.benevolentOf options parts

/-!
# Sizes

The sizes that make distribution end.
-/

theorem sizes_insertNew_le (t : Ty) (ts : List Ty) :
    Ty.sizes (Ty.insertNew t ts) ≤ t.size + Ty.sizes ts := by
  show Ty.sizes (Ty.insertNew.go t t.code ts) ≤ _
  induction ts with
  | nil => simp [Ty.insertNew.go, Ty.sizes]
  | cons u rest ih =>
      simp only [Ty.insertNew.go]
      split
      · simp only [Ty.sizes]
        omega
      · split <;> simp only [Ty.sizes] at ih ⊢ <;> omega

theorem sizes_distinct_le (ts : List Ty) : Ty.sizes (Ty.distinct ts) ≤ Ty.sizes ts := by
  induction ts with
  | nil => exact Nat.le_refl _
  | cons t rest ih =>
      exact Nat.le_trans (sizes_insertNew_le t _) (Nat.add_le_add_left ih _)

theorem sizes_membersOf_le (t : Ty) : Ty.sizes (membersOf t) ≤ t.size := by
  cases t <;> simp [membersOf, Ty.sizes, Ty.size]

theorem sizes_flatMap_le (ts : List Ty) :
    Ty.sizes (ts.flatMap membersOf) ≤ Ty.sizes ts := by
  induction ts with
  | nil => exact Nat.le_refl _
  | cons t rest ih =>
      rw [List.flatMap_cons, Ty.sizes_append]
      exact Nat.add_le_add (sizes_membersOf_le t) ih

theorem sizes_prepare_le {members kept : List Ty} (h : prepare members = .inr kept) :
    Ty.sizes kept ≤ Ty.sizes members := by
  simp only [prepare] at h
  split at h
  · cases h
  · split at h
    · cases h
    · split at h
      · cases h
      · cases h
      · injection h with h
        subst h
        exact Nat.le_trans (Ty.sizes_le_of_sublist List.filter_sublist)
          (Nat.le_trans (sizes_distinct_le _) (sizes_flatMap_le _))

theorem sizes_firstUnion? {ts : List Ty} {flavor : Flavor} {members rest : List Ty}
    (h : firstUnion? ts = some (flavor, members, rest)) :
    Ty.sizes ts = 1 + Ty.sizes members + Ty.sizes rest := by
  induction ts generalizing rest with
  | nil => simp [firstUnion?] at h
  | cons t ts ih =>
      unfold firstUnion? at h
      split at h
      · cases h
      · rename_i heq
        injection heq with ht hts
        subst ht hts
        injection h with h
        simp only [Prod.mk.injEq] at h
        rcases h with ⟨-, rfl, rfl⟩
        simp [Ty.sizes, Ty.size]
      · rename_i heq
        injection heq with ht hts
        subst ht hts
        split at h
        · rename_i hrest
          injection h with h
          simp only [Prod.mk.injEq] at h
          rcases h with ⟨rfl, rfl, rfl⟩
          have := ih hrest
          simp only [Ty.sizes]
          omega
        · cases h

theorem sizes_piece_lt {limit : Nat} {members kept alternatives rest : List Ty}
    {flavor : Flavor} (hprepare : prepare members = .inr kept)
    (hunion : toDistribute? limit kept = some (flavor, alternatives, rest))
    {t : Ty} (ht : t ∈ alternatives) :
    Ty.sizes (rest ++ [t]) < Ty.sizes members := by
  simp only [toDistribute?] at hunion
  split at hunion
  · cases hunion
  · have hkept := sizes_prepare_le hprepare
    have hsplit := sizes_firstUnion? hunion
    have hmember := Ty.size_le_sizes ht
    simp only [Ty.sizes_append, Ty.sizes]
    omega

/-!
# The intersection of a list of types
-/

/-- The intersection of a list of types; that of none is the top type. -/
def of (options : Options) (members : List Ty) : Inquiry Ty :=
  match members with
  | [] => pure .mixed
  | [t] => pure t
  | members =>
      match _hprepare : prepare members with
      | .inl t => pure t
      | .inr kept =>
          match hunion : toDistribute? options.maxIntersectionDistribution kept with
          | none => reduce kept
          | some (flavor, alternatives, rest) => do
              let parts ← alternatives.attach.mapM fun t => of options (rest ++ [t.1])
              gather options flavor parts
termination_by Ty.sizes members
decreasing_by exact sizes_piece_lt _hprepare hunion t.2

end Intersection
end GradualTypes
