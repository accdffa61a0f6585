import GradualTypes.Generalize
import GradualTypes.Proofs.Announcements
import GradualTypes.Proofs.Supplies

/-!
# Shapes nested in types

Generalization goes on below the union of the values of a shape, which may be a larger type than
the shape.  It ends because shapes are nested less deep in the union: the union of some types
nests shapes no deeper than these types, even if it merges some of them.  Likewise, what all
intersections inside the types have in common holds of those inside the union, since a union is
built of parts of its members and of no new intersection.

So the number of steps that generalization is given does not matter, and it obeys the equation
that one would write it with.
-/

namespace GradualTypes

open Inquiry

namespace Ty

/-!
# The depth of nesting
-/

mutual

/-- How deep shapes are nested in a type. -/
def nesting : Ty -> Nat
  | object _ arguments => nestings arguments
  | array key value => max (nesting key) (nesting value)
  | shape entries => 1 + entryNestings entries
  | union _ members => nestings members
  | inter members => nestings members
  | _ => 0

def nestings : List Ty -> Nat
  | [] => 0
  | t :: rest => max (nesting t) (nestings rest)

def entryNestings : List (Entry Ty) -> Nat
  | [] => 0
  | ⟨_, value, _⟩ :: rest => max (nesting value) (entryNestings rest)

end

variable {P : Ty -> Prop} {n : Nat} {t : Ty} {members ts : List Ty} {entries : List (Entry Ty)}

section Leaves

attribute [local simp] nesting nestings entryNestings

theorem nestings_le_iff : nestings ts ≤ n ↔ ∀ t ∈ ts, t.nesting ≤ n := by
  induction ts with
  | nil => simp
  | cons t rest ih => simp [Nat.max_le, ih]

theorem entryNestings_eq (entries : List (Entry Ty)) :
    entryNestings entries = nestings (entryValues entries) := by
  induction entries with
  | nil => rfl
  | cons e rest ih => simpa [entryValues] using congrArg (max _) ih

theorem nesting_shape_le_iff :
    (shape entries).nesting ≤ n + 1 ↔ ∀ v ∈ entryValues entries, v.nesting ≤ n := by
  rw [nesting, entryNestings_eq, ← nestings_le_iff]
  omega

/-- A type that is no shape nests shapes as deep as its children do. -/
theorem nesting_le_iff (hshape : t.entries? = none) :
    t.nesting ≤ n ↔ ∀ c ∈ t.children, c.nesting ≤ n := by
  cases t with
  | shape entries => cases hshape
  | _ => simp [children, nestings_le_iff, Nat.max_le]

end Leaves

theorem nesting_le_of_mem_children {c : Ty} (hc : c ∈ t.children) : c.nesting ≤ t.nesting := by
  cases t with
  | shape entries =>
      have hle : c.nesting ≤ nestings (entryValues entries) :=
        nestings_le_iff.mp (Nat.le_refl _) c hc
      rw [nesting, entryNestings_eq]
      omega
  | _ => exact (nesting_le_iff rfl).mp (Nat.le_refl _) c hc

/-- Induction over the depth of nesting, and over the type where children are nested as deep. -/
@[elab_as_elim]
theorem nesting_induction {motive : Ty -> Prop}
    (step : ∀ t, (∀ u : Ty, u.nesting < t.nesting -> motive u) -> (∀ c ∈ t.children, motive c) ->
      motive t) (t : Ty) : motive t :=
  step t (fun u _ => nesting_induction step u) fun c _ => nesting_induction step c
termination_by (t.nesting, t.size)
decreasing_by
  · exact Prod.Lex.left _ _ ‹_›
  · rcases Nat.lt_or_eq_of_le (nesting_le_of_mem_children ‹_›) with hless | heq
    · exact Prod.Lex.left _ _ hless
    · rw [heq]
      exact Prod.Lex.right _ (size_lt_of_mem_children ‹_›)

theorem nesting_le_height (t : Ty) : t.nesting ≤ t.height := by
  have hchildren : ∀ c ∈ t.children, c.nesting ≤ heights t.children := fun c hc =>
    Nat.le_trans (nesting_le_height c) (height_le_heights hc)
  rw [height_eq]
  cases t with
  | shape entries =>
      rw [Nat.add_comm]
      exact nesting_shape_le_iff.mpr hchildren
  | _ => exact (nesting_le_iff rfl).mpr fun c hc => Nat.le_add_left_of_le (hchildren c hc)
termination_by t.size
decreasing_by exact size_lt_of_mem_children hc

/-!
# Types with a property everywhere
-/

theorem everywhere_true (t : Ty) : t.Everywhere fun _ => True :=
  .intro trivial fun c _ => everywhere_true c
termination_by t.size
decreasing_by exact size_lt_of_mem_children ‹_›

/-- Shapes are nested at most that deep, and each part of the type has a property. -/
structure IsNested (P : Ty -> Prop) (n : Nat) (t : Ty) : Prop where
  nesting : t.nesting ≤ n
  everywhere : t.Everywhere P

/-- A property of nodes that unions carry on.  The hull of intervals that touch may take their
place, and shapes may be merged to one with the same keys. -/
structure IsCarried (P : Ty -> Prop) : Prop where
  error : P error
  keyword : ∀ k, P (keyword k)
  union : ∀ flavor members, P (union flavor members)
  hull : ∀ {r s}, P (range r) -> P (range s) -> P (range (r.hull s))
  single : ∀ {r}, P (range r) -> r.IsWide ∨ ∀ n, P (literal (.int n))
  shape : ∀ {entries entries'}, P (shape entries) -> (entries = [] -> entries' = []) ->
    P (shape entries')

/-- A property that is about intersections only. -/
def IsAboutIntersections (P : Ty -> Prop) : Prop :=
  ∀ t, (∀ members, t ≠ inter members) -> P t

theorem IsAboutIntersections.isCarried (hP : IsAboutIntersections P) : IsCarried P where
  error := hP _ (by simp)
  keyword := fun _ => hP _ (by simp)
  union := fun _ _ => hP _ (by simp)
  hull := fun _ _ => hP _ (by simp)
  single := fun _ => Or.inr fun _ => hP _ (by simp)
  shape := fun _ _ => hP _ (by simp)

theorem IsNested.inside (ht : IsNested P n t) {c : Ty} (hc : c ∈ t.children) : IsNested P n c where
  nesting := Nat.le_trans (nesting_le_of_mem_children hc) ht.nesting
  everywhere := ht.everywhere.inside hc

theorem IsNested.values (ht : IsNested P n (shape entries)) :
    ∃ k, n = k + 1 ∧ ∀ e ∈ entries, IsNested P k e.value := by
  have hpos := ht.nesting
  rw [Ty.nesting] at hpos
  obtain ⟨k, rfl⟩ : ∃ k, n = k + 1 := ⟨n - 1, by omega⟩
  refine ⟨k, rfl, fun e he => ⟨?_, ht.everywhere.value he⟩⟩
  exact nesting_shape_le_iff.mp ht.nesting _ (mem_children_shape he)

theorem isNested_leaf (ht : P t) (hshape : t.entries? = none) (hleaf : t.children = []) :
    IsNested P n t where
  nesting := (nesting_le_iff hshape).mpr (by simp [hleaf])
  everywhere := .leaf ht hleaf

/-!
# Nesting in unions
-/

variable (hP : IsCarried P)
include hP

theorem isNested_union {flavor : Flavor} (hmembers : ∀ m ∈ members, IsNested P n m) :
    IsNested P n (union flavor members) where
  nesting := (nesting_le_iff rfl).mpr fun m hm => (hmembers m hm).nesting
  everywhere := .intro (hP.union _ _) fun m hm => (hmembers m hm).everywhere

/-- A shape that takes the place of another one. -/
theorem isNested_shape {entries' : List (Entry Ty)} (hshape : P (shape entries))
    (hempty : entries = [] -> entries' = []) (hentries : ∀ e ∈ entries', IsNested P n e.value) :
    IsNested P (n + 1) (shape entries') := by
  have hvalues : ∀ v ∈ entryValues entries', IsNested P n v := List.forall_mem_map.mpr hentries
  constructor
  · exact nesting_shape_le_iff.mpr fun v hv => (hvalues v hv).nesting
  · exact .intro (hP.shape hshape hempty) fun v hv => (hvalues v hv).everywhere

/-- Intervals that are made of others have the property, or the integer in one has it. -/
theorem draws_joined {rs : List IntRange} (hrs : ∀ r ∈ rs, IsNested P n (range r)) :
    ∀ r ∈ IntRange.joinTouching (Union.sortByStart rs),
      (Build.range r).Draws ⟨fun _ => True, fun _ => True⟩ (IsNested P n) := by
  intro r hr
  have hrange : P (range r) := IntRange.forall_joinTouching (P := fun r => P (range r))
    (fun _ _ hr hs _ => hP.hull hr hs) (fun r hr => (hrs r hr).everywhere.here) r hr
  rcases hP.single hrange with hwide | hint
  · have htype : IsNested P n r.toTy := by
      unfold IntRange.toTy
      split
      · exact isNested_leaf (hP.keyword _) rfl rfl
      · exact isNested_leaf hrange rfl rfl
    have hmeets : (Build.range r).Meets (.free fun _ _ _ => True) (IsNested P n) :=
      (Union.meets_range_toTy hwide).imp fun _ hsame => hsame ▸ htype
    exact hmeets.draws (fun _ _ _ => trivial) fun _ _ => trivial
  · exact Build.draws_range (fun k => isNested_leaf (hP.keyword k) rfl rfl)
      (fun n => ⟨trivial, fun _ => isNested_leaf (hint n) rfl rfl⟩)
      ⟨trivial, fun _ => isNested_leaf hrange rfl rfl⟩

theorem carries_isNested : Supply.Carries ⟨fun _ => True, fun _ => True⟩ (IsNested P) where
  error := fun _ => isNested_leaf hP.error rfl rfl
  keyword := fun _ k => isNested_leaf (hP.keyword k) rfl rfl
  bool := fun _ => trivial
  joined := draws_joined hP
  member := fun hunion m hm => hunion.inside hm
  union := fun hmembers => ⟨trivial, fun _ => isNested_union hP hmembers⟩
  value := fun hshape e he => by
    obtain ⟨k, rfl, hvalues⟩ := hshape.values
    exact hvalues e he
  shape := fun hshape hempty hentries => by
    obtain ⟨k, rfl, -⟩ := hshape.values
    exact ⟨trivial, fun _ => isNested_shape hP hshape.everywhere.here hempty hentries⟩

end Ty

/-- The union of some types nests shapes no deeper than these, and carries on what they have in
common. -/
theorem Union.meets_upTo_nested {replies : Ty -> Ty -> Tristate -> Prop} {P : Ty -> Prop}
    (hP : Ty.IsCarried P) (limit height n : Nat) (ts : List Ty)
    (hts : ∀ t ∈ ts, Ty.IsNested P n t) :
    (upTo limit height ts).Meets (.free replies) (Ty.IsNested P n) :=
  (draws_upTo (Ty.carries_isNested hP) limit height n ts hts).meets

end GradualTypes
