import GradualTypes.Extract
import GradualTypes.Ty.Measure

/-!
# Extracting under the two policies

The lenient policy extracts the members that match, at any depth of unions, in the order of
their paths.  The strict policy extracts the same list or nothing: nothing as soon as a member of
a union, at any depth, has no match.
-/

namespace GradualTypes
namespace Ty

variable {kind : MemberKind} {policy : Policy} {flavor : Flavor} {members : List Ty} {t u : Ty}
  {inside : Bool} {n : Nat}

/-!
# Paths
-/

/-- The type at a path, which gives the places of members from the outermost union inwards.  A
path ends at a type that is no union; if intersections are looked into, it may end at one of
their members. -/
def at? (inside : Bool) : List Nat -> Ty -> Option Ty
  | n :: path, union _ members => members[n]? >>= at? inside path
  | [n], inter members => if inside then members[n]? else none
  | [], union _ _ => none
  | [], inter _ => none
  | [], t => some t
  | _, _ => none

/-- Types with their paths, from those of the members. -/
def numberFrom (n : Nat) : List (List (List Nat × Ty)) -> List (List Nat × Ty)
  | [] => []
  | first :: rest => first.map (fun e => (n :: e.1, e.2)) ++ numberFrom (n + 1) rest

mutual

/-- All types at paths, in the order of the members. -/
def located (inside : Bool) : Ty -> List (List Nat × Ty)
  | union _ members => numberFrom 0 (locatedEach inside members)
  | inter members => if inside then numberFrom 0 (members.map fun m => [([], m)]) else []
  | t => [([], t)]

def locatedEach (inside : Bool) : List Ty -> List (List (List Nat × Ty))
  | [] => []
  | t :: rest => located inside t :: locatedEach inside rest

end

theorem locatedEach_eq_map (inside : Bool) (members : List Ty) :
    locatedEach inside members = members.map (located inside) := by
  induction members with
  | nil => rfl
  | cons t rest ih => rw [locatedEach, ih, List.map_cons]

theorem mem_numberFrom {lists : List (List (List Nat × Ty))} {path : List Nat} :
    (path, u) ∈ numberFrom n lists ↔
      ∃ k below found, lists[k]? = some found ∧ (below, u) ∈ found ∧ path = (n + k) :: below := by
  induction lists generalizing n with
  | nil => simp [numberFrom]
  | cons first rest ih =>
      have hshift : ∀ k, n + 1 + k = n + (k + 1) := by omega
      have hhead : (path, u) ∈ first.map (fun e => (n :: e.1, e.2)) ↔
          ∃ below, (below, u) ∈ first ∧ path = n :: below := by
        simp [eq_comm]
      rw [numberFrom, List.mem_append, hhead, ih]
      constructor
      · rintro (⟨below, hbelow, hpath⟩ | ⟨k, below, found, hfound, hbelow, hpath⟩)
        · exact ⟨0, below, first, rfl, hbelow, hpath⟩
        · exact ⟨k + 1, below, found, hfound, hbelow, hshift k ▸ hpath⟩
      · rintro ⟨k, below, found, hfound, hbelow, hpath⟩
        cases k with
        | zero =>
            cases hfound
            exact .inl ⟨below, hbelow, hpath⟩
        | succ k => exact .inr ⟨k, below, found, hfound, hbelow, hshift k ▸ hpath⟩

theorem pairwise_numberFrom {lists : List (List (List Nat × Ty))}
    (hlists : ∀ found ∈ lists, (found.map Prod.fst).Pairwise (· < ·)) :
    ((numberFrom n lists).map Prod.fst).Pairwise (· < ·) := by
  induction lists generalizing n with
  | nil => simp [numberFrom]
  | cons first rest ih =>
      rw [List.forall_mem_cons] at hlists
      rw [numberFrom, List.map_append, List.pairwise_append]
      refine ⟨?_, ih hlists.2, ?_⟩
      · have hfirst := hlists.1
        rw [List.pairwise_map] at hfirst
        rw [List.map_map, List.pairwise_map]
        exact hfirst.imp fun hlt => List.cons_lt_cons_iff.mpr (.inr ⟨rfl, hlt⟩)
      · intro a ha b hb
        rw [List.map_map, List.mem_map] at ha
        rcases ha with ⟨e, -, rfl⟩
        rcases List.mem_map.mp hb with ⟨⟨path, u⟩, hlater, rfl⟩
        rcases mem_numberFrom.mp hlater with ⟨k, below, -, -, -, rfl⟩
        exact List.cons_lt_cons_iff.mpr (.inl (by omega))

theorem map_snd_numberFrom (n : Nat) (lists : List (List (List Nat × Ty))) :
    (numberFrom n lists).map Prod.snd = lists.flatMap (List.map Prod.snd) := by
  induction lists generalizing n with
  | nil => rfl
  | cons first rest ih =>
      rw [numberFrom, List.map_append, ih, List.map_map, List.flatMap_cons]
      rfl

theorem mem_located (path : List Nat) (t : Ty) :
    (path, u) ∈ located inside t ↔ at? inside path t = some u := by
  cases t with
  | union flavor members =>
      have hmember : ∀ m ∈ members, ∀ path,
          (path, u) ∈ located inside m ↔ at? inside path m = some u :=
        fun m hm path => mem_located path m
      rw [located, locatedEach_eq_map, mem_numberFrom]
      cases path with
      | nil => simp [at?]
      | cons k path =>
          simp only [at?, Option.bind_eq_bind, Option.bind_eq_some_iff, List.getElem?_map,
            Option.map_eq_some_iff, Nat.zero_add, List.cons.injEq]
          constructor
          · rintro ⟨_, _, _, ⟨m, hm, rfl⟩, hmem, rfl, rfl⟩
            exact ⟨m, hm, (hmember m (List.mem_of_getElem? hm) _).mp hmem⟩
          · rintro ⟨m, hm, hmem⟩
            exact ⟨k, path, _, ⟨m, hm, rfl⟩,
              (hmember m (List.mem_of_getElem? hm) _).mpr hmem, rfl, rfl⟩
  | inter members =>
      cases inside with
      | false => rcases path with _ | ⟨k, _ | ⟨l, path⟩⟩ <;> simp [located, at?]
      | true =>
          rw [located, if_pos rfl, mem_numberFrom]
          rcases path with _ | ⟨k, _ | ⟨l, path⟩⟩
          · simp [at?]
          · simp only [at?, if_true, List.getElem?_map, Option.map_eq_some_iff, Nat.zero_add]
            constructor
            · rintro ⟨_, _, _, ⟨m, hm, rfl⟩, hmem, hpath⟩
              cases hpath
              cases List.mem_singleton.mp hmem
              exact hm
            · exact fun hm => ⟨k, [], _, ⟨u, hm, rfl⟩, List.mem_singleton_self _, rfl⟩
          · simp +contextual [at?]
  | _ => cases path <;> simp [located, at?, eq_comm]
termination_by t.size
decreasing_by exact size_lt_of_mem_children hm

/-- The paths come in lexicographic order. -/
theorem pairwise_located (t : Ty) : ((located inside t).map Prod.fst).Pairwise (· < ·) := by
  cases t with
  | union flavor members =>
      rw [located, locatedEach_eq_map]
      refine pairwise_numberFrom (List.forall_mem_map.mpr fun m hm => ?_)
      exact pairwise_located m
  | inter members =>
      cases inside with
      | false => simp [located]
      | true =>
          simp only [located, if_true]
          exact pairwise_numberFrom (List.forall_mem_map.mpr fun m _ => by simp)
  | _ => simp [located]
termination_by t.size
decreasing_by exact size_lt_of_mem_children hm

/-!
# The two policies
-/

theorem extractEach_eq_map (kind : MemberKind) (policy : Policy) (members : List Ty) :
    extractEach kind policy members = members.map (extract kind policy) := by
  induction members with
  | nil => rfl
  | cons t rest ih => rw [extractEach, ih, List.map_cons]

theorem extract_union_lenient :
    (union flavor members).extract kind ⟨inside, false⟩ =
      members.flatMap (extract kind ⟨inside, false⟩) := by
  rw [extract, extractEach_eq_map, List.flatMap]
  simp [gather]

/-- A union has a strict extraction if each of its members has one. -/
theorem extract_union_strict :
    (union flavor members).extract kind ⟨inside, true⟩ =
      if ∃ m ∈ members, m.extract kind ⟨inside, true⟩ = [] then []
      else members.flatMap (extract kind ⟨inside, true⟩) := by
  rw [extract, extractEach_eq_map, List.flatMap]
  simp [gather]

theorem extract_union_strict_ne_nil :
    (union flavor members).extract kind ⟨inside, true⟩ ≠ [] ↔
      members ≠ [] ∧ ∀ m ∈ members, m.extract kind ⟨inside, true⟩ ≠ [] := by
  rw [extract_union_strict]
  split
  · rename_i hempty
    rcases hempty with ⟨m, hm, hnone⟩
    simpa using fun _ => ⟨m, hm, hnone⟩
  · rename_i hall
    have hall' : ∀ m ∈ members, m.extract kind ⟨inside, true⟩ ≠ [] :=
      fun m hm hnone => hall ⟨m, hm, hnone⟩
    cases members with
    | nil => simp
    | cons m rest =>
        refine iff_of_true ?_ ⟨List.cons_ne_nil m rest, hall'⟩
        rw [List.flatMap_cons]
        exact List.append_ne_nil_of_left_ne_nil (hall' m List.mem_cons_self) _

theorem extract_strict_eq (kind : MemberKind) (inside : Bool) (t : Ty) :
    t.extract kind ⟨inside, true⟩ = [] ∨
      t.extract kind ⟨inside, true⟩ = t.extract kind ⟨inside, false⟩ := by
  cases t with
  | union flavor members =>
      have hmember : ∀ m ∈ members, m.extract kind ⟨inside, true⟩ = [] ∨
          m.extract kind ⟨inside, true⟩ = m.extract kind ⟨inside, false⟩ :=
        fun m hm => extract_strict_eq kind inside m
      rw [extract_union_strict, extract_union_lenient]
      split
      · exact .inl rfl
      · rename_i hall
        right
        rw [List.flatMap, List.flatMap, List.map_congr_left fun m hm => ?_]
        exact (hmember m hm).resolve_left fun hnone => hall ⟨m, hm, hnone⟩
  | _ => exact .inr rfl
termination_by t.size
decreasing_by exact size_lt_of_mem_children hm

/-- What the lenient policy extracts are the located types that match. -/
theorem extract_lenient_eq (kind : MemberKind) (inside : Bool) (t : Ty) :
    t.extract kind ⟨inside, false⟩ =
      ((located inside t).map Prod.snd).filter kind.holds := by
  cases t with
  | union flavor members =>
      have hmember : ∀ m ∈ members, m.extract kind ⟨inside, false⟩ =
          ((located inside m).map Prod.snd).filter kind.holds :=
        fun m hm => extract_lenient_eq kind inside m
      rw [extract_union_lenient, located, locatedEach_eq_map, map_snd_numberFrom,
        List.filter_flatMap, List.flatMap_map]
      rw [List.flatMap, List.flatMap, List.map_congr_left hmember]
  | inter members =>
      cases inside with
      | false => rfl
      | true =>
          rw [extract, located, if_pos rfl, if_pos rfl, map_snd_numberFrom, List.flatMap_map]
          exact congrArg (List.filter kind.holds) (List.flatMap_singleton' members).symm
  | _ => simp only [extract, located, List.map_singleton, List.filter_cons, List.filter_nil]
termination_by t.size
decreasing_by exact size_lt_of_mem_children hm

/-!
# The result
-/

/-- The strict policy extracts what the lenient one does or nothing.  From a union it extracts
something just if there are members and something is extracted from each of them.  All that is extracted matches,
and it is listed in the lexicographic order of the paths: these are all paths at which a type matches. -/
theorem extract_under_policies (kind : MemberKind) (inside : Bool) (t : Ty) :
    let strict : Policy := ⟨inside, true⟩
    let lenient : Policy := ⟨inside, false⟩
    (t.extract kind strict = [] ∨ t.extract kind strict = t.extract kind lenient) ∧
      (∀ flavor members, t = .union flavor members ->
        (t.extract kind strict ≠ [] ↔
          members ≠ [] ∧ ∀ m ∈ members, m.extract kind strict ≠ [])) ∧
      (∀ u ∈ t.extract kind strict ++ t.extract kind lenient, kind.holds u = true) ∧
      ∃ paths : List (List Nat), paths.Pairwise (· < ·) ∧
        (∀ path, path ∈ paths ↔ ∃ u, at? inside path t = some u ∧ kind.holds u = true) ∧
        paths.map (at? inside · t) = (t.extract kind lenient).map some := by
  intro strict lenient
  have hfilter := extract_lenient_eq kind inside t
  have hmatches : ∀ u ∈ t.extract kind lenient, kind.holds u = true := by
    intro u hu
    rw [hfilter] at hu
    exact (List.mem_filter.mp hu).2
  have hstrict := extract_strict_eq kind inside t
  refine ⟨hstrict, ?_, ?_, ((located inside t).filter (kind.holds ·.2)).map Prod.fst, ?_, ?_, ?_⟩
  · rintro flavor members rfl
    exact extract_union_strict_ne_nil
  · refine List.forall_mem_append.mpr ⟨?_, hmatches⟩
    rcases hstrict with hnone | hsame
    · simp [strict, hnone]
    · rwa [hsame]
  · exact (pairwise_located t).sublist (List.filter_sublist.map _)
  · intro path
    simp only [List.mem_map, List.mem_filter, Prod.exists, exists_and_right, exists_eq_right]
    exact exists_congr fun u => and_congr_left fun _ => mem_located path t
  · rw [hfilter, List.filter_map, List.map_map, List.map_map]
    refine List.map_congr_left fun e he => ?_
    exact (mem_located e.1 t).mp (List.mem_filter.mp he).1

end Ty
end GradualTypes
