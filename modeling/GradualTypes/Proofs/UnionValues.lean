import GradualTypes.Proofs.Constructed
import GradualTypes.Proofs.UnionLeast

/-!
# The values of unions

A union has exactly the values of the given types, unless shapes with the same keys
are merged: then it has all of them and may have more.
-/

namespace GradualTypes

namespace Ty

variable {calls : Value -> Prop} {v : Value} {t : Ty}

theorem admits_toTy {r : IntRange} :
    r.toTy.Admits calls v ↔ ∃ n, v = .int n ∧ r.contains n = true := by
  unfold IntRange.toTy
  split
  · rename_i hopen
    have hall : ∀ n, r.contains n = true := by
      intro n
      rw [IntRange.contains_iff, hopen.1, hopen.2]
      simp
    simp [Admits, Keyword.Admits, hall]
  · rw [Admits]

theorem admits_membersOf : t.Admits calls v ↔ ∃ m ∈ Union.membersOf t, m.Admits calls v := by
  cases t with
  | union flavor members => exact admits_union
  | _ => simp [Union.membersOf]

end Ty

namespace Union

variable {calls : Value -> Prop} {members : List Ty}

/-- Having no values but those of some types is kept when a union is made. -/
theorem isKept_values (calls : Value -> Prop) (members : List Ty) :
    IsKept fun t => ∀ v, t.Admits calls v -> ∃ m ∈ members, m.Admits calls v where
  never := by
    intro v hv
    exact hv.elim
  bools := by
    rintro htrue hfalse v ⟨b, rfl⟩
    cases b with
    | true => exact htrue _ rfl
    | false => exact hfalse _ rfl
  hull := by
    intro r s _ _ htouches hr hs v hv
    rcases Ty.admits_toTy.mp hv with ⟨n, rfl, hn⟩
    rcases IntRange.contains_of_hull htouches hn with hn' | hn'
    · exact hr _ (Ty.admits_toTy.mpr ⟨n, rfl, hn'⟩)
    · exact hs _ (Ty.admits_toTy.mpr ⟨n, rfl, hn'⟩)

end Union

namespace Session

variable {h : Hierarchy} {options options₁ options₂ : Options} {σ : Session} {members : List Ty}

/-- A union of either flavor keeps the values of the given types: each of them is a
value of the union, and if no two different members that the types bring in are shapes
with the same keys, the union has no other values. -/
theorem values_of_union (calls : Value -> Prop) (hσ : Reachable h options₁ σ)
    (hne : members ≠ []) (hmembers : ∀ t ∈ members, Constructed h options t)
    (herror : ∀ t ∈ members, t ≠ .error) {u : Ty}
    (hu : u = (σ.perform (Union.of options₂ members)).1 ∨
      u = (σ.perform (Union.benevolentOf options₂ members)).1) :
    (∀ v, ∀ m ∈ members, m.Admits calls v -> u.Admits calls v) ∧
      (Union.HasOneShapePerKeys (members.flatMap Union.membersOf) ->
        ∀ v, u.Admits calls v -> ∃ m ∈ members, m.Admits calls v) := by
  constructor
  · have habove := hσ.isAbove_union (Subtype.isContainment_includes h calls)
      (fun _ _ hcontained => hcontained.includes) hmembers options₂
    intro v m hm hv
    rcases hu with rfl | rfl
    · exact habove.1.above herror m hm v hv
    · exact habove.2.above herror m hm v hv
  · intro hkeys v hv
    have hkept := Union.isKept_values calls members
    have hformed : ∀ t ∈ members, Ty.Formed (Run.soundly h) t :=
      fun t ht => (hmembers t ht).formed
    have hgiven : ∀ m ∈ members.flatMap Union.membersOf, ∀ w, m.Admits calls w ->
        ∃ t ∈ members, t.Admits calls w := by
      intro m hm w hw
      rcases List.mem_flatMap.mp hm with ⟨t, ht, hmt⟩
      exact ⟨t, ht, Ty.admits_membersOf.mpr ⟨m, hmt, hw⟩⟩
    have hresult : ∀ m ∈ Union.membersOf u, ∀ w, m.Admits calls w ->
        ∃ t ∈ members, t.Admits calls w := by
      rcases hu with rfl | rfl
      · exact hσ.meets (Union.meets_of_kept hkept hne hformed hkeys.hasComparableShapes hgiven)
      · exact hσ.meets
          (Union.meets_benevolentOf_kept hkept hne hformed hkeys.hasComparableShapes hgiven)
    rcases Ty.admits_membersOf.mp hv with ⟨m, hm, hvm⟩
    exact hresult m hm v hvm

/-- Two adjacent intervals have all values of their union and no others. -/
theorem values_of_union_intervals :
    let σ := new .empty .default
    let low := Ty.range ⟨some 1, some 3⟩
    let high := Ty.range ⟨some 4, none⟩
    let u := (σ.perform (Union.of .default [low, high])).1
    u.Admits (fun _ => False) (.int 7) ∧
      ∀ v, u.Admits (fun _ => False) v -> ∃ m ∈ [low, high], m.Admits (fun _ => False) v := by
  intro σ low high u
  have hstart : Run .empty .default (fun _ c => c ≠ .placeholder) σ [] := .new
  have hlow := hstart.call (.range ⟨some 1, some 3⟩) (by simp [Call.arguments]) (by simp)
  have hhigh := hlow.call (.range ⟨some 4, none⟩) (by simp [Call.arguments]) (by simp)
  have hconstructed : ∀ t ∈ [low, high], Constructed .empty .default t := by
    rw [List.forall_mem_cons, List.forall_mem_singleton]
    constructor
    · exact ⟨_, _, hlow, List.mem_cons_self⟩
    · exact ⟨_, _, hhigh, List.mem_cons_self⟩
  have hnew : Reachable .empty .default σ := .new
  have hu : u = (σ.perform (Union.of .default [low, high])).1 ∨
      u = (σ.perform (Union.benevolentOf .default [low, high])).1 := Or.inl rfl
  have hvalues := values_of_union (fun _ => False) hnew (by simp) hconstructed
    (by simp [low, high]) hu
  have hkeys : Union.HasOneShapePerKeys ([low, high].flatMap Union.membersOf) := by
    simp [Union.HasOneShapePerKeys, Union.membersOf, low, high]
  constructor
  · apply hvalues.1 _ high (by simp)
    exact ⟨7, rfl, by decide⟩
  · exact hvalues.2 hkeys

end Session
end GradualTypes
