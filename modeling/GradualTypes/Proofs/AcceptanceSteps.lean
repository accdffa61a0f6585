import GradualTypes.Acceptance
import GradualTypes.Proofs.Rules

/-!
# Steps of acceptance

Acceptance takes the two types apart in a fixed order: a union on the side of the value first,
then a union or an intersection on the side of the acceptor, then an intersection on the side of
the value.  There is one equation for each of these steps, and one induction that follows them.
-/

namespace GradualTypes

namespace Inquiry

variable {α β : Type}

theorem allFrom_map (known : Tristate) (question : β -> Inquiry Tristate) (f : α -> β)
    (items : List α) :
    allFrom known (fun a => question (f a)) items = allFrom known question (items.map f) := by
  induction items generalizing known with
  | nil => rfl
  | cons a rest ih => simp only [allFrom, List.map_cons, ih]

theorem anyFrom_map (known : Tristate) (question : β -> Inquiry Tristate) (f : α -> β)
    (items : List α) :
    anyFrom known (fun a => question (f a)) items = anyFrom known question (items.map f) := by
  induction items generalizing known with
  | nil => rfl
  | cons a rest ih => simp only [anyFrom, List.map_cons, ih]

theorem all_attach (question : α -> Inquiry Tristate) (items : List α) :
    all (fun a => question a.1) items.attach = all question items := by
  rw [all, allFrom_map _ question Subtype.val, List.attach_map_subtype_val]
  rfl

theorem any_attach (question : α -> Inquiry Tristate) (items : List α) :
    any (fun a => question a.1) items.attach = any question items := by
  rw [any, anyFrom_map _ question Subtype.val, List.attach_map_subtype_val]
  rfl

end Inquiry

namespace Acceptance

open Inquiry

variable {h : Hierarchy} {options : Options} {strict : Bool} {members : List Ty}
  {flavor : Flavor} {a t : Ty}

/-!
# Equations
-/

theorem accepts_settled {answer : Tristate} (hsettled : settled? a t = some answer) :
    accepts h options strict a t = pure answer := by
  rw [accepts.eq_def, hsettled]

/-- Whether some member of a union is enough for the union to be accepted. -/
def needsOne (options : Options) (flavor : Flavor) : Bool :=
  flavor = .benevolent && options.benevolentAcceptance

theorem accepts_union_value (hopen : settled? a (.union flavor members) = none) :
    accepts h options strict a (.union flavor members) =
      if needsOne options flavor then any (accepts h options strict a) members
      else all (accepts h options strict a) members := by
  rw [accepts.eq_def, hopen, ← any_attach (accepts h options strict a),
    ← all_attach (accepts h options strict a)]
  rfl

theorem accepts_mixed_value (hopen : settled? a .mixed = none) :
    accepts h options strict a .mixed = pure .maybe := by
  rw [accepts.eq_def, hopen]

section Flat

variable (hflat : t.unionMembers? = none) (hmixed : t ≠ .mixed)
include hflat hmixed

theorem accepts_union (hopen : settled? (.union flavor members) t = none) :
    accepts h options strict (.union flavor members) t =
      any (fun m => accepts h options strict m t) members := by
  rw [accepts.eq_def, hopen, ← any_attach fun m => accepts h options strict m t]
  dsimp only
  split
  · cases hflat
  · exact absurd rfl hmixed
  · rfl

theorem accepts_inter (hopen : settled? (.inter members) t = none) :
    accepts h options strict (.inter members) t =
      all (fun m => accepts h options strict m t) members := by
  rw [accepts.eq_def, hopen, ← all_attach fun m => accepts h options strict m t]
  dsimp only
  split
  · cases hflat
  · exact absurd rfl hmixed
  · rfl

end Flat

theorem accepts_inter_value (hsimple : a.isSimple = true)
    (hopen : settled? a (.inter members) = none) :
    accepts h options strict a (.inter members) = (do
      let byMember ← any (accepts h options strict a) members
      if byMember = .yes then
        return .yes
      else
        return byMember.or (← isContained (.inter members) a)) := by
  rw [accepts.eq_def, hopen, ← any_attach (accepts h options strict a)]
  cases a with
  | union flavor others => cases hsimple
  | inter others => cases hsimple
  | _ => rfl

theorem accepts_simple (hsimple : a.isSimple = true) (hsimple' : t.isSimple = true)
    (hmixed : t ≠ .mixed) (hopen : settled? a t = none) :
    accepts h options strict a t = simple h strict a t := by
  have hvalue : ∀ {u : Ty}, u.isSimple = true -> u ≠ .mixed -> settled? a u = none ->
      accepts h options strict a u = simple h strict a u := by
    intro u hu hmixed hopen
    rw [accepts.eq_def, hopen]
    cases a with
    | union flavor others => cases hsimple
    | inter others => cases hsimple
    | _ =>
        dsimp only
        split
        · cases hu
        · exact absurd rfl hmixed
        · split
          · cases hu
          · rfl
  exact hvalue hsimple' hmixed hopen

/-!
# Induction
-/

/-- Acceptance comes down to types that are not taken apart. -/
@[elab_as_elim]
theorem accepts_induction {motive : Ty -> Ty -> Prop}
    (settled : ∀ a t answer, settled? a t = some answer -> motive a t)
    (values : ∀ a flavor members, settled? a (.union flavor members) = none ->
      (∀ m ∈ members, motive a m) -> motive a (.union flavor members))
    (mixed : ∀ a, settled? a .mixed = none -> motive a .mixed)
    (union : ∀ t flavor members, t.unionMembers? = none -> t ≠ .mixed ->
      settled? (.union flavor members) t = none -> (∀ m ∈ members, motive m t) ->
      motive (.union flavor members) t)
    (inter : ∀ t members, t.unionMembers? = none -> t ≠ .mixed ->
      settled? (.inter members) t = none -> (∀ m ∈ members, motive m t) ->
      motive (.inter members) t)
    (parts : ∀ a members, a.isSimple = true -> settled? a (.inter members) = none ->
      (∀ m ∈ members, motive a m) -> motive a (.inter members))
    (simple : ∀ a t, a.isSimple = true -> t.isSimple = true -> t ≠ .mixed ->
      settled? a t = none -> motive a t) (a t : Ty) : motive a t := by
  induction hsize : a.size + t.size using Nat.strongRecOn generalizing a t with
  | _ n ih =>
      subst hsize
      have hlt : ∀ {u m : Ty}, m ∈ u.children -> m.size < u.size := Ty.size_lt_of_mem_children
      cases hopen : settled? a t with
      | some answer => exact settled a t answer hopen
      | none =>
          by_cases hmixed : t = .mixed
          · subst hmixed
            exact mixed a hopen
          · rcases Ty.union_or_inter_or_simple t with ⟨flavor, members, rfl⟩ | hvalue
            · exact values a flavor members hopen fun m hm =>
                ih _ (Nat.add_lt_add_left (hlt hm) _) a m rfl
            · have hflat : t.unionMembers? = none := by
                rcases hvalue with ⟨members, rfl⟩ | hsimple'
                · rfl
                · exact Ty.unionMembers?_of_isSimple hsimple'
              rcases Ty.union_or_inter_or_simple a with ⟨flavor, members, rfl⟩ | ⟨members, rfl⟩ |
                hsimple
              · exact union t flavor members hflat hmixed hopen fun m hm =>
                  ih _ (Nat.add_lt_add_right (hlt hm) _) m t rfl
              · exact inter t members hflat hmixed hopen fun m hm =>
                  ih _ (Nat.add_lt_add_right (hlt hm) _) m t rfl
              · rcases hvalue with ⟨members, rfl⟩ | hsimple'
                · exact parts a members hsimple hopen fun m hm =>
                    ih _ (Nat.add_lt_add_left (hlt hm) _) a m rfl
                · exact simple a t hsimple hsimple' hmixed hopen

end Acceptance
end GradualTypes
