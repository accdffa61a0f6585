import GradualTypes.Build
import GradualTypes.Proofs.Codes
import GradualTypes.Proofs.Parts
import GradualTypes.Proofs.Terms
import GradualTypes.Ty.Kind
import Mathlib.Data.List.Forall2

/-!
# Formed types

What the constructors guarantee of every node of a type.  Two of the guarantees
are about the relation: no member of a union is found to be contained in another
one, and no two members of an intersection are found to be related or to share no
value.  They are stated for the answers that a question may get, so that they
cover the relation without limits as well as answers of any kind.
-/

namespace GradualTypes

/-!
# Unions and intersections
-/

namespace Union

/-- Whether a type may be a member of a union. -/
def IsMember (t : Ty) : Prop :=
  t ≠ .error ∧ t ≠ .mixed ∧ t ≠ .never ∧ t.unionMembers? = none

/-- The form of the members of a union that does not depend on the relation. -/
structure IsTidy (members : List Ty) : Prop where
  two : 2 ≤ members.length
  nodup : members.Nodup
  isMember : ∀ m ∈ members, IsMember m
  sorted : Ty.IsCanonical members
  bools : ¬ (Ty.literal (.bool true) ∈ members ∧ Ty.literal (.bool false) ∈ members)
  ranges : ∀ r s, Ty.range r ∈ members -> Ty.range s ∈ members -> r ≠ s -> r.touches s = false

/-- The first type may be found not to be contained in the second one, unless
both are literals, which are not compared. -/
def Beside (replies : Ty -> Ty -> Tristate -> Prop) (x y : Ty) : Prop :=
  (x.isLiteral && y.isLiteral) = false -> ∃ r, replies x y r ∧ r ≠ .yes

/-- No member is found to be contained in another one. -/
def IsIrredundant (replies : Ty -> Ty -> Tristate -> Prop) (members : List Ty) : Prop :=
  ∀ x ∈ members, ∀ y ∈ members, x ≠ y -> Beside replies x y

end Union

namespace Intersection

/-- Whether a type may be a member of an intersection. -/
def IsMember (t : Ty) : Prop :=
  t ≠ .error ∧ t ≠ .mixed ∧ t ≠ .never ∧ ∀ members, t ≠ .inter members

/-- Two types that are not both intervals, neither of which is found to be
contained in the other one, and which are not found to share no value. -/
def Independent (replies : Ty -> Ty -> Tristate -> Prop) (x y : Ty) : Prop :=
  (x.range? = none ∨ y.range? = none) ∧
    ∃ r r', replies x y r ∧ replies y x r' ∧ r ≠ .yes ∧ r' ≠ .yes ∧ ¬ (r = .no ∧ r' = .no)

structure IsTidy (replies : Ty -> Ty -> Tristate -> Prop) (members : List Ty) : Prop where
  two : 2 ≤ members.length
  isMember : ∀ m ∈ members, IsMember m
  sorted : Ty.IsCanonical members
  independent : members.Pairwise (Independent replies)

theorem Independent.symm {replies : Ty -> Ty -> Tristate -> Prop} {x y : Ty}
    (hxy : Independent replies x y) : Independent replies y x := by
  rcases hxy with ⟨hranges, r, r', hr, hr', hne, hne', hno⟩
  exact ⟨hranges.symm, r', r, hr', hr, hne', hne, fun hboth => hno hboth.symm⟩

instance {replies : Ty -> Ty -> Tristate -> Prop} : Std.Symm (Independent replies) :=
  ⟨fun _ _ => Independent.symm⟩

/-- Every member of an intersection is independent of another one. -/
theorem IsTidy.exists_independent {replies : Ty -> Ty -> Tristate -> Prop} {members : List Ty}
    (htidy : IsTidy replies members) {m : Ty} (hm : m ∈ members) :
    ∃ n ∈ members, Independent replies m n := by
  match members, htidy.two, htidy.independent, hm with
  | a :: b :: rest, _, hindependent, hm =>
      have hpairs := (List.pairwise_cons.mp hindependent).1
      rcases List.mem_cons.mp hm with rfl | hm
      · exact ⟨b, by simp, hpairs b List.mem_cons_self⟩
      · exact ⟨a, List.mem_cons_self, (hpairs m hm).symm⟩

end Intersection

/-!
# All types
-/

namespace Ty

/-- What the constructors guarantee of a type, apart from what they guarantee of
its parts. -/
def IsFormed (replies : Ty -> Ty -> Tristate -> Prop) : Ty -> Prop
  | unknown _ => False
  | range r => r.isEmpty = false ∧ r.lo ≠ r.hi
  | array key value => key ≠ error ∧ value ≠ error
  | shape entries => (Shape.keys entries).Nodup ∧ ∀ e ∈ entries, e.value ≠ error
  | union _ members => Union.IsTidy members ∧ Union.IsIrredundant replies members
  | inter members => Intersection.IsTidy replies members
  | _ => True

/-- What the constructors guarantee of a type and of all types inside it. -/
def Formed (replies : Ty -> Ty -> Tristate -> Prop) (t : Ty) : Prop :=
  Everywhere (IsFormed replies) t

variable {replies : Ty -> Ty -> Tristate -> Prop}

theorem formed_keyword (k : Keyword) : Formed replies (.keyword k) :=
  .leaf trivial rfl

theorem formed_literal (v : Literal) : Formed replies (.literal v) :=
  .leaf trivial rfl

theorem formed_range {r : IntRange} (hr : r.isEmpty = false) (hne : r.lo ≠ r.hi) :
    Formed replies (.range r) :=
  .leaf ⟨hr, hne⟩ rfl

theorem formed_shape {entries : List (Entry Ty)} (hkeys : (Shape.keys entries).Nodup)
    (hvalues : ∀ e ∈ entries, Formed replies e.value ∧ e.value ≠ error) :
    Formed replies (.shape entries) := by
  refine .intro ⟨hkeys, fun e he => (hvalues e he).2⟩ ?_
  intro c hc
  rcases List.mem_map.mp hc with ⟨e, he, rfl⟩
  exact (hvalues e he).1

theorem Formed.hasDistinctKeys {t : Ty} (ht : Formed replies t) : Everywhere HasDistinctKeys t := by
  apply ht.imp
  intro u hu
  cases u <;> first | trivial | exact hu.1

theorem Formed.unionMember {flavor : Flavor} {members : List Ty}
    (ht : Formed replies (.union flavor members)) {m : Ty} (hm : m ∈ members) :
    Formed replies m ∧ Union.IsMember m :=
  ⟨ht.inside hm, ht.here.1.isMember m hm⟩

end Ty

/-!
# Maps of distinct keys
-/

namespace Shape

variable {α : Type}

theorem put_of_not_mem {entries : List (Entry α)} {e : Entry α} (he : e.key ∉ keys entries) :
    put entries e = entries ++ [e] := by
  induction entries with
  | nil => rfl
  | cons d rest ih =>
      simp only [keys, List.map_cons, List.mem_cons, not_or] at he
      rw [put, if_neg fun heq => he.1 heq.symm, ih he.2, List.cons_append]

theorem keys_cons (d : Entry α) (entries : List (Entry α)) :
    keys (d :: entries) = d.key :: keys entries := rfl

theorem keys_put (entries : List (Entry α)) (e : Entry α) :
    keys (put entries e) = keys entries ∨
      e.key ∉ keys entries ∧ keys (put entries e) = keys entries ++ [e.key] := by
  induction entries with
  | nil => exact Or.inr ⟨by simp [keys], rfl⟩
  | cons d rest ih =>
      unfold put
      split
      · rename_i heq
        exact Or.inl (by rw [keys_cons, keys_cons, heq])
      · rename_i hne
        rw [keys_cons, keys_cons]
        rcases ih with hkeys | ⟨hnew, hkeys⟩
        · exact Or.inl (by rw [hkeys])
        · refine Or.inr ⟨?_, by rw [hkeys, List.cons_append]⟩
          rw [List.mem_cons, not_or]
          exact ⟨fun heq => hne heq.symm, hnew⟩

theorem mem_put {entries : List (Entry α)} {e d : Entry α} (hd : d ∈ put entries e) :
    d = e ∨ d ∈ entries := by
  induction entries with
  | nil => exact Or.inl (List.mem_singleton.mp hd)
  | cons c rest ih =>
      unfold put at hd
      split at hd
      · exact (List.mem_cons.mp hd).imp_right (List.mem_cons_of_mem _)
      · rcases List.mem_cons.mp hd with rfl | hd
        · exact Or.inr List.mem_cons_self
        · exact (ih hd).imp_right (List.mem_cons_of_mem _)

/-- Putting entries into a map one by one keeps its keys distinct and brings in
only those entries. -/
theorem foldl_put {start entries : List (Entry α)} (hstart : (keys start).Nodup) :
    (keys (entries.foldl put start)).Nodup ∧
      ∀ d ∈ entries.foldl put start, d ∈ start ∨ d ∈ entries := by
  induction entries generalizing start with
  | nil => exact ⟨hstart, fun d hd => Or.inl hd⟩
  | cons e rest ih =>
      have hput : (keys (put start e)).Nodup := by
        rcases keys_put start e with hkeys | ⟨hnew, hkeys⟩
        · rwa [hkeys]
        · rw [hkeys]
          refine List.nodup_append.mpr ⟨hstart, by simp, ?_⟩
          intro k hk _ hmem heq
          subst heq
          exact hnew (List.mem_singleton.mp hmem ▸ hk)
      rcases ih hput with ⟨hnodup, hmem⟩
      constructor
      · exact hnodup
      · intro d hd
        rcases hmem d hd with hd' | hd'
        · rcases mem_put hd' with rfl | hd''
          · exact Or.inr List.mem_cons_self
          · exact Or.inl hd''
        · exact Or.inr (List.mem_cons_of_mem _ hd')

theorem nodup_keys_ofList (entries : List (Entry α)) : (keys (ofList entries)).Nodup :=
  (foldl_put (by simp [keys])).1

theorem mem_of_mem_ofList {entries : List (Entry α)} {d : Entry α} (hd : d ∈ ofList entries) :
    d ∈ entries := by
  rcases (foldl_put (by simp [keys])).2 d hd with hnil | hd'
  · cases hnil
  · exact hd'

theorem ofList_eq_self {entries : List (Entry α)} (hkeys : (keys entries).Nodup) :
    ofList entries = entries := by
  have hfold : ∀ rest start : List (Entry α), (keys (start ++ rest)).Nodup ->
      rest.foldl put start = start ++ rest := by
    intro rest
    induction rest with
    | nil => simp
    | cons e rest ih =>
        intro start hnodup
        have hnew : e.key ∉ keys start := by
          simp only [keys, List.map_append, List.map_cons, List.nodup_append] at hnodup
          exact fun hmem => hnodup.2.2 _ hmem _ List.mem_cons_self rfl
        rw [List.foldl_cons, put_of_not_mem hnew, ih (start ++ [e]) (by simpa using hnodup)]
        simp
  exact hfold entries [] hkeys

end Shape

/-!
# Terms of building
-/

/-- A building inquiry may ask anything and start series of questions, and
announces formed types only. -/
def Terms.building (replies : Ty -> Ty -> Tristate -> Prop) : Terms :=
  ⟨fun _ _ => True, replies, Ty.Formed replies, True⟩

namespace Inquiry

/-- A statement about building holds whatever is announced on the way. -/
theorem Meets.free {α : Type} {replies : Ty -> Ty -> Tristate -> Prop} {post : α -> Prop}
    {q : Inquiry α} (h : q.Meets (.building replies) post) : q.Meets (.free replies) post :=
  h.weaken (fun _ _ => id) (fun _ _ _ => id) (fun _ _ => trivial) fun _ => trivial

/-- What is known of the form of a result, together with what holds of it for other
reasons. -/
theorem Meets.and_free {α : Type} {replies : Ty -> Ty -> Tristate -> Prop}
    {post post' : α -> Prop} {q : Inquiry α} (h : q.Meets (.building replies) post)
    (h' : q.Meets (.free replies) post') : q.Meets (.free replies) fun a => post a ∧ post' a :=
  h.free.and h' fun _ _ _ => id

theorem meets_mapM {α β : Type} {terms : Terms} {f : α -> Inquiry β} {P : α -> β -> Prop}
    {items : List α} (hf : ∀ a ∈ items, (f a).Meets terms (P a)) :
    (items.mapM f).Meets terms fun results => List.Forall₂ P items results := by
  induction items with
  | nil => exact .nil
  | cons a rest ih =>
      rw [List.forall_mem_cons] at hf
      rw [List.mapM_cons]
      refine hf.1.bind fun b hb => (ih hf.2).bind fun bs hbs => ?_
      exact .cons hb hbs

theorem meets_mapM_all {α β : Type} {terms : Terms} {f : α -> Inquiry β} {P : β -> Prop}
    {items : List α} (hf : ∀ a ∈ items, (f a).Meets terms P) :
    (items.mapM f).Meets terms fun results => ∀ b ∈ results, P b := by
  refine (meets_mapM (P := fun _ => P) hf).imp fun results hresults => ?_
  clear hf
  induction hresults with
  | nil => simp
  | cons hhead _ ih => exact List.forall_mem_cons.mpr ⟨hhead, ih⟩

end Inquiry

namespace Build

open Inquiry

variable {replies : Ty -> Ty -> Tristate -> Prop}

theorem meets_int (n : Int) :
    (int n).Meets (.building replies) fun t => t = .literal (.int n) :=
  ⟨Ty.formed_literal _, rfl⟩

theorem meets_bool (b : Bool) :
    (bool b).Meets (.building replies) fun t => t = .literal (.bool b) :=
  ⟨Ty.formed_literal _, rfl⟩

/-- What becomes of an interval with integers depends on its bounds. -/
theorem meets_range_cases {r : IntRange} (hr : r.isEmpty = false) :
    (range r).Meets (.building replies) fun t =>
      (t = .int ∧ r.lo = none ∧ r.hi = none) ∨
        (∃ n, t = .literal (.int n) ∧ r.lo = some n ∧ r.hi = some n) ∨
        (t = .range r ∧ r.lo ≠ r.hi) := by
  have hbuilt : ∀ hne : r.lo ≠ r.hi, (built (.range r)).Meets (.building replies) fun t =>
      (t = .int ∧ r.lo = none ∧ r.hi = none) ∨
        (∃ n, t = .literal (.int n) ∧ r.lo = some n ∧ r.hi = some n) ∨
        (t = .range r ∧ r.lo ≠ r.hi) :=
    fun hne => ⟨Ty.formed_range hr hne, Or.inr (Or.inr ⟨rfl, hne⟩)⟩
  unfold range
  rw [hr, if_neg (by simp)]
  split
  · rename_i hlo hhi
    exact Or.inl ⟨rfl, hlo, hhi⟩
  · rename_i lo hi hlo hhi
    split
    · rename_i heq
      apply (meets_int lo).imp
      intro t ht
      exact Or.inr (Or.inl ⟨lo, ht, hlo, heq ▸ hhi⟩)
    · rename_i hne
      exact hbuilt fun heq => hne (Option.some.inj (hlo.symm.trans (heq.trans hhi)))
  · rename_i hnone hsome
    apply hbuilt
    intro heq
    cases hlo : r.lo with
    | none => exact hnone hlo (heq.symm.trans hlo)
    | some lo => exact hsome lo lo hlo (heq.symm.trans hlo)

theorem meets_range {r : IntRange} (hr : r.isEmpty = false) :
    (range r).Meets (.building replies) fun t =>
      t = .int ∨ (∃ n, t = .literal (.int n)) ∨ (t = .range r ∧ r.lo ≠ r.hi) := by
  apply (meets_range_cases hr).imp
  intro t ht
  rcases ht with ⟨ht, -⟩ | ⟨n, ht, -⟩ | ht
  · exact Or.inl ht
  · exact Or.inr (Or.inl ⟨n, ht⟩)
  · exact Or.inr (Or.inr ht)

/-- A shape whose keys are distinct and whose values are not errors is built as it
is given. -/
theorem meets_shape {entries : List (Entry Ty)} (hkeys : (Shape.keys entries).Nodup)
    (hvalues : ∀ e ∈ entries, Ty.Formed replies e.value ∧ e.value ≠ .error) :
    (shape entries).Meets (.building replies) fun t => t = .shape entries := by
  unfold shape
  split
  · rename_i herror
    rcases List.any_eq_true.mp herror with ⟨e, he, heq⟩
    exact absurd (by simpa using heq) (hvalues e he).2
  · rw [Shape.ofList_eq_self hkeys]
    exact ⟨Ty.formed_shape hkeys hvalues, rfl⟩

end Build

end GradualTypes
