import GradualTypes.Proofs.ApartBelow
import GradualTypes.Proofs.Formed
import GradualTypes.Proofs.Memory
import Mathlib.Data.List.Pairwise

/-!
# The answers for types that are apart

Between regular types, the relation answers `no` whenever the rules of being apart
apply.  The induction is on the total size of the two types.  Where an intersection
is compared with a type that is apart from one of its members, no other member can
be contained in that type, since the members of an intersection are not apart from
each other.
-/

namespace GradualTypes

/-- Whether no member is a union, if the type is an intersection.  Only an
intersection that would be distributed over too many members keeps a union. -/
def Ty.isDistributed : Ty -> Bool
  | .inter members => members.all (·.unionMembers?.isNone)
  | _ => true

namespace Subtype

open Inquiry
open Ty (Everywhere)

variable {h : Hierarchy} {relation : Ty -> Ty -> Tristate} {s t : Ty}

/-- A type each part of which is formed, stands for some values and is
distributed. -/
def IsRegular (h : Hierarchy) (t : Ty) : Prop :=
  Everywhere (fun u => u.IsFormed (Session.exactly h) ∧ u.isAbsent = false ∧
    u.isDistributed = true) t

/-- Types of a smaller total size that are apart get the answer `no`. -/
def NoBelow (h : Hierarchy) (n : Nat) : Prop :=
  ∀ s t : Ty, s.size + t.size < n -> IsRegular h s -> IsRegular h t -> Apart h s t ->
    exact h s t = .no

theorem IsRegular.isPopulated (ht : IsRegular h t) : IsPopulated t :=
  ht.imp fun _ hu => hu.2.1

theorem isRegular_ofKey (key : Key) : IsRegular h (Ty.ofKey key) := by
  cases key <;> exact .leaf ⟨trivial, rfl, rfl⟩ rfl

/-!
# Categories
-/

theorem exists_category (hs : s.isOrdinary = true) (hsimple : s.isSimple = true) :
    ∃ c, c ∈ s.categories := by
  cases s with
  | keyword k =>
      cases k <;> first
        | exact ⟨_, List.mem_cons_self⟩
        | simp [Ty.isOrdinary] at hs
  | literal v => cases v <;> exact ⟨_, List.mem_cons_self⟩
  | accessory a => cases a <;> exact ⟨_, List.mem_cons_self⟩
  | union flavor members => cases hsimple
  | inter members => cases hsimple
  | error => simp [Ty.isOrdinary, Ty.isMissing] at hs
  | placeholder => simp [Ty.isOrdinary, Ty.isMissing] at hs
  | unknown n => simp [Ty.isOrdinary, Ty.isUnknown] at hs
  | _ => exact ⟨_, List.mem_cons_self⟩

theorem categories_of_base? {k : Keyword} (hk : s.base? = some k) : s.categories = k.categories := by
  cases s <;> simp [Ty.base?] at hk <;> subst hk <;> rfl

theorem value_inSimple_of_categories (hs : s.isOrdinary = true) (hsimple : s.isSimple = true)
    (ht : t.isOrdinary = true) (hdiffer : ∀ c ∈ s.categories, c ∉ t.categories) :
    (inSimple h s t).value relation = .no := by
  cases t with
  | keyword k =>
      have hbase : k ≠ .mixed -> s.base? ≠ some k := by
        intro hk hsk
        rw [categories_of_base? hsk] at hdiffer
        cases k <;> simp [Ty.isOrdinary, Ty.categories, Keyword.categories] at hdiffer ht hk
      cases k with
      | object =>
          cases s with
          | keyword k => cases k <;> first | rfl | simp [Ty.categories, Keyword.categories] at hdiffer
          | object cls arguments => simp [Ty.categories, Keyword.categories] at hdiffer
          | this cls => simp [Ty.categories, Keyword.categories] at hdiffer
          | _ => rfl
      | callable =>
          cases s with
          | keyword k =>
              cases k with
              | mixed => simp [Ty.isOrdinary] at hs
              | _ => first | rfl | simp [Ty.categories, Keyword.categories] at hdiffer
          | literal v =>
              cases v <;> first
                | rfl
                | simp [Ty.categories, Literal.base, Keyword.categories] at hdiffer
          | accessory a =>
              cases a <;> simp [Ty.categories, Keyword.categories] at hdiffer
          | union flavor members => cases hsimple
          | inter members => cases hsimple
          | _ => first | rfl | simp [Ty.categories, Keyword.categories] at hdiffer
      | mixed => simp [Ty.isOrdinary] at ht
      | _ => simp [inSimple, inKeyword, hbase, Tristate.ofBool]
  | literal v =>
      cases s with
      | keyword k =>
          simp only [inSimple, inLiteral, value_pure]
          rw [if_neg]
          intro hcase
          rcases hcase with rfl | ⟨rfl, hv⟩
          · cases v <;> simp [Ty.categories, Literal.base, Keyword.categories] at hdiffer
          · simp [Ty.categories, hv, Keyword.categories] at hdiffer
      | range r =>
          cases v <;> first | rfl | simp [Ty.categories, Literal.base, Keyword.categories] at hdiffer
      | _ => rfl
  | accessory a =>
      cases a <;> cases s with
      | keyword k => cases k <;> first | rfl | simp [Ty.categories, Keyword.categories] at hdiffer
      | literal v =>
          cases v <;> first | rfl | simp [Ty.categories, Literal.base, Keyword.categories] at hdiffer
      | accessory a => cases a <;> first | rfl | simp [Ty.categories] at hdiffer
      | _ => first | rfl | simp [Ty.categories] at hdiffer
  | _ =>
      cases s with
      | keyword k => cases k <;> first | rfl | simp [Ty.categories, Keyword.categories] at hdiffer
      | literal v =>
          cases v <;> first | rfl | simp [Ty.categories, Literal.base, Keyword.categories] at hdiffer
      | _ => first | rfl | simp [Ty.categories] at hdiffer

/-!
# Rules between simple types
-/

theorem surplusKeys_eq_no {source target : List (Entry Ty)} {e : Entry Ty} (he : e ∈ source)
    (hrequired : e.optional = false) (hnone : Shape.entry? target e.key = none) :
    surplusKeys source target = .no := by
  refine Tristate.all_eq_no_iff.mpr (List.mem_map.mpr ⟨e, ?_, by simp [hrequired]⟩)
  exact List.mem_filter.mpr ⟨he, by simp [hnone]⟩

/-- A key that only one of two shapes declares, and requires, keeps them apart. -/
theorem value_shapeInShape_of_missing {source target : List (Entry Ty)} {e : Entry Ty}
    (he : e ∈ source) (hrequired : e.optional = false)
    (hnone : Shape.entry? target e.key = none) :
    (shapeInShape source target).value relation = .no ∧
      (shapeInShape target source).value relation = .no := by
  constructor
  · simp [shapeInShape, surplusKeys_eq_no he hrequired hnone]
  · have hentry : (inEntry target e).value relation = .no := by
      simp [inEntry, hnone, hrequired]
    unfold shapeInShape
    split
    · rfl
    · rw [value_allFrom, Tristate.and_eq_no_iff, Tristate.all_eq_no_iff]
      exact Or.inr (List.mem_map.mpr ⟨e, he, hentry⟩)

theorem value_shapeInShape_of_values {source target : List (Entry Ty)} {e f : Entry Ty}
    (hkeys : (Shape.keys source).Nodup) (he : e ∈ source) (hf : f ∈ target)
    (hkey : e.key = f.key) (hoptional : ¬ (e.optional = true ∧ f.optional = true))
    (hno : relation e.value f.value = .no) :
    (shapeInShape source target).value relation = .no := by
  have hentry : (inEntry source f).value relation = .no := by
    simp only [inEntry, ← hkey, Shape.entry?_eq_self hkeys he, value_bind, value_isContained, hno]
    cases heo : e.optional <;> cases hfo : f.optional <;> simp_all
  unfold shapeInShape
  split
  · rfl
  · rw [value_allFrom, Tristate.and_eq_no_iff, Tristate.all_eq_no_iff]
    exact Or.inr (List.mem_map.mpr ⟨f, hf, hentry⟩)

/-- An entry that no array of the given types may have keeps a shape apart from
them. -/
theorem value_arrayInShape_of_entry {entries : List (Entry Ty)} {e : Entry Ty} {k v : Ty}
    (he : e ∈ entries) (hrequired : e.optional = false)
    (hentry : (mayHaveEntry k v e).value relation = false) :
    (arrayInShape k v entries).value relation = .no := by
  induction entries with
  | nil => cases he
  | cons d rest ih =>
      unfold arrayInShape
      rcases List.mem_cons.mp he with rfl | he
      · simp [hrequired, hentry]
      · split
        · exact ih he
        · rw [value_bind]
          split
          · exact ih he
          · rfl

theorem value_inArguments_eq_no {source target : List Ty} {pair : Ty × Ty}
    (hlength : source.length = target.length) (hpair : pair ∈ source.zip target)
    (hno : relation pair.1 pair.2 = .no) :
    (inArguments source target).value relation = .no := by
  have hne := List.ne_nil_of_mem (List.of_mem_zip hpair).2
  unfold inArguments
  rw [if_neg (by simpa using hne), if_neg (by simpa using hlength), value_all,
    Tristate.all_eq_no_iff]
  exact List.mem_map.mpr ⟨pair, hpair, hno⟩

theorem value_inSimple_of_classes {c d : String} (hc : s.className? = some c)
    (hd : t.className? = some d) (hdisjoint : h.kinship c d = .disjoint) :
    (inSimple h s t).value relation = .no := by
  rcases className?_cases hc with ⟨arguments, rfl⟩ | rfl <;>
    rcases className?_cases hd with ⟨arguments', rfl⟩ | rfl <;>
    simp [inSimple, inObject, inThis, hdisjoint]

section Clash

variable (hno : NoBelow h (s.size + t.size)) (hs : IsRegular h s) (ht : IsRegular h t)

include hno hs ht in
theorem exact_no_of_children {a b : Ty} (ha : a ∈ s.children) (hb : b ∈ t.children)
    (hapart : Apart h a b) : exact h a b = .no ∧ exact h b a = .no := by
  have hasize := Ty.size_lt_of_mem_children ha
  have hbsize := Ty.size_lt_of_mem_children hb
  exact ⟨hno a b (by omega) (hs.inside ha) (ht.inside hb) hapart,
    hno b a (by omega) (ht.inside hb) (hs.inside ha) hapart.symm⟩

include hno in
theorem exact_no_of_key {key : Key} {k : Ty} (hk : k ∈ s.children ∨ k ∈ t.children)
    (hregular : IsRegular h k) (hapart : Apart h (Ty.ofKey key) k) :
    exact h (Ty.ofKey key) k = .no := by
  have hone := Ty.size_ofKey key
  have hspos := s.size_pos
  have htpos := t.size_pos
  have hsize : k.size < s.size ∨ k.size < t.size :=
    hk.imp Ty.size_lt_of_mem_children Ty.size_lt_of_mem_children
  exact hno _ k (by omega) (isRegular_ofKey key) hregular hapart

include hno hs ht in
theorem value_inSimple_of_clash (hclash : Clash h (Apart h) s t) :
    (inSimple h s t).value (exact h) = .no ∧ (inSimple h t s).value (exact h) = .no := by
  cases hclash with
  | categories hs hordinary hs' hsimple hdiffer =>
      exact ⟨value_inSimple_of_categories hs hs' hordinary hdiffer,
        value_inSimple_of_categories hordinary hsimple hs fun c hc hc' => hdiffer c hc' hc⟩
  | literals hne => exact ⟨rfl, rfl⟩
  | literal_range hn =>
      exact ⟨by simp [inSimple, inRange, hn, Tristate.ofBool], by simp [inSimple, inLiteral, hn]⟩
  | @ranges r r' hoverlap =>
      have hanswer : ∀ a b : IntRange, a.isEmpty = false -> a.overlaps b = false ->
          inRange (.range a) b = .no := by
        intro a b ha hab
        have hwithin : a.within b = false := by
          apply Bool.eq_false_iff.mpr
          intro hwithin
          have hself := IntRange.overlaps_of_within hwithin (IntRange.overlaps_comm a b ▸ hab)
          exact absurd ((IntRange.overlaps_self ha).symm.trans hself) (by decide)
        simp [inRange, hwithin, hab]
      exact ⟨hanswer r r' hs.here.1.1 hoverlap,
        hanswer r' r ht.here.1.1 (IntRange.overlaps_comm r r' ▸ hoverlap)⟩
  | empty_text => exact ⟨rfl, rfl⟩
  | classes hc hd hdisjoint =>
      exact ⟨value_inSimple_of_classes hc hd hdisjoint,
        value_inSimple_of_classes hd hc (Hierarchy.kinship_disjoint_comm.mp hdisjoint)⟩
  | @arguments c d source target pair hcls hlength hpair hapart =>
      rcases exact_no_of_children hno hs ht (List.of_mem_zip hpair).1 (List.of_mem_zip
          hpair).2 hapart with ⟨hno', hno''⟩
      have hpair' : pair.swap ∈ target.zip source := by
        rw [← List.zip_swap]
        exact List.mem_map_of_mem hpair
      simp only [inSimple, inObject, Hierarchy.kinship_eq_same_iff.mpr hcls,
        Hierarchy.kinship_eq_same_iff.mpr hcls.symm]
      exact ⟨value_inArguments_eq_no hlength hpair hno',
        value_inArguments_eq_no hlength.symm hpair' hno''⟩
  | uncallable hcall => exact ⟨hcall, rfl⟩
  | property hc hname =>
      rcases className?_cases hc with ⟨arguments, rfl⟩ | rfl <;> exact ⟨hname, rfl⟩
  | missing he hrequired hnone => exact value_shapeInShape_of_missing he hrequired hnone
  | values he hf hkey hoptional hapart =>
      rcases exact_no_of_children hno hs ht (Ty.mem_children_shape he) (Ty.mem_children_shape
          hf) hapart with ⟨hno', hno''⟩
      exact ⟨value_shapeInShape_of_values hs.here.1.1 he hf hkey hoptional hno',
        value_shapeInShape_of_values ht.here.1.1 hf he hkey.symm
          (fun hboth => hoptional hboth.symm) hno''⟩
  | @entry_key entries e k v he hrequired hapart =>
      have hk := Ty.mem_children_key k v
      have hkey := exact_no_of_key hno (Or.inr hk) (ht.inside hk) hapart
      refine ⟨?_, value_arrayInShape_of_entry he hrequired ?_⟩
      · simp only [inSimple, inArray, value_all, Tristate.all_eq_no_iff]
        refine List.mem_map.mpr ⟨e, he, ?_⟩
        simp [value_entryInArray, hrequired, hkey]
      · simp [mayHaveEntry, value_key, hkey]
  | @entry_value entries e k v he hrequired hapart =>
      have hv := Ty.mem_children_value k v
      rcases exact_no_of_children hno hs ht (Ty.mem_children_shape he) hv hapart with ⟨hno', hno''⟩
      refine ⟨?_, value_arrayInShape_of_entry he hrequired ?_⟩
      · simp only [inSimple, inArray, value_all, Tristate.all_eq_no_iff]
        refine List.mem_map.mpr ⟨e, he, ?_⟩
        simp [value_entryInArray, hrequired, hno']
      · by_cases hkey : exact h (Ty.ofKey e.key) k = .no <;>
          simp [mayHaveEntry, value_key, hkey, hno', hno'']
  | empty_shape => exact ⟨rfl, rfl⟩
  | offset_missing hnone => exact ⟨by simp [inSimple, inAccessory, inHasOffset, hnone], rfl⟩
  | @offset_key key k v hapart =>
      have hk := Ty.mem_children_key k v
      have hkey := exact_no_of_key hno (Or.inl hk) (hs.inside hk) hapart
      exact ⟨by simp [inSimple, inAccessory, inHasOffset, value_key, hkey], rfl⟩

include hno hs ht in
theorem Clash.ne (hclash : Clash h (Apart h) s t) : s ≠ t := by
  intro heq
  have hself : ∀ u ∈ s.children, u ∈ t.children -> ¬ Apart h u u := by
    intro u hu hu' hapart
    have hno' := (exact_no_of_children hno hs ht hu hu' hapart).1
    exact absurd ((exact_self h u).symm.trans hno') (by decide)
  cases hclash with
  | categories hordinary _ hsimple _ hdiffer =>
      rcases exists_category hordinary hsimple with ⟨c, hc⟩
      exact hdiffer c hc (heq ▸ hc)
  | literals hne => exact hne (by cases heq; rfl)
  | ranges hoverlap =>
      cases heq
      exact absurd ((IntRange.overlaps_self hs.here.1.1).symm.trans hoverlap) (by decide)
  | classes hc hd hdisjoint =>
      cases heq
      cases Option.some.inj (hc.symm.trans hd)
      simp [Hierarchy.kinship] at hdisjoint
  | arguments hcls hlength hpair hapart =>
      cases heq
      rcases List.getElem_of_mem hpair with ⟨i, hi, rfl⟩
      rw [List.getElem_zip] at hapart
      exact hself _ (List.getElem_mem _) (List.getElem_mem _) hapart
  | property hc hname =>
      subst heq
      cases hc
  | missing he hrequired hnone =>
      cases heq
      rcases Shape.entry?_isSome he with ⟨d, hd⟩
      cases hnone.symm.trans hd
  | values he hf hkey hoptional hapart =>
      cases heq
      have he' := Shape.entry?_eq_self hs.here.1.1 he
      have hf' := Shape.entry?_eq_self hs.here.1.1 hf
      cases Option.some.inj (he'.symm.trans (hkey ▸ hf'))
      exact hself _ (Ty.mem_children_shape he) (Ty.mem_children_shape he) hapart
  | _ => cases heq

end Clash

theorem exact_no_of_inSimple (hs : s.isOrdinary = true) (ht : t.isOrdinary = true)
    (hs' : s.isSimple = true) (ht' : t.isSimple = true) (hne : s ≠ t)
    (hst : (inSimple h s t).value (exact h) = .no)
    (hts : (inSimple h t s).value (exact h) = .no) : exact h s t = .no := by
  rw [exact_of_ne hne, check_simple hs ht hs' ht']
  split
  · rename_i hconstraint
    simp only [Bool.and_eq_true, Bool.not_eq_true'] at hconstraint
    have hswap : exact h t s = .no := by
      rw [exact_of_ne hne.symm, check_simple ht hs ht' hs', hconstraint.2]
      exact hts
    simp [constraintIn, hswap]
  · exact hst

theorem exact_no_of_clash (hno : NoBelow h (s.size + t.size)) (hs : IsRegular h s)
    (ht : IsRegular h t) (hclash : Clash h (Apart h) s t) :
    exact h s t = .no ∧ exact h t s = .no := by
  have hne := hclash.ne hno hs ht
  rcases value_inSimple_of_clash hno hs ht hclash with ⟨hst, hts⟩
  rcases hclash.isSimple with ⟨hs', ht'⟩
  rcases hclash.isOrdinary with ⟨hos, hot⟩
  exact ⟨exact_no_of_inSimple hos hot hs' ht' hne hst hts,
    exact_no_of_inSimple hot hos ht' hs' hne.symm hts hst⟩

/-!
# All regular types
-/

theorem isOrdinary_of_not_absent (hs : s.isAbsent = false) (hmixed : s ≠ .mixed) :
    s.isOrdinary = true := by
  cases s <;> simp_all [Ty.isAbsent, Ty.isOrdinary, Ty.isUnknown, Ty.isMissing]

theorem IsRegular.exists_member {flavor : Flavor} {members : List Ty}
    (hs : IsRegular h (.union flavor members)) : ∃ m, m ∈ members :=
  List.exists_mem_of_length_pos (Nat.lt_of_lt_of_le (by decide) hs.here.1.1.two)

theorem IsRegular.not_apart_mixed (ht : IsRegular h t) : ¬ Apart h .mixed t := by
  intro hapart
  generalize hmixed : Ty.mixed = u at hapart
  induction hapart with
  | absent_left habsent => subst hmixed; cases habsent
  | absent_right habsent => cases habsent.symm.trans ht.here.2.1
  | union_left _ _ => cases hmixed
  | union_right _ ih =>
      rcases ht.exists_member with ⟨m, hm⟩
      exact ih m hm (ht.inside hm) hmixed
  | inter_left _ _ _ => cases hmixed
  | inter_right hm _ ih => exact ih (ht.inside hm) hmixed
  | clash _ hclash _ => subst hmixed; cases hclash.isOrdinary.1
  | clash_symm _ hclash _ => subst hmixed; cases hclash.isOrdinary.2

/-- The members of a regular intersection are neither unions nor intersections. -/
theorem IsRegular.member {members : List Ty} (hs : IsRegular h (.inter members)) {m : Ty}
    (hm : m ∈ members) : m.isSimple = true ∧ m.isOrdinary = true := by
  rcases hs.here with ⟨hformed, -, hdistributed⟩
  rcases hformed.isMember m hm with ⟨-, hmixed, -, hinter⟩
  have hunion := List.all_eq_true.mp hdistributed m hm
  constructor
  · cases m <;> first | rfl | exact absurd rfl (hinter _) | cases hunion
  · exact isOrdinary_of_not_absent (hs.inside hm).here.2.1 hmixed

theorem IsRegular.not_apart_members {members : List Ty} (hs : IsRegular h (.inter members))
    (hno : NoBelow h (Ty.inter members).size) {m m' : Ty} (hm : m ∈ members)
    (hm' : m' ∈ members) (hne : m ≠ m') : ¬ Apart h m m' := by
  intro hapart
  have hsize := Ty.size_add_size_le_sizes hm hm' hne
  have hlt : m.size + m'.size < (Ty.inter members).size := by
    simp only [Ty.size]
    omega
  rcases hs.here.1.independent.forall hm hm' hne with ⟨-, r, r', rfl, rfl, -, -, hboth⟩
  exact hboth ⟨hno m m' hlt (hs.inside hm) (hs.inside hm') hapart,
    hno m' m (by omega) (hs.inside hm') (hs.inside hm) hapart.symm⟩

/-- A type that is neither a union nor an intersection and is apart from an
intersection is apart from a member. -/
theorem Apart.exists_member {members : List Ty} (hapart : Apart h s (.inter members))
    (hs : s.isSimple = true) (hordinary : s.isOrdinary = true) : ∃ m ∈ members, Apart h s m := by
  rcases hapart.simple_cases hs hordinary with
    habsent | ⟨_, _, heq, _⟩ | ⟨ts, heq, hmember⟩ | hclash | hclash
  · cases habsent
  · cases heq
  · cases heq
    exact hmember
  · cases hclash.isSimple.2
  · cases hclash.isSimple.1

/-- What is apart from an intersection is apart from one of its members. -/
theorem IsRegular.exists_member_apart {members : List Ty} (hs : IsRegular h s)
    (hunion : s.unionMembers? = none) (hmixed : s ≠ .mixed)
    (hapart : Apart h s (.inter members)) : ∃ m ∈ members, Apart h s m := by
  cases s with
  | inter ts =>
      rcases hapart.inter_cases with ⟨m, hm, hmt⟩ | habsent | ⟨_, _, heq, _⟩ | ⟨us, heq, hmember⟩
      · rcases hs.member hm with ⟨hsimple, hordinary⟩
        rcases hmt.exists_member hsimple hordinary with ⟨u, hu, hmu⟩
        exact ⟨u, hu, .inter_left hm hmu⟩
      · cases habsent
      · cases heq
      · cases heq
        exact hmember
  | union flavor ts => cases hunion
  | _ => exact hapart.exists_member rfl (isOrdinary_of_not_absent hs.here.2.1 hmixed)

theorem IsRegular.not_apart_self (hs : IsRegular h s) (hno : NoBelow h (s.size + s.size)) :
    ¬ Apart h s s := by
  intro hapart
  have hchild : ∀ m ∈ s.children, ¬ Apart h m m := by
    intro m hm hmm
    have hsize := Ty.size_lt_of_mem_children hm
    have hanswer := hno m m (by omega) (hs.inside hm) (hs.inside hm) hmm
    exact absurd ((exact_self h m).symm.trans hanswer) (by decide)
  have hclash : ¬ Clash h (Apart h) s s := fun hclash => hclash.ne hno hs hs rfl
  by_cases hmixed : s = .mixed
  · subst hmixed
    exact hs.not_apart_mixed hapart
  · cases s with
    | union flavor members =>
        rcases hs.exists_member with ⟨m, hm⟩
        exact hchild m hm ((hapart.mem_union hm).symm.mem_union hm)
    | inter members =>
        rcases hs.exists_member_apart rfl hmixed hapart with ⟨m, hm, hmt⟩
        rcases hs.member hm with ⟨hsimple, hordinary⟩
        rcases hmt.symm.exists_member hsimple hordinary with ⟨u, hu, hmu⟩
        by_cases hne : m = u
        · exact hchild m hm (hne ▸ hmu)
        · refine hs.not_apart_members (fun a b hab => hno a b (by omega)) hm hu hne hmu
    | _ =>
        rcases hapart.simple_cases rfl (isOrdinary_of_not_absent hs.here.2.1 hmixed) with
          habsent | ⟨_, _, heq, _⟩ | ⟨_, heq, _⟩ | hclash' | hclash'
        · cases habsent.symm.trans hs.here.2.1
        · cases heq
        · cases heq
        · exact hclash hclash'
        · exact hclash hclash'

/-!
# The answer
-/

section Answers

variable (hlawful : h.IsLawful) (hno : NoBelow h (s.size + t.size)) (hs : IsRegular h s)
  (ht : IsRegular h t)

include hlawful hno hs ht in
/-- An intersection and a type apart from it: some member gets the answer `no`, and
no member gets the answer `yes`. -/
theorem exact_no_of_apart_inter {members : List Ty} (hinter : s = .inter members)
    (hsimple : t.isSimple = true) (hordinary : t.isOrdinary = true) (hapart : Apart h s t) :
    exact h s t = .no := by
  subst hinter
  have hmember : ∀ m ∈ members, Apart h m t -> exact h m t = .no := by
    intro m hm
    have hsize := Ty.size_lt_of_mem_children (t := .inter members) hm
    exact hno m t (by omega) (hs.inside hm) ht
  rcases hapart.symm.exists_member hsimple hordinary with ⟨m, hm, htm⟩
  have hmt := hmember m hm htm.symm
  rw [exact_of_ne (by rintro rfl; cases hsimple), check_inter_left hordinary hsimple,
    value_decisive, Tristate.decisive_eq_no_iff]
  constructor
  · intro hyes
    rcases List.mem_map.mp hyes with ⟨m', hm', hm't⟩
    -- a member contained in the other type would be apart from the first member
    have hne : m' ≠ m := by
      intro heq
      subst heq
      exact absurd (hm't.symm.trans hmt) (by decide)
    refine hs.not_apart_members (fun a b hab => hno a b (by omega)) hm' hm hne ?_
    exact .of_contained hlawful (IsRegular.isPopulated (hs.inside hm')) hm't htm
  · exact List.mem_map.mpr ⟨m, hm, hmt⟩

include hlawful hno hs ht in
theorem exact_no_of_apart_below (hapart : Apart h s t) : exact h s t = .no := by
  have hleft : ∀ m ∈ s.children, Apart h m t -> exact h m t = .no := by
    intro m hm
    have hsize := Ty.size_lt_of_mem_children hm
    exact hno m t (by omega) (hs.inside hm) ht
  have hright : ∀ m ∈ t.children, Apart h s m -> exact h s m = .no := by
    intro m hm
    have hsize := Ty.size_lt_of_mem_children hm
    exact hno s m (by omega) hs (ht.inside hm)
  have hos : s.isOrdinary = true := by
    apply isOrdinary_of_not_absent hs.here.2.1
    intro heq
    subst heq
    exact ht.not_apart_mixed hapart
  have hot : t.isOrdinary = true := by
    apply isOrdinary_of_not_absent ht.here.2.1
    intro hsame
    subst hsame
    exact hs.not_apart_mixed hapart.symm
  have hne : s ≠ t := by
    intro hsame
    subst hsame
    exact hs.not_apart_self hno hapart
  rcases s.union_or_inter_or_simple with ⟨flavor, members, rfl⟩ | hother
  · rcases hs.exists_member with ⟨m, hm⟩
    rw [exact_of_ne hne, check_union_left hot, value_unanimous,
      Tristate.unanimous_eq_iff (by decide)]
    constructor
    · simpa using List.ne_nil_of_mem hm
    · intro a ha
      rcases List.mem_map.mp ha with ⟨u, hu, rfl⟩
      exact hleft u hu (hapart.mem_union hu)
  · have hsu : s.unionMembers? = none := by
      rcases hother with ⟨members, rfl⟩ | hss
      · rfl
      · exact Ty.unionMembers?_of_isSimple hss
    rcases t.union_or_inter_or_simple with ⟨flavor, members, rfl⟩ | ⟨members, rfl⟩ | hts
    · rw [exact_of_ne hne, check_union_right hos hsu, value_any, Tristate.any_eq_no_iff]
      intro a ha
      rcases List.mem_map.mp ha with ⟨u, hu, rfl⟩
      exact hright u hu (hapart.symm.mem_union hu).symm
    · have hmixed : s ≠ .mixed := by
        intro heq
        subst heq
        cases hos
      rcases hs.exists_member_apart hsu hmixed hapart with ⟨m, hm, hsm⟩
      rw [exact_of_ne hne, check_inter_right hos hsu, value_all, Tristate.all_eq_no_iff]
      exact List.mem_map.mpr ⟨m, hm, hright m hm hsm⟩
    · rcases hother with ⟨members, rfl⟩ | hss
      · exact exact_no_of_apart_inter hlawful hno hs ht rfl hts hot hapart
      · rcases hapart.simple_cases hss hos with
          habsent | ⟨_, _, rfl, _⟩ | ⟨_, rfl, _⟩ | hclash | hclash
        · cases habsent.symm.trans ht.here.2.1
        · cases hts
        · cases hts
        · exact (exact_no_of_clash hno hs ht hclash).1
        · exact (exact_no_of_clash (Nat.add_comm _ _ ▸ hno) ht hs hclash).2

end Answers

theorem noBelow (hlawful : h.IsLawful) (n : Nat) : NoBelow h n := by
  induction n with
  | zero =>
      intro s t hsize
      exact absurd hsize (Nat.not_lt_zero _)
  | succ n ih =>
      intro s t hsize hs ht hapart
      refine exact_no_of_apart_below hlawful (fun a b hab => ?_) hs ht hapart
      exact ih a b (by omega)

/-- No regular type is apart from itself, since the answer would be `no`. -/
theorem IsRegular.not_apart (hlawful : h.IsLawful) (hs : IsRegular h s) : ¬ Apart h s s :=
  hs.not_apart_self (noBelow hlawful _)

end Subtype
end GradualTypes
