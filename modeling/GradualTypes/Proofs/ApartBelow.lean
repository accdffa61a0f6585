import GradualTypes.Proofs.Apart
import GradualTypes.Proofs.Exact
import GradualTypes.Proofs.Ranges
import GradualTypes.Proofs.Transitivity
import Mathlib.Data.List.Zip

/-!
# What is contained in types that are apart

If two types are apart, then so is everything that is certainly contained in one
of them, unless it contains a type without values.  Like transitivity, this is by
induction on the total size of three types, and between types that are neither
unions nor intersections each rule of containment meets each rule of being apart.
-/

namespace GradualTypes
namespace Subtype

open Ty (Everywhere)

variable {h : Hierarchy} {R : Ty -> Ty -> Prop} {x a b : Ty}

/-- Every part of the type stands for some values. -/
def IsPopulated (t : Ty) : Prop :=
  Everywhere (fun u => u.isAbsent = false) t

/-- Being apart passes to contained types of a smaller total size. -/
def ApartBelow (h : Hierarchy) (n : Nat) : Prop :=
  ∀ x a b : Ty, x.size + a.size + b.size < n -> IsPopulated x -> Contained h x a ->
    Apart h a b -> Apart h x b

/-!
# What the rules of containment keep
-/

theorem Fits.categories (hfits : Fits h R x a) : ∀ c ∈ x.categories, c ∈ a.categories := by
  cases hfits with
  | literal_base v => exact fun c hc => hc
  | _ => simp [Ty.categories, Keyword.categories, Literal.base]

theorem Fits.className (hfits : Fits h R x a) {c : String} (hc : a.className? = some c) :
    ∃ d, x.className? = some d ∧ h.Descends d c := by
  cases hfits <;> simp only [Ty.className?, Option.some.injEq, reduceCtorEq] at hc
  · exact ⟨_, rfl, hc ▸ ‹_›⟩
  · rename_i heq _ _
    exact ⟨_, rfl, hc ▸ Hierarchy.descends_of_eq heq⟩
  · exact ⟨_, rfl, hc ▸ ‹_›⟩
  · exact ⟨_, rfl, hc ▸ ‹_›⟩

theorem Fits.of_callable (hfits : Fits h R x .callable) :
    x = .callable ∨ ∃ c, x.className? = some c ∧ h.isInvokable c = .yes := by
  generalize ht : Ty.callable = t at hfits
  cases hfits with
  | same k => exact Or.inl rfl
  | literal_base v => cases v <;> cases ht
  | object_callable hcall => exact Or.inr ⟨_, rfl, hcall⟩
  | this_callable hcall => exact Or.inr ⟨_, rfl, hcall⟩
  | _ => cases ht

/-- What a shape has under the key of an entry of a shape that it fits into. -/
theorem Fits.entry_cases {source target : List (Entry Ty)}
    (hfits : Fits h R (.shape source) (.shape target)) {t : Entry Ty} (ht : t ∈ target) :
    (Shape.entry? source t.key = none ∧ t.optional = true) ∨
      ∃ s, Shape.entry? source t.key = some s ∧ R s.value t.value ∧
        (s.optional = true -> t.optional = true) := by
  cases hfits with
  | shape_shape hkeys hmissing hvalues =>
      cases hs : Shape.entry? source t.key with
      | none => exact Or.inl ⟨rfl, hmissing t ht hs⟩
      | some s => exact Or.inr ⟨s, rfl, hvalues t ht s hs⟩

theorem Fits.shape_source {target : List (Entry Ty)} (hfits : Fits h R x (.shape target)) :
    ∃ source, x = .shape source := by
  cases hfits with
  | shape_shape _ _ _ => exact ⟨_, rfl⟩

theorem Fits.entry?_none {source target : List (Entry Ty)}
    (hfits : Fits h R (.shape source) (.shape target)) {key : Key}
    (hnone : Shape.entry? target key = none) : Shape.entry? source key = none := by
  cases hfits with
  | shape_shape hkeys hmissing hvalues =>
      cases hs : Shape.entry? source key with
      | none => rfl
      | some s =>
          rcases Shape.mem_of_entry? hs with ⟨hmem, rfl⟩
          rcases hkeys s hmem with ⟨t, ht⟩
          exact absurd (hnone.symm.trans ht) (by simp)

/-- Shapes with apart values under a key that one of them requires. -/
theorem apart_of_values {source target : List (Entry Ty)} {e f : Entry Ty} (he : e ∈ source)
    (hf : f ∈ target) (hkey : e.key = f.key)
    (hoptional : ¬ (e.optional = true ∧ f.optional = true)) (hvalues : Apart h e.value f.value) :
    Apart h (.shape source) (.shape target) :=
  .of_clash (.values he hf hkey hoptional hvalues)

theorem apart_of_missing {source target : List (Entry Ty)} {e : Entry Ty} (he : e ∈ source)
    (hrequired : e.optional = false) (hnone : Shape.entry? target e.key = none) :
    Apart h (.shape source) (.shape target) :=
  .of_clash (.missing he hrequired hnone)

theorem apart_of_disjoint {c d : String} (hc : a.className? = some c)
    (hd : b.className? = some d) (hdisjoint : h.kinship c d = .disjoint) : Apart h a b :=
  .of_clash (.classes hc hd hdisjoint)

/-!
# Keys and arguments
-/

theorem isPopulated_ofKey (key : Key) : IsPopulated (Ty.ofKey key) := by
  cases key <;> exact .leaf rfl rfl

/-- A key that belongs to the keys of an array is not apart from them. -/
theorem not_apart_of_key (hbelow : ApartBelow h (x.size + a.size + b.size)) {key : Key} {u k : Ty}
    (hu : u ∈ x.children) (hk : k ∈ a.children) (hkey : Contained h (Ty.ofKey key) k) :
    ¬ Apart h (Ty.ofKey key) k := by
  intro hapart
  have hone := Ty.size_ofKey key
  have husize := Ty.size_lt_of_mem_children hu
  have hupos := u.size_pos
  have hksize := Ty.size_lt_of_mem_children hk
  have hbpos := b.size_pos
  exact not_apart_ofKey key
    (hbelow (Ty.ofKey key) k (Ty.ofKey key) (by omega) (isPopulated_ofKey key) hkey hapart.symm)

theorem apart_of_arguments {c d : String} {source middle target : List Ty}
    (hcls : c.toLower = d.toLower) (hlength : source.length = middle.length)
    (hlength' : middle.length = target.length)
    (hparts : ∀ pair ∈ source.zip middle, R pair.1 pair.2)
    {pair : Ty × Ty} (hpair : pair ∈ middle.zip target) (hapart : Apart h pair.1 pair.2)
    (hdown : ∀ u ∈ source, ∀ v ∈ middle, ∀ w ∈ target, R u v -> Apart h v w -> Apart h u w) :
    Apart h (.object c source) (.object d target) := by
  rcases List.getElem_of_mem hpair with ⟨i, hi, rfl⟩
  simp only [List.length_zip] at hi
  simp only [List.getElem_zip] at hapart
  have hs : i < source.length := by omega
  have hm : i < middle.length := by omega
  have ht : i < target.length := by omega
  have hsource : (source[i], middle[i]) ∈ source.zip middle :=
    List.mem_iff_getElem.mpr ⟨i, by simp only [List.length_zip]; omega, by simp⟩
  have hnew : (source[i], target[i]) ∈ source.zip target :=
    List.mem_iff_getElem.mpr ⟨i, by simp only [List.length_zip]; omega, by simp⟩
  refine .of_clash (.arguments hcls (hlength.trans hlength') hnew ?_)
  exact hdown _ (List.getElem_mem _) _ (List.getElem_mem _) _ (List.getElem_mem _)
    (hparts _ hsource) hapart

/-- A shape that fits into another one is apart from what this one is apart from because of the
values of a key. -/
theorem apart_of_fits_values {middle target : List (Entry Ty)} {e f : Entry Ty}
    (hbelow : ApartBelow h (x.size + (Ty.shape middle).size + (Ty.shape target).size))
    (hpopulated : IsPopulated x) (hfits : Fits h (Contained h) x (.shape middle)) (he : e ∈ middle)
    (hf : f ∈ target) (hkey : e.key = f.key)
    (hoptional : ¬ (e.optional = true ∧ f.optional = true)) (hparts : Apart h e.value f.value) :
    Apart h x (.shape target) := by
  rcases hfits.shape_source with ⟨source, rfl⟩
  rcases hfits.entry_cases he with ⟨hnone, heo⟩ | ⟨s, hs, hvalue, hso⟩
  · refine (apart_of_missing hf ?_ (hkey ▸ hnone)).symm
    exact Bool.eq_false_iff.mpr fun hfo => hoptional ⟨heo, hfo⟩
  · rcases Shape.mem_of_entry? hs with ⟨hmem, hkey'⟩
    refine apart_of_values hmem hf (hkey'.trans hkey)
      (fun hboth => hoptional ⟨hso hboth.1, hboth.2⟩) ?_
    have hsize := Ty.size_of_children (Ty.mem_children_shape hmem) (Ty.mem_children_shape he)
      (Ty.mem_children_shape hf)
    exact hbelow _ _ _ hsize (hpopulated.value hmem) hvalue hparts

/-!
# Containment in the first type of a rule
-/

section Fits

variable (hlawful : h.IsLawful) (hbelow : ApartBelow h (x.size + a.size + b.size))
  (hpopulated : IsPopulated x) (hx : x.isOrdinary = true) (hfits : Fits h (Contained h) x a)

include hlawful hbelow hpopulated hx hfits in
theorem apart_of_fits_left (hclash : Clash h (Apart h) a b) : Apart h x b := by
  cases hclash with
  | categories ha hb ha' hb' hdiffer =>
      exact .of_clash (.categories hx hb hfits.isSimple.1 hb'
        fun c hc => hdiffer c (hfits.categories c hc))
  | literals hne => cases hfits
  | literal_range hn => cases hfits
  | @ranges r r' hoverlap =>
      cases hfits with
      | literal_range hn =>
          refine .of_clash (.literal_range ?_)
          exact IntRange.contains_of_overlaps hn hoverlap
      | range_range hwithin =>
          exact .of_clash (.ranges (IntRange.overlaps_of_within hwithin hoverlap))
  | empty_text => cases hfits
  | classes hc hd hdisjoint =>
      rcases hfits.className hc with ⟨e, he, hdescends⟩
      exact apart_of_disjoint he hd (hlawful.disjoint_of_descends hdescends hdisjoint)
  | arguments hcls hlength hpair hparts =>
      have hne := List.ne_nil_of_mem (List.of_mem_zip hpair).1
      cases hfits with
      | object_bare hdescends => exact absurd rfl hne
      | this_bare hdescends => exact absurd rfl hne
      | object_arguments hcls' hlength' hpairs =>
          apply apart_of_arguments (hcls'.trans hcls) hlength' hlength hpairs hpair hparts
          intro u hu v hv w hw
          exact hbelow u v w (Ty.size_of_children hu hv hw) (hpopulated.inside hu)
  | uncallable hno =>
      cases hfits with
      | this_this hdescends =>
          have heq := hlawful.final _ _ (Hierarchy.isFinal_of_isInvokable hno) hdescends
          exact .of_clash (.uncallable ((Hierarchy.isInvokable_congr heq).trans hno))
  | property hc hno =>
      rcases hfits.className hc with ⟨d, hd, hdescends⟩
      have heq := hlawful.final _ _ (Hierarchy.isFinal_of_hasFeature hno) hdescends
      exact .of_clash (.property hd ((Hierarchy.hasFeature_congr heq).trans hno))
  | missing he hrequired hnone =>
      cases x with
      | shape source =>
          rcases required_of_fits hfits he hrequired with ⟨s, hs, hso⟩
          rcases Shape.mem_of_entry? hs with ⟨hmem, hkey⟩
          exact apart_of_missing hmem hso (hkey ▸ hnone)
      | _ => cases hfits
  | values he hf hkey hoptional hparts =>
      exact apart_of_fits_values hbelow hpopulated hfits he hf hkey hoptional hparts
  | entry_key he hrequired hparts =>
      rcases hfits.shape_source with ⟨source, rfl⟩
      rcases required_of_fits hfits he hrequired with ⟨s, hs, hso⟩
      rcases Shape.mem_of_entry? hs with ⟨hmem, hkey⟩
      exact .of_clash (.entry_key hmem hso (hkey ▸ hparts))
  | @entry_value entries e k v he hrequired hparts =>
      rcases hfits.shape_source with ⟨source, rfl⟩
      rcases hfits.entry_cases he with ⟨-, heo⟩ | ⟨s, hs, hvalue, hso⟩
      · exact absurd (hrequired.symm.trans heo) (by decide)
      · rcases Shape.mem_of_entry? hs with ⟨hmem, hkey⟩
        have hsize := Ty.size_of_children (Ty.mem_children_shape hmem) (Ty.mem_children_shape he)
          (Ty.mem_children_value k v)
        refine .of_clash (.entry_value hmem ?_ ?_)
        · exact Bool.eq_false_iff.mpr fun hso' => absurd (hrequired.symm.trans (hso hso')) (by decide)
        · exact hbelow _ _ _ hsize (hpopulated.value hmem) hvalue hparts
  | empty_shape =>
      rcases hfits.shape_source with ⟨source, rfl⟩
      cases source with
      | nil => exact .of_clash .empty_shape
      | cons e rest =>
          have hnone : Shape.entry? (e :: rest) e.key = none := hfits.entry?_none rfl
          simp [Shape.entry?] at hnone
  | offset_missing hnone =>
      rcases hfits.shape_source with ⟨source, rfl⟩
      exact .of_clash (.offset_missing (hfits.entry?_none hnone))
  | @offset_key key k v hparts =>
      cases hfits with
      | @array_array k' v' _ _ hk hv =>
          have hone := Ty.size_ofKey key
          refine .of_clash (.offset_key (Apart.symm ?_))
          refine hbelow _ _ _ ?_ (hpopulated.inside (Ty.mem_children_key k' v')) hk hparts.symm
          simp only [Ty.size]
          omega
      | @shape_array entries _ _ hentries =>
          cases hw : Shape.entry? entries key with
          | none => exact .of_clash (.offset_missing hw)
          | some w =>
              rcases Shape.mem_of_entry? hw with ⟨hmem, rfl⟩
              exact absurd hparts (not_apart_of_key hbelow (Ty.mem_children_shape hmem)
                (Ty.mem_children_key k v) (hentries w hmem).1)

/-!
# Containment in the second type of a rule
-/

include hlawful hbelow hpopulated hx hfits in
theorem apart_of_fits_right (hclash : Clash h (Apart h) b a) : Apart h x b := by
  cases hclash with
  | categories hb ha hb' ha' hdiffer =>
      exact .of_clash (.categories hx hb hfits.isSimple.1 hb'
        fun c hc hcb => hdiffer c hcb (hfits.categories c hc))
  | literals hne => cases hfits
  | @literal_range n r hn =>
      cases hfits with
      | @literal_range m _ hm =>
          refine .of_clash (.literals fun heq => ?_)
          cases heq
          exact absurd (hn.symm.trans hm) (by decide)
      | range_range hwithin =>
          refine (Apart.of_clash (.literal_range (Bool.eq_false_iff.mpr fun hm => ?_))).symm
          exact absurd (hn.symm.trans (IntRange.contains_of_within hm hwithin)) (by decide)
  | @ranges r r' hoverlap =>
      rw [IntRange.overlaps_comm] at hoverlap
      cases hfits with
      | literal_range hn =>
          exact .of_clash (.literal_range (IntRange.contains_of_overlaps hn hoverlap))
      | range_range hwithin =>
          exact .of_clash (.ranges (IntRange.overlaps_of_within hwithin hoverlap))
  | empty_text =>
      cases hfits with
      | text_nonEmpty hs => exact .of_clash (.literals fun heq => hs (by cases heq; rfl))
  | classes hc hd hdisjoint =>
      rcases hfits.className hd with ⟨e, he, hdescends⟩
      exact apart_of_disjoint he hc
        (hlawful.disjoint_of_descends hdescends (Hierarchy.kinship_disjoint_comm.mp hdisjoint))
  | @arguments c d source target pair hcls hlength hpair hparts =>
      have hne := List.ne_nil_of_mem (List.of_mem_zip hpair).2
      have hpair' : pair.swap ∈ target.zip source := by
        rw [← List.zip_swap]
        exact List.mem_map_of_mem hpair
      cases hfits with
      | object_bare hdescends => exact absurd rfl hne
      | this_bare hdescends => exact absurd rfl hne
      | object_arguments hcls' hlength' hpairs =>
          refine apart_of_arguments (hcls'.trans hcls.symm) hlength' hlength.symm hpairs hpair'
            hparts.symm ?_
          intro u hu v hv w hw
          exact hbelow u v w (Ty.size_of_children hu hv hw) (hpopulated.inside hu)
  | uncallable hno =>
      rcases hfits.of_callable with rfl | ⟨d, hd, hcall⟩
      · exact (Apart.of_clash (.uncallable hno)).symm
      · exact apart_of_disjoint hd rfl (hlawful.disjoint_of_invokable hcall hno)
  | property hc hno =>
      cases hfits with
      | object_hasProperty hname =>
          exact apart_of_disjoint rfl hc (hlawful.disjoint_of_feature hname hno)
      | this_hasProperty hname =>
          exact apart_of_disjoint rfl hc (hlawful.disjoint_of_feature hname hno)
  | missing he hrequired hnone =>
      rcases hfits.shape_source with ⟨source, rfl⟩
      exact (apart_of_missing he hrequired (hfits.entry?_none hnone)).symm
  | values he hf hkey hoptional hparts =>
      exact apart_of_fits_values hbelow hpopulated hfits hf he hkey.symm
        (fun hboth => hoptional hboth.symm) hparts.symm
  | @entry_key entries e k v he hrequired hparts =>
      cases hfits with
      | @array_array k' v' _ _ hk hv =>
          have hone := Ty.size_ofKey e.key
          have hsize := Ty.size_of_children (Ty.mem_children_key k' v') (Ty.mem_children_key k v)
            (Ty.mem_children_shape he)
          have hpos := e.value.size_pos
          refine (Apart.of_clash (.entry_key he hrequired (Apart.symm ?_))).symm
          exact hbelow _ _ _ (by omega) (hpopulated.inside (Ty.mem_children_key k' v')) hk
            hparts.symm
      | @shape_array source _ _ hentries =>
          cases hw : Shape.entry? source e.key with
          | none => exact (apart_of_missing he hrequired hw).symm
          | some w =>
              rcases Shape.mem_of_entry? hw with ⟨hmem, hkey⟩
              exact absurd hparts (not_apart_of_key hbelow (Ty.mem_children_shape hmem)
                (Ty.mem_children_key k v) (hkey ▸ (hentries w hmem).1))
  | @entry_value entries e k v he hrequired hparts =>
      cases hfits with
      | @array_array k' v' _ _ hk hv =>
          have hsize := Ty.size_of_children (Ty.mem_children_value k' v')
            (Ty.mem_children_value k v) (Ty.mem_children_shape he)
          refine (Apart.of_clash (.entry_value he hrequired (Apart.symm ?_))).symm
          exact hbelow _ _ _ hsize (hpopulated.inside (Ty.mem_children_value k' v')) hv hparts.symm
      | @shape_array source _ _ hentries =>
          cases hw : Shape.entry? source e.key with
          | none => exact (apart_of_missing he hrequired hw).symm
          | some w =>
              rcases Shape.mem_of_entry? hw with ⟨hmem, hkey⟩
              refine apart_of_values hmem he hkey (fun hboth => ?_) ?_
              · exact absurd (hrequired.symm.trans hboth.2) (by decide)
              · have hsize := Ty.size_of_children (Ty.mem_children_shape hmem)
                  (Ty.mem_children_value k v) (Ty.mem_children_shape he)
                exact hbelow _ _ _ hsize (hpopulated.value hmem) (hentries w hmem).2 hparts.symm
  | empty_shape =>
      cases hfits with
      | @shape_nonEmpty entries hrequired =>
          rcases Shape.hasRequired_iff.mp hrequired with ⟨e, he, heo⟩
          exact apart_of_missing he heo rfl
      | hasOffset_nonEmpty key => exact (Apart.of_clash (.offset_missing rfl)).symm
  | offset_missing hnone =>
      cases hfits with
      | shape_hasOffset he hrequired =>
          rcases Shape.mem_of_entry? he with ⟨hmem, rfl⟩
          exact apart_of_missing hmem hrequired hnone
  | offset_key hparts =>
      cases hfits with
      | shape_hasOffset he hrequired =>
          rcases Shape.mem_of_entry? he with ⟨hmem, rfl⟩
          exact .of_clash (.entry_key hmem hrequired hparts)

end Fits

/-!
# All types
-/

theorem apart_of_certain (hlawful : h.IsLawful)
    (hbelow : ApartBelow h (x.size + a.size + b.size)) (hpopulated : IsPopulated x)
    (hcertain : Certain h (Contained h) x a) (hapart : Apart h a b) : Apart h x b := by
  have hcontained := hcertain.contained
  have hpart : ∀ u ∈ b.children, Apart h a u -> Apart h x u := by
    intro u hu
    have hsize := Ty.size_lt_of_mem_children hu
    exact hbelow x a u (by omega) hpopulated hcontained
  have hsource : ∀ m ∈ x.children, Contained h m a -> Apart h m b := by
    intro m hm hma
    have hsize := Ty.size_lt_of_mem_children hm
    exact hbelow m a b (by omega) (hpopulated.inside hm) hma hapart
  have htarget : ∀ m ∈ a.children, Contained h x m -> Apart h m b -> Apart h x b := by
    intro m hm
    have hsize := Ty.size_lt_of_mem_children hm
    exact hbelow x m b (by omega) hpopulated
  cases hcertain with
  | mixed hs => exact hapart.of_mixed x
  | never ht => cases hpopulated.here
  | union_left ht hne hall => exact .union_left fun m hm => hsource m hm (hall m hm)
  | union_right hs hunion hm hR => exact htarget _ hm hR (hapart.mem_union hm)
  | inter_right hs hunion hall =>
      rcases hapart.inter_cases with ⟨m, hm, hmb⟩ | habsent | ⟨_, ts, rfl, hts⟩ | ⟨ts, rfl, u, hu, hau⟩
      · exact htarget m hm (hall m hm) hmb
      · exact .absent_right habsent
      · exact .union_right fun u hu => hpart u hu (hts u hu)
      · exact .inter_right hu (hpart u hu hau)
  | inter_left ht hsimple hm hR => exact .inter_left hm (hsource _ hm hR)
  | fits hs ht hfits =>
      rcases hapart.simple_cases hfits.isSimple.2 ht with
        habsent | ⟨_, ts, rfl, hts⟩ | ⟨ts, rfl, u, hu, hau⟩ | hclash | hclash
      · exact .absent_right habsent
      · exact .union_right fun u hu => hpart u hu (hts u hu)
      · exact .inter_right hu (hpart u hu hau)
      · exact apart_of_fits_left hlawful hbelow hpopulated hs hfits hclash
      · exact apart_of_fits_right hlawful hbelow hpopulated hs hfits hclash

theorem apartBelow (hlawful : h.IsLawful) (n : Nat) : ApartBelow h n := by
  induction n with
  | zero =>
      intro x a b hsize
      exact absurd hsize (Nat.not_lt_zero _)
  | succ n ih =>
      intro x a b hsize hpopulated hcontained hapart
      rcases contained_iff.mp hcontained with rfl | hcertain
      · exact hapart
      · refine apart_of_certain hlawful (fun x' a' b' hlt => ?_) hpopulated hcertain hapart
        exact ih x' a' b' (by omega)

/-- What is contained in a type is apart from everything that the type is apart
from. -/
theorem Apart.of_contained (hlawful : h.IsLawful) (hpopulated : IsPopulated x)
    (hcontained : Contained h x a) (hapart : Apart h a b) : Apart h x b :=
  apartBelow hlawful _ x a b (Nat.lt_succ_self _) hpopulated hcontained hapart

end Subtype
end GradualTypes
