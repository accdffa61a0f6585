import GradualTypes.Proofs.Exact
import GradualTypes.Proofs.Parts
import GradualTypes.Proofs.Ranges

/-!
# Transitivity of certain containment

What is certainly contained in a second type is certainly contained in whatever
certainly contains the second type.  The induction is on the total size of the
three types: a union on the left is taken apart first, then the middle type, and
between simple types each rule is composed with the rules that can follow it.
-/

namespace GradualTypes

namespace Subtype

open Ty (Everywhere)

variable {h : Hierarchy} {R : Ty -> Ty -> Prop} {a b c : Ty}

/-- How the source of a rule looks: it is the bottom type, a union whose members
are contained, or neither a union nor one of the extremes. -/
theorem Certain.source_cases (hcertain : Certain h R a b) (hb : b.isOrdinary = true) :
    a = .never ∨
      (∃ flavor members, a = .union flavor members ∧ members ≠ [] ∧ ∀ m ∈ members, R m b) ∨
      (a.isOrdinary = true ∧ a.unionMembers? = none) := by
  cases hcertain with
  | mixed hs => simp [Ty.isOrdinary] at hb
  | never ht => exact Or.inl rfl
  | union_left ht hne hall => exact Or.inr (Or.inl ⟨_, _, rfl, hne, hall⟩)
  | union_right hs hunion hm hR => exact Or.inr (Or.inr ⟨hs, hunion⟩)
  | inter_right hs hunion hall => exact Or.inr (Or.inr ⟨hs, hunion⟩)
  | inter_left ht hsimple hm hR => exact Or.inr (Or.inr ⟨isOrdinary_inter, rfl⟩)
  | fits hs ht hfits => exact Or.inr (Or.inr ⟨hs, by cases hfits <;> rfl⟩)

theorem isUnknown_of_isOrdinary (hordinary : a.isOrdinary = true) : a.isUnknown = false := by
  simp only [Ty.isOrdinary, Bool.and_eq_true, Bool.not_eq_true'] at hordinary
  exact hordinary.1.1.1

theorem Certain.isUnknown (hcertain : Certain h R a b) :
    a.isUnknown = false ∧ b.isUnknown = false := by
  cases hcertain with
  | mixed hs => exact ⟨hs, rfl⟩
  | never ht => exact ⟨rfl, ht⟩
  | union_left ht hne hall => exact ⟨rfl, isUnknown_of_isOrdinary ht⟩
  | union_right hs hunion hm hR => exact ⟨isUnknown_of_isOrdinary hs, rfl⟩
  | inter_right hs hunion hall => exact ⟨isUnknown_of_isOrdinary hs, rfl⟩
  | inter_left ht hsimple hm hR => exact ⟨rfl, isUnknown_of_isOrdinary ht⟩
  | fits hs ht hfits => exact ⟨isUnknown_of_isOrdinary hs, isUnknown_of_isOrdinary ht⟩

/-- Containment is transitive through `b` for types of a smaller total size. -/
def TransitiveBelow (h : Hierarchy) (n : Nat) : Prop :=
  ∀ a b c : Ty, a.size + b.size + c.size < n -> Everywhere Ty.HasDistinctKeys a ->
    Contained h a b -> Contained h b c -> Contained h a c

theorem zip_trans {as bs cs : List Ty} (hab : as.length = bs.length)
    (hbc : bs.length = cs.length)
    (hfirst : ∀ pair ∈ as.zip bs, R pair.1 pair.2)
    (hsecond : ∀ pair ∈ bs.zip cs, R pair.1 pair.2)
    (htrans : ∀ a ∈ as, ∀ b ∈ bs, ∀ c ∈ cs, R a b -> R b c -> R a c) :
    ∀ pair ∈ as.zip cs, R pair.1 pair.2 := by
  induction as generalizing bs cs with
  | nil => simp
  | cons a as ih =>
      cases bs with
      | nil => simp at hab
      | cons b bs =>
          cases cs with
          | nil => simp at hbc
          | cons c cs =>
              simp only [List.zip_cons_cons, List.forall_mem_cons] at hfirst hsecond ⊢
              refine ⟨htrans a List.mem_cons_self b List.mem_cons_self c List.mem_cons_self
                hfirst.1 hsecond.1, ?_⟩
              apply ih (by simpa using hab) (by simpa using hbc) hfirst.2 hsecond.2
              intro a ha b hb c hc
              exact htrans a (List.mem_cons_of_mem _ ha) b (List.mem_cons_of_mem _ hb)
                c (List.mem_cons_of_mem _ hc)

/-!
# Composition of the rules between simple types
-/

theorem size_of_key (key : Key) {u v w : Ty} (hu : u ∈ a.children) (hv : v ∈ b.children)
    (hw : w ∈ c.children) : (Ty.ofKey key).size + v.size + w.size < a.size + b.size + c.size := by
  have hsize := Ty.size_of_children hu hv hw
  have hone := Ty.size_ofKey key
  have hpos := u.size_pos
  omega

theorem shape_array_trans {source target : List (Entry Ty)} {k v : Ty}
    (htrans : TransitiveBelow h
      ((Ty.shape source).size + (Ty.shape target).size + (Ty.array k v).size))
    (hparts : Everywhere Ty.HasDistinctKeys (.shape source))
    (hkeys : ∀ s ∈ source, ∃ t, Shape.entry? target s.key = some t)
    (hvalues : ∀ t ∈ target, ∀ s, Shape.entry? source t.key = some s ->
      Contained h s.value t.value ∧ (s.optional = true -> t.optional = true))
    (hentries : ∀ t ∈ target, Contained h (Ty.ofKey t.key) k ∧ Contained h t.value v) :
    Fits h (Contained h) (.shape source) (.array k v) := by
  refine .shape_array fun s hs => ?_
  rcases hkeys s hs with ⟨t, ht⟩
  rcases Shape.mem_of_entry? ht with ⟨htmem, htkey⟩
  rcases hentries t htmem with ⟨hkey, hvalue⟩
  -- distinct keys make the entry that is compared with `t` the one given
  have hself : Shape.entry? source t.key = some s := by
    rw [htkey]
    exact Shape.entry?_eq_self hparts.here hs
  have hsize := Ty.size_of_children (Ty.mem_children_shape hs) (Ty.mem_children_shape htmem)
    (Ty.mem_children_value k v)
  exact ⟨htkey ▸ hkey, htrans _ _ _ hsize (hparts.value hs) (hvalues t htmem s hself).1 hvalue⟩

theorem shape_shape_trans {source middle target : List (Entry Ty)}
    (htrans : TransitiveBelow h
      ((Ty.shape source).size + (Ty.shape middle).size + (Ty.shape target).size))
    (hparts : Everywhere Ty.HasDistinctKeys (.shape source))
    (hfirst : Fits h (Contained h) (.shape source) (.shape middle))
    (hsecond : Fits h (Contained h) (.shape middle) (.shape target)) :
    Fits h (Contained h) (.shape source) (.shape target) := by
  cases hfirst with
  | shape_shape hkeys hmissing hvalues =>
      cases hsecond with
      | shape_shape hkeys' hmissing' hvalues' =>
          refine .shape_shape ?_ ?_ ?_
          · intro s hs
            rcases hkeys s hs with ⟨m, hm⟩
            rcases Shape.mem_of_entry? hm with ⟨hmem, hkey⟩
            rcases hkeys' m hmem with ⟨t, ht⟩
            exact ⟨t, hkey ▸ ht⟩
          · intro t ht hnone
            cases hm : Shape.entry? middle t.key with
            | none => exact hmissing' t ht hm
            | some m =>
                rcases Shape.mem_of_entry? hm with ⟨hmem, hkey⟩
                exact (hvalues' t ht m hm).2 (hmissing m hmem (hkey ▸ hnone))
          · intro t ht s hs
            rcases Shape.mem_of_entry? hs with ⟨hsmem, hskey⟩
            rcases hkeys s hsmem with ⟨m, hm⟩
            rcases Shape.mem_of_entry? hm with ⟨hmem, hmkey⟩
            rw [hskey] at hm hmkey
            rcases hvalues m hmem s (hmkey ▸ hs) with ⟨hvalue, hoptional⟩
            rcases hvalues' t ht m hm with ⟨hvalue', hoptional'⟩
            have hsize := Ty.size_of_children (Ty.mem_children_shape hsmem)
              (Ty.mem_children_shape hmem) (Ty.mem_children_shape ht)
            exact ⟨htrans _ _ _ hsize (hparts.value hsmem) hvalue hvalue',
              fun hso => hoptional' (hoptional hso)⟩

/-- A shape that fits into one with a required entry has that entry as a required
one. -/
theorem required_of_fits {source target : List (Entry Ty)}
    (hfits : Fits h R (.shape source) (.shape target)) {t : Entry Ty} (ht : t ∈ target)
    (hrequired : t.optional = false) :
    ∃ s, Shape.entry? source t.key = some s ∧ s.optional = false := by
  cases hfits with
  | shape_shape hkeys hmissing hvalues =>
      cases hs : Shape.entry? source t.key with
      | none => simp [hmissing t ht hs] at hrequired
      | some s =>
          refine ⟨s, rfl, ?_⟩
          cases hso : s.optional with
          | false => rfl
          | true => simp [(hvalues t ht s hs).2 hso] at hrequired

theorem arguments_trans {child parent top : String} {source middle target : List Ty}
    (htrans : TransitiveBelow h ((Ty.object child source).size +
      (Ty.object parent middle).size + (Ty.object top target).size))
    (hparts : Everywhere Ty.HasDistinctKeys (.object child source))
    (hfirst : Fits h (Contained h) (.object child source) (.object parent middle))
    (hsecond : Fits h (Contained h) (.object parent middle) (.object top target)) :
    Fits h (Contained h) (.object child source) (.object top target) := by
  have hdescends : ∀ {c d : String} {as bs : List Ty},
      Fits h (Contained h) (.object c as) (.object d bs) -> h.Descends c d := by
    intro c d as bs hfits
    cases hfits with
    | object_bare hdescends => exact hdescends
    | object_arguments hcls _ _ => exact Hierarchy.descends_of_eq hcls
  have hall := (hdescends hfirst).trans (hdescends hsecond)
  cases hsecond with
  | object_bare _ => exact .object_bare hall
  | object_arguments hcls hlength hpairs =>
      cases hfirst with
      | object_bare _ =>
          obtain rfl : target = [] := List.length_eq_zero_iff.mp hlength.symm
          exact .object_bare hall
      | object_arguments hcls' hlength' hpairs' =>
          refine .object_arguments (hcls'.trans hcls) (hlength'.trans hlength) ?_
          apply zip_trans hlength' hlength hpairs' hpairs
          intro a ha b hb c hc
          exact htrans a b c (Ty.size_of_children ha hb hc) (hparts.inside ha)

theorem fits_trans (hfinal : h.LeavesClosureFinal)
    (htrans : TransitiveBelow h (a.size + b.size + c.size))
    (hparts : Everywhere Ty.HasDistinctKeys a) (hab : Fits h (Contained h) a b)
    (hbc : Fits h (Contained h) b c) : Fits h (Contained h) a c := by
  cases hab with
  | same k => exact hbc
  | literal_base v => cases hbc with | same k => exact .literal_base v
  | range_int r => cases hbc with | same k => exact .range_int r
  | object_object cls arguments =>
      cases hbc with | same k => exact .object_object cls arguments
  | this_object cls => cases hbc with | same k => exact .this_object cls
  | object_callable hcall => cases hbc with | same k => exact .object_callable hcall
  | this_callable hcall => cases hbc with | same k => exact .this_callable hcall
  | literal_range hn =>
      cases hbc with
      | range_int r => exact .literal_base (.int _)
      | range_range hwithin => exact .literal_range (IntRange.contains_of_within hn hwithin)
  | range_range hwithin =>
      cases hbc with
      | range_int r => exact .range_int _
      | range_range hwithin' => exact .range_range (IntRange.within_trans hwithin hwithin')
  | object_bare hdescends =>
      cases hbc with
      | object_object cls arguments => exact .object_object _ _
      | object_callable hcall => exact .object_callable (hdescends.isInvokable hfinal hcall)
      | object_bare hdescends' => exact .object_bare (hdescends.trans hdescends')
      | object_arguments hcls hlength hpairs =>
          exact arguments_trans htrans hparts (.object_bare hdescends)
            (.object_arguments hcls hlength hpairs)
      | object_hasProperty hname => exact .object_hasProperty (hdescends.hasFeature hname)
  | object_arguments hcls hlength hpairs =>
      have hdescends := h.descends_of_eq hcls
      cases hbc with
      | object_object cls arguments => exact .object_object _ _
      | object_callable hcall => exact .object_callable (hdescends.isInvokable hfinal hcall)
      | object_bare hdescends' => exact .object_bare (hdescends.trans hdescends')
      | object_arguments hcls' hlength' hpairs' =>
          exact arguments_trans htrans hparts (.object_arguments hcls hlength hpairs)
            (.object_arguments hcls' hlength' hpairs')
      | object_hasProperty hname => exact .object_hasProperty (hdescends.hasFeature hname)
  | this_bare hdescends =>
      cases hbc with
      | object_object cls arguments => exact .this_object _
      | object_callable hcall => exact .this_callable (hdescends.isInvokable hfinal hcall)
      | object_bare hdescends' => exact .this_bare (hdescends.trans hdescends')
      | object_arguments hcls hlength hpairs =>
          rcases List.length_eq_zero_iff.mp hlength.symm with rfl
          exact .this_bare (hdescends.trans (h.descends_of_eq hcls))
      | object_hasProperty hname => exact .this_hasProperty (hdescends.hasFeature hname)
  | this_this hdescends =>
      cases hbc with
      | this_object cls => exact .this_object _
      | this_callable hcall => exact .this_callable (hdescends.isInvokable hfinal hcall)
      | this_bare hdescends' => exact .this_bare (hdescends.trans hdescends')
      | this_this hdescends' => exact .this_this (hdescends.trans hdescends')
      | this_hasProperty hname => exact .this_hasProperty (hdescends.hasFeature hname)
  | array_array hk hv =>
      cases hbc with
      | array_array hk' hv' =>
          have hkey := Ty.mem_children_key
          have hvalue := Ty.mem_children_value
          apply Fits.array_array
          · exact htrans _ _ _ (Ty.size_of_children (hkey _ _) (hkey _ _) (hkey _ _))
              (hparts.inside (hkey _ _)) hk hk'
          · exact htrans _ _ _ (Ty.size_of_children (hvalue _ _) (hvalue _ _) (hvalue _ _))
              (hparts.inside (hvalue _ _)) hv hv'
  | shape_array hentries =>
      cases hbc with
      | array_array hk hv =>
          apply Fits.shape_array
          intro e he
          have hmem := Ty.mem_children_shape he
          have hkeyParts : Everywhere Ty.HasDistinctKeys (Ty.ofKey e.key) := by
            cases e.key <;> exact .leaf trivial rfl
          rcases hentries e he with ⟨hkey, hvalue⟩
          constructor
          · exact htrans _ _ _ (size_of_key e.key hmem (Ty.mem_children_key _ _)
              (Ty.mem_children_key _ _)) hkeyParts hkey hk
          · exact htrans _ _ _ (Ty.size_of_children hmem (Ty.mem_children_value _ _)
              (Ty.mem_children_value _ _)) (hparts.value he) hvalue hv
  | shape_shape hkeys hmissing hvalues =>
      cases hbc with
      | shape_array hentries => exact shape_array_trans htrans hparts hkeys hvalues hentries
      | shape_shape hkeys' hmissing' hvalues' =>
          exact shape_shape_trans htrans hparts (.shape_shape hkeys hmissing hvalues)
            (.shape_shape hkeys' hmissing' hvalues')
      | shape_nonEmpty hrequired =>
          rcases Shape.hasRequired_iff.mp hrequired with ⟨t, ht, hrequired⟩
          have hfits : Fits h (Contained h) (.shape _) (.shape _) :=
            .shape_shape hkeys hmissing hvalues
          rcases required_of_fits hfits ht hrequired with ⟨s, hs, hso⟩
          exact .shape_nonEmpty (Shape.hasRequired_iff.mpr ⟨s, (Shape.mem_of_entry? hs).1, hso⟩)
      | shape_hasOffset ht hrequired =>
          rcases Shape.mem_of_entry? ht with ⟨hmem, hkey⟩
          have hfits : Fits h (Contained h) (.shape _) (.shape _) :=
            .shape_shape hkeys hmissing hvalues
          rcases required_of_fits hfits hmem hrequired with ⟨s, hs, hso⟩
          exact .shape_hasOffset (hkey ▸ hs) hso
  | shape_nonEmpty hrequired => cases hbc
  | hasOffset_nonEmpty key => cases hbc
  | text_nonEmpty hs => cases hbc
  | object_hasProperty hname => cases hbc
  | this_hasProperty hname => cases hbc
  | shape_hasOffset he hrequired =>
      cases hbc with
      | hasOffset_nonEmpty key =>
          exact .shape_nonEmpty
            (Shape.hasRequired_iff.mpr ⟨_, (Shape.mem_of_entry? he).1, hrequired⟩)

/-!
# All types
-/

theorem Certain.isOrdinary_source (hcertain : Certain h R a b) (ha : a ≠ .never)
    (hb : b ≠ .mixed) : a.isOrdinary = true := by
  cases hcertain with
  | mixed hs => exact absurd rfl hb
  | never ht => exact absurd rfl ha
  | union_left ht hne hall => exact isOrdinary_union
  | union_right hs hunion hm hR => exact hs
  | inter_right hs hunion hall => exact hs
  | inter_left ht hsimple hm hR => exact isOrdinary_inter
  | fits hs ht hfits => exact hs

theorem Certain.isOrdinary_target (hcertain : Certain h R a b) (ha : a ≠ .never)
    (hb : b ≠ .mixed) : b.isOrdinary = true := by
  cases hcertain with
  | mixed hs => exact absurd rfl hb
  | never ht => exact absurd rfl ha
  | union_left ht hne hall => exact ht
  | union_right hs hunion hm hR => exact isOrdinary_union
  | inter_right hs hunion hall => exact isOrdinary_inter
  | inter_left ht hsimple hm hR => exact ht
  | fits hs ht hfits => exact ht

/-- A member of a union on the right contains what is contained in the union and
is not a union itself. -/
theorem Certain.mem_of_union_target {flavor : Flavor} {members : List Ty}
    (hcertain : Certain h R a (.union flavor members)) (ha : a.isOrdinary = true)
    (hunion : a.unionMembers? = none) : ∃ m ∈ members, R a m := by
  cases hcertain with
  | never ht => cases ha
  | union_left ht hne hall => cases hunion
  | union_right hs hunion hm hR => exact ⟨_, hm, hR⟩
  | inter_left ht hsimple hm hR => cases hsimple
  | fits hs ht hfits => cases hfits

theorem Certain.all_of_inter_target {members : List Ty}
    (hcertain : Certain h R a (.inter members)) (ha : a.isOrdinary = true)
    (hunion : a.unionMembers? = none) : ∀ m ∈ members, R a m := by
  cases hcertain with
  | never ht => cases ha
  | union_left ht hne hall => cases hunion
  | inter_right hs hunion hall => exact hall
  | inter_left ht hsimple hm hR => cases hsimple
  | fits hs ht hfits => cases hfits

/-- A rule into a type that is neither a union nor an intersection starts from
an intersection or from such a type. -/
theorem Certain.cases_of_simple_target (hcertain : Certain h R a b)
    (ha : a.isOrdinary = true) (hunion : a.unionMembers? = none) (hb : b.isOrdinary = true)
    (hsimple : b.isSimple = true) :
    (∃ members, a = .inter members ∧ ∃ m ∈ members, R m b) ∨ Fits h R a b := by
  cases hcertain with
  | mixed hs => cases hb
  | never ht => cases ha
  | union_left ht hne hall => cases hunion
  | union_right hs hunion hm hR => cases hsimple
  | inter_right hs hunion hall => cases hsimple
  | inter_left ht hsimple hm hR => exact Or.inl ⟨_, rfl, _, hm, hR⟩
  | fits hs ht hfits => exact Or.inr hfits

/-- Transitivity for a source that is not taken apart, given it for smaller
types. -/
theorem trans_of_source (hfinal : h.LeavesClosureFinal)
    (htrans : TransitiveBelow h (a.size + b.size + c.size))
    (hparts : Everywhere Ty.HasDistinctKeys a) (ha : a.isOrdinary = true)
    (hunion : a.unionMembers? = none) (hab : Certain h (Contained h) a b)
    (hbc : Certain h (Contained h) b c) : Contained h a c := by
  have hcontained := hab.contained
  have hmiddle : ∀ m ∈ b.children, Contained h a m -> Contained h m c -> Contained h a c := by
    intro m hm
    have hsize := Ty.size_lt_of_mem_children hm
    exact htrans a m c (by omega) hparts
  have hright : ∀ m ∈ c.children, Contained h b m -> Contained h a m := by
    intro m hm
    have hsize := Ty.size_lt_of_mem_children hm
    exact htrans a b m (by omega) hparts hcontained
  cases hbc with
  | mixed hs => exact Certain.contained (.mixed hab.isUnknown.1)
  | never ht =>
      have hordinary := hab.isOrdinary_target (by rintro rfl; cases ha) (by simp)
      cases hordinary
  | union_left ht hne hall =>
      rcases hab.mem_of_union_target ha hunion with ⟨m, hm, ham⟩
      exact hmiddle m hm ham (hall m hm)
  | union_right hs hunion' hm hR =>
      exact Certain.contained (.union_right ha hunion hm (hright _ hm hR))
  | inter_right hs hunion' hall =>
      exact Certain.contained (.inter_right ha hunion fun m hm => hright m hm (hall m hm))
  | inter_left ht hsimple hm hR =>
      exact hmiddle _ hm (hab.all_of_inter_target ha hunion _ hm) hR
  | fits hs ht hfits =>
      rcases hab.cases_of_simple_target ha hunion hs hfits.isSimple.1 with
        ⟨members, rfl, m, hm, hR⟩ | hfits'
      · have hsize := Ty.size_lt_of_mem_children (t := .inter members) hm
        refine Certain.contained (.inter_left ht hfits.isSimple.2 hm ?_)
        exact htrans m b c (by omega) (hparts.inside hm) hR (Certain.contained (.fits hs ht hfits))
      · exact Certain.contained (.fits ha ht (fits_trans hfinal htrans hparts hfits' hfits))

/-- Transitivity between types that are not the extremes, given it for smaller
types: a union on the left is taken apart. -/
theorem trans_of_ne (hfinal : h.LeavesClosureFinal)
    (htrans : TransitiveBelow h (a.size + b.size + c.size))
    (hparts : Everywhere Ty.HasDistinctKeys a) (ha : a ≠ .never) (hc : c ≠ .mixed)
    (hab : Certain h (Contained h) a b) (hbc : Certain h (Contained h) b c) :
    Contained h a c := by
  have hb : b ≠ .never := by
    intro heq
    subst heq
    have hordinary := hab.isOrdinary_target ha (by simp)
    cases hordinary
  have hcordinary := hbc.isOrdinary_target hb hc
  have hbordinary : b.isOrdinary = true := by
    apply hab.isOrdinary_target ha
    intro heq
    subst heq
    exact absurd (hbc.isOrdinary_source hb hc) (by decide)
  rcases hab.source_cases hbordinary with rfl | ⟨flavor, members, rfl, hne, hall⟩ | ⟨hs, hunion⟩
  · exact absurd rfl ha
  · refine Certain.contained (.union_left hcordinary hne fun m hm => ?_)
    have hsize := Ty.size_lt_of_mem_children (t := .union flavor members) hm
    exact htrans m b c (by omega) (hparts.inside hm) (hall m hm) hbc.contained
  · exact trans_of_source hfinal htrans hparts hs hunion hab hbc

theorem transitiveBelow (hfinal : h.LeavesClosureFinal) (n : Nat) : TransitiveBelow h n := by
  induction n with
  | zero =>
      intro a b c hsize
      exact absurd hsize (Nat.not_lt_zero _)
  | succ n ih =>
      intro a b c hsize hparts hab hbc
      have htrans : TransitiveBelow h (a.size + b.size + c.size) := by
        intro a' b' c' hlt
        exact ih a' b' c' (by omega)
      rcases contained_iff.mp hab with rfl | hab'
      · exact hbc
      · rcases contained_iff.mp hbc with rfl | hbc'
        · exact hab
        · by_cases hnever : a = .never
          · subst hnever
            exact Certain.contained (.never hbc'.isUnknown.2)
          · by_cases hmixed : c = .mixed
            · subst hmixed
              exact Certain.contained (.mixed hab'.isUnknown.1)
            · exact trans_of_ne hfinal htrans hparts hnever hmixed hab' hbc'

/-- Certain containment is transitive.  Of the three types only the first has to
be free of repeated keys. -/
theorem Contained.trans (hfinal : h.LeavesClosureFinal)
    (hparts : Everywhere Ty.HasDistinctKeys a) (hab : Contained h a b)
    (hbc : Contained h b c) : Contained h a c :=
  transitiveBelow hfinal _ a b c (Nat.lt_succ_self _) hparts hab hbc

end Subtype
end GradualTypes
