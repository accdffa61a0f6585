import GradualTypes.Proofs.Ancestry
import GradualTypes.Proofs.Terms
import GradualTypes.Proofs.Weight
import GradualTypes.Subtype

/-!
# Rules of certain containment

`Subtype.check` says how one type is compared with another.  This module says by
rules when such a comparison certainly succeeds: `Subtype.Fits` has the rules
between types that are neither unions nor intersections, and `Subtype.Certain`
adds those for the two extremes, for unions and for intersections.  A rule may
refer to the parts of the two types, whose containment is a parameter.

The main statements are that a step answers `yes` only by one of the rules,
whatever admissible answers it gets (`Subtype.meets_check`), and that under a
fixed relation it answers `yes` exactly by the rules
(`Subtype.value_check_eq_yes_iff`).
-/

namespace GradualTypes

/-- Whether a type is neither a union nor an intersection. -/
def Ty.isSimple : Ty -> Bool
  | .union _ _ => false
  | .inter _ => false
  | _ => true

theorem Ty.union_or_inter_or_simple (t : Ty) :
    (∃ flavor members, t = .union flavor members) ∨ (∃ members, t = .inter members) ∨
      t.isSimple = true := by
  cases t with
  | union flavor members => exact Or.inl ⟨flavor, members, rfl⟩
  | inter members => exact Or.inr (Or.inl ⟨members, rfl⟩)
  | _ => exact Or.inr (Or.inr rfl)

theorem Ty.unionMembers?_of_isSimple {t : Ty} (ht : t.isSimple = true) :
    t.unionMembers? = none := by
  cases t <;> first | rfl | cases ht

/-- Whether a type is a keyword, a literal or an interval. -/
def Ty.isScalar : Ty -> Bool
  | .keyword _ => true
  | .literal _ => true
  | .range _ => true
  | _ => false

theorem Ty.isSimple_of_isScalar {t : Ty} (ht : t.isScalar = true) : t.isSimple = true := by
  cases t <;> first | rfl | cases ht

/-- Whether a type stands for some but not all values of the language. -/
def Ty.isOrdinary (t : Ty) : Bool :=
  !t.isUnknown && t != .mixed && t != .never && !t.isMissing

namespace Subtype

open Inquiry

variable {h : Hierarchy} {R R' : Ty -> Ty -> Prop}

/-!
# The rules
-/

/-- When a type fits into another one, neither of them a union or an
intersection and both of them ordinary, given the containment of their parts. -/
inductive Fits (h : Hierarchy) (R : Ty -> Ty -> Prop) : Ty -> Ty -> Prop where
  | same (k : Keyword) : Fits h R (.keyword k) (.keyword k)
  | literal_base (v : Literal) : Fits h R (.literal v) (.keyword v.base)
  | range_int (r : IntRange) : Fits h R (.range r) .int
  | object_object (cls : String) (arguments : List Ty) :
      Fits h R (.object cls arguments) (.keyword .object)
  | this_object (cls : String) : Fits h R (.this cls) (.keyword .object)
  | object_callable {cls : String} {arguments : List Ty} :
      h.isInvokable cls = .yes -> Fits h R (.object cls arguments) .callable
  | this_callable {cls : String} :
      h.isInvokable cls = .yes -> Fits h R (.this cls) .callable
  | literal_range {n : Int} {r : IntRange} :
      r.contains n = true -> Fits h R (.literal (.int n)) (.range r)
  | range_range {s r : IntRange} : s.within r = true -> Fits h R (.range s) (.range r)
  | object_bare {child parent : String} {arguments : List Ty} :
      h.Descends child parent ->
      Fits h R (.object child arguments) (.object parent [])
  | object_arguments {child parent : String} {source target : List Ty} :
      child.toLower = parent.toLower ->
      source.length = target.length ->
      (∀ pair ∈ source.zip target, R pair.1 pair.2) ->
      Fits h R (.object child source) (.object parent target)
  | this_bare {child parent : String} :
      h.Descends child parent -> Fits h R (.this child) (.object parent [])
  | this_this {child parent : String} :
      h.Descends child parent -> Fits h R (.this child) (.this parent)
  | array_array {k v k' v' : Ty} : R k k' -> R v v' -> Fits h R (.array k v) (.array k' v')
  | shape_array {entries : List (Entry Ty)} {k v : Ty} :
      (∀ e ∈ entries, R (Ty.ofKey e.key) k ∧ R e.value v) ->
      Fits h R (.shape entries) (.array k v)
  | shape_shape {source target : List (Entry Ty)} :
      (∀ s ∈ source, ∃ t, Shape.entry? target s.key = some t) ->
      (∀ t ∈ target, Shape.entry? source t.key = none -> t.optional = true) ->
      (∀ t ∈ target, ∀ s, Shape.entry? source t.key = some s ->
        R s.value t.value ∧ (s.optional = true -> t.optional = true)) ->
      Fits h R (.shape source) (.shape target)
  | shape_nonEmpty {entries : List (Entry Ty)} :
      Shape.hasRequired entries = true ->
      Fits h R (.shape entries) (.accessory .nonEmptyArray)
  | hasOffset_nonEmpty (key : Key) :
      Fits h R (.accessory (.hasOffset key)) (.accessory .nonEmptyArray)
  | text_nonEmpty {s : String} :
      s ≠ "" -> Fits h R (.literal (.text s)) (.accessory .nonEmptyString)
  | object_hasProperty {cls name : String} {arguments : List Ty} :
      h.hasProperty cls name = .yes ->
      Fits h R (.object cls arguments) (.accessory (.hasProperty name))
  | this_hasProperty {cls name : String} :
      h.hasProperty cls name = .yes -> Fits h R (.this cls) (.accessory (.hasProperty name))
  | shape_hasOffset {entries : List (Entry Ty)} {e : Entry Ty} {key : Key} :
      Shape.entry? entries key = some e ->
      e.optional = false ->
      Fits h R (.shape entries) (.accessory (.hasOffset key))

/-- When a type is certainly contained in a different one, given the containment
of their parts.  A union on the left is taken apart first, then a union on the
right, then an intersection on the right. -/
inductive Certain (h : Hierarchy) (R : Ty -> Ty -> Prop) : Ty -> Ty -> Prop where
  | mixed {s : Ty} : s.isUnknown = false -> Certain h R s .mixed
  | never {t : Ty} : t.isUnknown = false -> Certain h R .never t
  | union_left {flavor : Flavor} {members : List Ty} {t : Ty} :
      t.isOrdinary = true ->
      members ≠ [] ->
      (∀ m ∈ members, R m t) ->
      Certain h R (.union flavor members) t
  | union_right {s m : Ty} {flavor : Flavor} {members : List Ty} :
      s.isOrdinary = true ->
      s.unionMembers? = none ->
      m ∈ members ->
      R s m ->
      Certain h R s (.union flavor members)
  | inter_right {s : Ty} {members : List Ty} :
      s.isOrdinary = true ->
      s.unionMembers? = none ->
      (∀ m ∈ members, R s m) ->
      Certain h R s (.inter members)
  | inter_left {t m : Ty} {members : List Ty} :
      t.isOrdinary = true ->
      t.isSimple = true ->
      m ∈ members ->
      R m t ->
      Certain h R (.inter members) t
  | fits {s t : Ty} :
      s.isOrdinary = true ->
      t.isOrdinary = true ->
      Fits h R s t ->
      Certain h R s t

theorem Fits.mono {s t : Ty} (hfits : Fits h R s t) (hR : ∀ a b, R a b -> R' a b) :
    Fits h R' s t := by
  induction hfits with
  | same k => exact .same k
  | literal_base v => exact .literal_base v
  | range_int r => exact .range_int r
  | object_object cls arguments => exact .object_object cls arguments
  | this_object cls => exact .this_object cls
  | object_callable hcall => exact .object_callable hcall
  | this_callable hcall => exact .this_callable hcall
  | literal_range hn => exact .literal_range hn
  | range_range hr => exact .range_range hr
  | object_bare hdescends => exact .object_bare hdescends
  | object_arguments hcls hlength hparts =>
      exact .object_arguments hcls hlength fun pair hpair => hR _ _ (hparts pair hpair)
  | this_bare hdescends => exact .this_bare hdescends
  | this_this hdescends => exact .this_this hdescends
  | array_array hk hv => exact .array_array (hR _ _ hk) (hR _ _ hv)
  | shape_array hentries =>
      exact .shape_array fun e he => (hentries e he).imp (hR _ _) (hR _ _)
  | shape_shape hkeys hmissing hvalues =>
      exact .shape_shape hkeys hmissing fun t ht s hs => (hvalues t ht s hs).imp_left (hR _ _)
  | shape_nonEmpty hrequired => exact .shape_nonEmpty hrequired
  | hasOffset_nonEmpty key => exact .hasOffset_nonEmpty key
  | text_nonEmpty hs => exact .text_nonEmpty hs
  | object_hasProperty hname => exact .object_hasProperty hname
  | this_hasProperty hname => exact .this_hasProperty hname
  | shape_hasOffset he hrequired => exact .shape_hasOffset he hrequired

theorem Certain.mono {s t : Ty} (hcertain : Certain h R s t) (hR : ∀ a b, R a b -> R' a b) :
    Certain h R' s t := by
  cases hcertain with
  | mixed hs => exact .mixed hs
  | never ht => exact .never ht
  | union_left ht hne hall => exact .union_left ht hne fun m hm => hR _ _ (hall m hm)
  | union_right hs hunion hm hR' => exact .union_right hs hunion hm (hR _ _ hR')
  | inter_right hs hunion hall => exact .inter_right hs hunion fun m hm => hR _ _ (hall m hm)
  | inter_left ht hsimple hm hR' => exact .inter_left ht hsimple hm (hR _ _ hR')
  | fits hs ht hfits => exact .fits hs ht (hfits.mono hR)

theorem Fits.isSimple {s t : Ty} (hfits : Fits h R s t) :
    s.isSimple = true ∧ t.isSimple = true := by
  cases hfits <;> exact ⟨rfl, rfl⟩

theorem settled?_eq_none_iff {s t : Ty} :
    settled? s t = none ↔ s.isOrdinary = true ∧ t.isOrdinary = true := by
  unfold settled? Ty.isOrdinary
  cases s.isUnknown <;> cases t.isUnknown <;> cases s.isMissing <;> cases t.isMissing <;>
    by_cases hsm : s = .mixed <;> by_cases htm : t = .mixed <;>
    by_cases hsn : s = .never <;> by_cases htn : t = .never <;> simp [hsm, htm, hsn, htn]

theorem settled?_eq_yes_iff {s t : Ty} :
    settled? s t = some .yes ↔
      (t = .mixed ∧ s.isUnknown = false) ∨ (s = .never ∧ t.isUnknown = false) := by
  unfold settled?
  by_cases hsm : s = .mixed <;> by_cases htm : t = .mixed <;>
    by_cases hsn : s = .never <;> by_cases htn : t = .never <;>
    cases hs : s.isUnknown <;> cases ht : t.isUnknown <;>
    cases s.isMissing <;> cases t.isMissing <;> simp_all [Ty.isUnknown]

/-!
# Steps answer `yes` by the rules only
-/

theorem fits_of_inKeyword {s : Ty} {k : Keyword} (hsimple : s.isSimple = true)
    (hyes : inKeyword h s k = .yes) : Fits h R s (.keyword k) := by
  have hbase : ∀ l : Keyword, s.base? = some l -> Fits h R s (.keyword l) := by
    intro l hl
    cases s with
    | keyword k => cases hl; exact .same _
    | literal v => cases hl; exact .literal_base v
    | range r => cases hl; exact .range_int r
    | _ => simp [Ty.base?] at hl
  have hofBool : ∀ b : Bool, Tristate.ofBool b = .yes -> b = true := by
    intro b hb
    cases b <;> simp_all [Tristate.ofBool]
  cases k with
  | object =>
      cases s with
      | keyword k => cases k <;> first | exact .same _ | simp [inKeyword] at hyes
      | object cls arguments => exact .object_object cls arguments
      | this cls => exact .this_object cls
      | _ => simp [inKeyword] at hyes
  | callable =>
      cases s with
      | keyword k => cases k <;> first | exact .same _ | simp [inKeyword, Ty.callability] at hyes
      | object cls arguments => exact .object_callable hyes
      | this cls => exact .this_callable hyes
      | literal v =>
          cases v <;> simp only [inKeyword, Ty.callability] at hyes
          · cases hyes
          · cases hyes
          · split at hyes <;> cases hyes
          · cases hyes
      | shape entries =>
          simp only [inKeyword, Ty.callability] at hyes
          split at hyes <;> cases hyes
      | union flavor members => simp [Ty.isSimple] at hsimple
      | inter members => simp [Ty.isSimple] at hsimple
      | _ => simp [inKeyword, Ty.callability] at hyes
  | _ => exact hbase _ (by simpa using hofBool _ hyes)

theorem inLiteral_ne_yes (s : Ty) (v : Literal) : inLiteral s v ≠ .yes := by
  cases s <;> simp only [inLiteral, ne_eq, reduceCtorEq, not_false_eq_true]
  · split <;> simp
  · split
    · split <;> simp
    · simp

theorem fits_of_inRange {s : Ty} {r : IntRange} (hyes : inRange s r = .yes) :
    Fits h R s (.range r) := by
  cases s with
  | literal v =>
      cases v with
      | int n =>
          refine .literal_range ?_
          cases hn : r.contains n <;> simp_all [inRange, Tristate.ofBool]
      | _ => simp [inRange] at hyes
  | range s =>
      refine .range_range ?_
      simp only [inRange] at hyes
      split at hyes
      · assumption
      · split at hyes <;> cases hyes
  | keyword k => cases k <;> simp [inRange] at hyes
  | _ => simp [inRange] at hyes

theorem fits_of_inThis {s : Ty} {cls : String} (hyes : inThis h s cls = .yes) :
    Fits h R s (.this cls) := by
  cases s with
  | this child =>
      refine .this_this (Hierarchy.descends_iff_kinship.mpr ?_)
      simp only [inThis] at hyes
      split at hyes <;> simp_all
  | object child arguments =>
      simp only [inThis] at hyes
      split at hyes <;> cases hyes
  | keyword k => cases k <;> simp [inThis] at hyes
  | _ => simp [inThis] at hyes

theorem fits_of_inNonEmptyArray {s : Ty} (hyes : inNonEmptyArray s = .yes) :
    Fits h R s (.accessory .nonEmptyArray) := by
  cases s with
  | shape entries =>
      refine .shape_nonEmpty ?_
      simp only [inNonEmptyArray] at hyes
      split at hyes
      · assumption
      · split at hyes <;> cases hyes
  | accessory a =>
      cases a with
      | hasOffset key => exact .hasOffset_nonEmpty key
      | _ => simp [inNonEmptyArray] at hyes
  | keyword k => cases k <;> simp [inNonEmptyArray] at hyes
  | _ => simp [inNonEmptyArray] at hyes

theorem fits_of_inNonEmptyString {s : Ty} (hyes : inNonEmptyString s = .yes) :
    Fits h R s (.accessory .nonEmptyString) := by
  cases s with
  | literal v =>
      cases v with
      | text s =>
          refine .text_nonEmpty ?_
          by_cases hs : s = "" <;> simp_all [inNonEmptyString, Tristate.ofBool]
      | _ => simp [inNonEmptyString] at hyes
  | keyword k => cases k <;> simp [inNonEmptyString] at hyes
  | _ => simp [inNonEmptyString] at hyes

theorem fits_of_inHasProperty {s : Ty} {name : String}
    (hyes : inHasProperty h name s = .yes) :
    Fits h R s (.accessory (.hasProperty name)) := by
  cases s with
  | object cls arguments => exact .object_hasProperty hyes
  | this cls => exact .this_hasProperty hyes
  | accessory a => cases a <;> simp [inHasProperty] at hyes
  | keyword k => cases k <;> simp [inHasProperty] at hyes
  | _ => simp [inHasProperty] at hyes

section Questions

variable {terms : Terms} (hyes : ∀ a b, terms.replies a b .yes -> R a b)
  (hliteral : ∀ v, terms.announces (.literal v))

theorem meets_isContained_yes {a b : Ty} (hasks : terms.asks a b)
    (hyes : ∀ a b, terms.replies a b .yes -> R a b) :
    (isContained a b).Meets terms fun r => r = .yes -> R a b :=
  ⟨hasks, fun _ hr hr' => hyes a b (hr' ▸ hr)⟩

theorem meets_isContained_any {a b : Ty} (hasks : terms.asks a b) :
    (isContained a b).Meets terms fun _ => True :=
  ⟨hasks, fun _ _ => trivial⟩

include hliteral in
theorem meets_key (key : Key) :
    (Build.key key).Meets terms fun t => t = Ty.ofKey key := by
  cases key with
  | int n => exact ⟨hliteral _, rfl⟩
  | text s => exact ⟨hliteral _, rfl⟩

include hyes in
theorem meets_inArguments {source target : List Ty}
    (hasks : ∀ pair ∈ source.zip target, terms.asks pair.1 pair.2) :
    (inArguments source target).Meets terms fun r => r = .yes ->
      target = [] ∨
        source.length = target.length ∧ ∀ pair ∈ source.zip target, R pair.1 pair.2 := by
  unfold inArguments
  split
  · rename_i hempty
    exact fun _ => Or.inl (List.isEmpty_iff.mp hempty)
  · split
    · simp
    · rename_i hlength
      refine (meets_all fun pair hpair =>
        meets_isContained_yes (hasks pair hpair) hyes).imp fun r hr hr' => ?_
      exact Or.inr ⟨Decidable.not_not.mp hlength, hr hr'⟩

theorem bySubclass_eq_yes {arguments : List Ty} (hyes : bySubclass arguments = .yes) :
    arguments = [] := by
  cases arguments with
  | nil => rfl
  | cons a rest => simp [bySubclass] at hyes

include hyes in
theorem meets_inObject {s : Ty} {cls : String} {arguments : List Ty}
    (hasks : ∀ a ∈ s.children, ∀ b ∈ arguments, terms.asks a b) :
    (inObject h s cls arguments).Meets terms fun r => r = .yes ->
      Fits h R s (.object cls arguments) := by
  cases s with
  | object child source =>
      have hpairs : ∀ pair ∈ source.zip arguments, terms.asks pair.1 pair.2 :=
        fun pair hpair => hasks _ (List.of_mem_zip hpair).1 _ (List.of_mem_zip hpair).2
      simp only [inObject]
      split
      · rename_i hsame
        apply (meets_inArguments hyes hpairs).imp
        intro r hr hr'
        rcases hr hr' with rfl | ⟨hlength, hparts⟩
        · exact .object_bare (Hierarchy.descends_iff_kinship.mpr (Or.inl hsame))
        · exact .object_arguments (Hierarchy.kinship_eq_same_iff.mp hsame) hlength hparts
      · rename_i hsubclass
        intro hr
        rw [bySubclass_eq_yes hr]
        exact .object_bare (Hierarchy.descends_iff_kinship.mpr (Or.inr hsubclass))
      · simp
      · simp
  | this child =>
      simp only [inObject]
      split
      · rename_i hsame
        intro hr
        rw [bySubclass_eq_yes hr]
        exact .this_bare (Hierarchy.descends_iff_kinship.mpr (Or.inl hsame))
      · rename_i hsubclass
        intro hr
        rw [bySubclass_eq_yes hr]
        exact .this_bare (Hierarchy.descends_iff_kinship.mpr (Or.inr hsubclass))
      · simp
      · simp
  | keyword k => cases k <;> simp [inObject]
  | _ => simp [inObject]

include hyes hliteral in
theorem meets_entryInArray {key value : Ty} {e : Entry Ty}
    (hkey : terms.asks (Ty.ofKey e.key) key) (hvalue : terms.asks e.value value) :
    (entryInArray key value e).Meets terms fun r => r = .yes ->
      R (Ty.ofKey e.key) key ∧ R e.value value := by
  apply (meets_key hliteral e.key).bind
  intro _ heq
  subst heq
  apply (meets_isContained_yes hkey hyes).bind
  intro byKey hbyKey
  apply (meets_isContained_yes hvalue hyes).bind
  intro byValue hbyValue hr
  split at hr
  · cases hr
  · exact (Tristate.and_eq_yes_iff.mp hr).imp hbyKey hbyValue

include hyes hliteral in
theorem meets_inArray {s key value : Ty}
    (hkey : ∀ a, a ∈ s.children ∨ (∃ k, a = Ty.ofKey k) -> terms.asks a key)
    (hvalue : ∀ a ∈ s.children, terms.asks a value) :
    (inArray s key value).Meets terms fun r => r = .yes ->
      Fits h R s (.array key value) := by
  cases s with
  | array sourceKey sourceValue =>
      simp only [inArray]
      apply (meets_isContained_yes (hkey _ (Or.inl (Ty.mem_children_key _ _))) hyes).bind
      intro byKey hbyKey
      split
      · simp
      · apply (meets_isContained_yes (hvalue _ (Ty.mem_children_value _ _)) hyes).bind
        intro byValue hbyValue hr
        rcases Tristate.and_eq_yes_iff.mp hr with ⟨hk, hv⟩
        exact .array_array (hbyKey hk) (hbyValue hv)
  | shape entries =>
      refine (meets_all fun e he => ?_).imp fun r hr hr' => .shape_array (hr hr')
      exact meets_entryInArray hyes hliteral (hkey _ (Or.inr ⟨e.key, rfl⟩))
        (hvalue _ (List.mem_map.mpr ⟨e, he, rfl⟩))
  | keyword k => cases k <;> simp [inArray]
  | _ => simp [inArray]

include hliteral in
theorem meets_arrayInShape {key value : Ty} {entries : List (Entry Ty)}
    (hkey : ∀ k, terms.asks (Ty.ofKey k) key)
    (hvalue : ∀ e ∈ entries, terms.asks e.value value ∧ terms.asks value e.value) :
    (arrayInShape key value entries).Meets terms fun r => r ≠ .yes := by
  induction entries with
  | nil => simp [arrayInShape]
  | cons e rest ih =>
      rw [List.forall_mem_cons] at hvalue
      have hrest := ih hvalue.2
      unfold arrayInShape
      split
      · exact hrest
      · have hentry : (mayHaveEntry key value e).Meets terms fun _ => True := by
          apply (meets_key hliteral e.key).bind
          intro _ heq
          subst heq
          apply (meets_isContained_any (hkey e.key)).bind
          intro byKey _
          split
          · trivial
          · apply (meets_isContained_any hvalue.1.1).bind
            intro byValue _
            split
            · exact (meets_isContained_any hvalue.1.2).bind fun _ _ => trivial
            · trivial
        apply hentry.bind
        intro possible _
        split
        · exact hrest
        · simp

theorem surplusKeys_eq_yes_iff {source target : List (Entry Ty)} :
    surplusKeys source target = .yes ↔
      ∀ s ∈ source, ∃ t, Shape.entry? target s.key = some t := by
  induction source with
  | nil => simp [surplusKeys, Tristate.all]
  | cons s rest ih =>
      rw [List.forall_mem_cons, ← ih]
      simp only [surplusKeys, List.filter_cons]
      cases hs : Shape.entry? target s.key with
      | none =>
          simp only [Option.isNone_none, if_true, List.map_cons, Tristate.all,
            Tristate.and_eq_yes_iff]
          cases s.optional <;> simp
      | some t => simp

include hyes in
theorem meets_inEntry {source : List (Entry Ty)} {t : Entry Ty}
    (hasks : ∀ s ∈ source, terms.asks s.value t.value) :
    (inEntry source t).Meets terms fun r => r = .yes ->
      (Shape.entry? source t.key = none -> t.optional = true) ∧
        ∀ s, Shape.entry? source t.key = some s ->
          R s.value t.value ∧ (s.optional = true -> t.optional = true) := by
  unfold inEntry
  split
  · rename_i hnone
    simp only [meets_pure, hnone]
    cases t.optional <;> simp
  · rename_i s hs
    have hmem : s ∈ source := List.mem_of_find?_eq_some hs
    apply (meets_isContained_yes (hasks s hmem) hyes).bind
    intro fits hfits hr
    constructor
    · simp [hs]
    · intro s' hs'
      obtain rfl : s = s' := Option.some.inj (hs.symm.trans hs')
      cases fits <;> cases hso : s.optional <;> cases hto : t.optional <;>
        simp_all [Tristate.and]

include hyes in
theorem meets_shapeInShape {source target : List (Entry Ty)}
    (hasks : ∀ s ∈ source, ∀ t ∈ target, terms.asks s.value t.value) :
    (shapeInShape source target).Meets terms fun r => r = .yes ->
      Fits h R (.shape source) (.shape target) := by
  unfold shapeInShape
  split
  · simp
  · refine (meets_allFrom fun t ht =>
      meets_inEntry hyes fun s hs => hasks s hs t ht).imp fun r hr hr' => ?_
    rcases hr hr' with ⟨hkeys, hentries⟩
    exact .shape_shape (surplusKeys_eq_yes_iff.mp hkeys)
      (fun t ht => (hentries t ht).1) (fun t ht => (hentries t ht).2)

include hyes hliteral in
theorem meets_inShape {s : Ty} {entries : List (Entry Ty)}
    (hkey : ∀ k, ∀ b ∈ s.children, terms.asks (Ty.ofKey k) b)
    (hasks : ∀ a ∈ s.children, ∀ e ∈ entries,
      terms.asks a e.value ∧ terms.asks e.value a) :
    (inShape s entries).Meets terms fun r => r = .yes ->
      Fits h R s (.shape entries) := by
  cases s with
  | shape source =>
      exact meets_shapeInShape hyes fun s hs t ht =>
        (hasks _ (List.mem_map.mpr ⟨s, hs, rfl⟩) t ht).1
  | array key value =>
      refine (meets_arrayInShape hliteral (fun k => hkey k key (Ty.mem_children_key _ _))
        fun e he => ?_).imp fun r hr hr' => absurd hr' hr
      exact (hasks value (Ty.mem_children_value _ _) e he).symm
  | keyword k => cases k <;> simp [inShape]
  | _ => simp [inShape]

include hliteral in
theorem meets_inHasOffset {s : Ty} {offset : Key}
    (hkey : ∀ b ∈ s.children, terms.asks (Ty.ofKey offset) b) :
    (inHasOffset offset s).Meets terms fun r => r = .yes ->
      Fits h R s (.accessory (.hasOffset offset)) := by
  cases s with
  | shape entries =>
      simp only [inHasOffset]
      split
      · rename_i e he
        cases hoptional : e.optional
        · exact fun _ => .shape_hasOffset he hoptional
        · simp
      · simp
  | array key value =>
      apply (meets_key hliteral offset).bind
      intro _ heq
      subst heq
      apply (meets_isContained_any (hkey key (Ty.mem_children_key _ _))).bind
      intro byKey _ hr
      split at hr <;> cases hr
  | accessory a => cases a <;> simp [inHasOffset]
  | keyword k => cases k <;> simp [inHasOffset]
  | _ => simp [inHasOffset]

end Questions

section Check

variable {terms : Terms} {s t : Ty}
  (hasks : ∀ a b, weight a b < weight s t -> terms.asks a b)
  (hyes : ∀ a b, terms.replies a b .yes -> R a b)
  (hliteral : ∀ v, terms.announces (.literal v))

include hasks hliteral in
theorem meets_inAccessory {a : Accessory} (ht : t = .accessory a) :
    (inAccessory h s a).Meets terms fun r => r = .yes -> Fits h R s (.accessory a) := by
  cases a with
  | nonEmptyArray => exact fits_of_inNonEmptyArray
  | nonEmptyString => exact fits_of_inNonEmptyString
  | hasProperty name => exact fits_of_inHasProperty
  | hasOffset offset =>
      exact meets_inHasOffset hliteral fun b hb => hasks _ _ (weight_ofKey_lt_left offset hb)

include hasks hyes hliteral in
theorem meets_inSimple (hs : s.isSimple = true) :
    (inSimple h s t).Meets terms fun r => r = .yes -> Fits h R s t := by
  have hparts : ∀ a ∈ s.children, ∀ b ∈ t.children, terms.asks a b ∧ terms.asks b a :=
    fun a ha b hb => (weight_lt_of_mem_children ha hb).imp (hasks a b) (hasks b a)
  cases t with
  | keyword k => exact fits_of_inKeyword hs
  | literal v => exact fun hr => absurd hr (inLiteral_ne_yes s v)
  | range r => exact fits_of_inRange
  | object cls arguments =>
      exact meets_inObject hyes fun a ha b hb => (hparts a ha b hb).1
  | this cls => exact fits_of_inThis
  | array key value =>
      refine meets_inArray hyes hliteral ?_ fun a ha => (hparts a ha value (Ty.mem_children_value _ _)).1
      intro a hcase
      rcases hcase with ha | ⟨k, rfl⟩
      · exact (hparts a ha key (Ty.mem_children_key _ _)).1
      · exact hasks _ _ (weight_ofKey_lt_right k (Ty.mem_children_key _ _))
  | shape entries =>
      exact meets_inShape hyes hliteral
        (fun k b hb => hasks _ _ (weight_ofKey_lt_left k hb))
        fun a ha e he => hparts a ha e.value (List.mem_map.mpr ⟨e, he, rfl⟩)
  | accessory a => exact meets_inAccessory hasks hliteral rfl
  | _ => simp [inSimple]

include hasks hyes hliteral in
/-- A step asks lighter questions only, and answers `yes` by the rules only. -/
theorem meets_check :
    (check h s t).Meets terms fun r => r = .yes -> Certain h R s t := by
  have hleft : ∀ m ∈ s.children, (isContained m t).Meets terms fun r => r = .yes -> R m t :=
    fun m hm => meets_isContained_yes (hasks m t (weight_lt_left hm)) hyes
  have hright : ∀ m ∈ t.children, (isContained s m).Meets terms fun r => r = .yes -> R s m :=
    fun m hm => meets_isContained_yes (hasks s m (weight_lt_right hm)) hyes
  unfold check
  split
  · rename_i answer hsettled
    intro heq
    subst heq
    rcases settled?_eq_yes_iff.mp hsettled with ⟨rfl, hs⟩ | ⟨rfl, ht⟩
    · exact .mixed hs
    · exact .never ht
  · rename_i hsettled
    rcases settled?_eq_none_iff.mp hsettled with ⟨hs, ht⟩
    split
    · exact (meets_unanimous hleft).imp fun r hr hr' =>
        .union_left ht (hr hr').1 (hr hr').2
    · rename_i flavor members hunion
      apply (meets_any hright).imp
      intro r hr hr'
      rcases hr hr' with ⟨m, hm, hR⟩
      refine .union_right hs ?_ hm hR
      cases s <;> first | rfl | exact absurd rfl (hunion _ _)
    · rename_i members hunion
      refine (meets_all hright).imp fun r hr hr' => .inter_right hs ?_ (hr hr')
      cases s <;> first | rfl | exact absurd rfl (hunion _ _)
    · rename_i members hunion hinter
      apply (meets_decisive hleft).imp
      intro r hr hr'
      rcases hr hr' with ⟨m, hm, hR⟩
      refine .inter_left ht ?_ hm hR
      cases t <;> first
        | rfl
        | exact absurd rfl (hunion _ _)
        | exact absurd rfl (hinter _)
    · rename_i hunion hinter _ _
      split
      · rename_i hconstraint
        have hswap : weight t s < weight s t := by
          simp only [Bool.and_eq_true, Bool.not_eq_true'] at hconstraint
          exact weight_swap hconstraint.1 hconstraint.2
        apply (meets_isContained_any (hasks t s hswap)).bind
        intro r _ hr
        split at hr <;> cases hr
      · refine (meets_inSimple hasks hyes hliteral ?_).imp fun r hr hr' => .fits hs ht (hr hr')
        cases s <;> first
          | rfl
          | exact absurd rfl (hunion _ _)
          | exact absurd rfl (hinter _)

end Check

/-!
# The rules make a step answer `yes`
-/

section Equations

variable {s t : Ty} {flavor : Flavor} {members : List Ty}

theorem isOrdinary_union : (Ty.union flavor members).isOrdinary = true := by
  simp [Ty.isOrdinary, Ty.isUnknown, Ty.isMissing]

theorem isOrdinary_inter : (Ty.inter members).isOrdinary = true := by
  simp [Ty.isOrdinary, Ty.isUnknown, Ty.isMissing]

/-- Past the keywords that settle a question at once, the forms of the two types choose the rule. -/
theorem check_ordinary : s.isOrdinary = true -> t.isOrdinary = true ->
    check h s t =
      match s, t with
      | .union _ members, _ => unanimous (isContained · t) members
      | _, .union _ members => any (isContained s ·) members
      | _, .inter members => all (isContained s ·) members
      | .inter members, _ => decisive (isContained · t) members
      | _, _ =>
          if s.isAccessory && !t.isAccessory then constraintIn s t else inSimple h s t := by
  intro hs ht
  have hnone := settled?_eq_none_iff.mpr ⟨hs, ht⟩
  unfold check
  split
  · rename_i answer hsome
    rw [hnone] at hsome
    cases hsome
  · rfl

theorem check_union_left (ht : t.isOrdinary = true) :
    check h (.union flavor members) t = unanimous (isContained · t) members := by
  rw [check_ordinary isOrdinary_union ht]

theorem check_union_right (hs : s.isOrdinary = true) (hunion : s.unionMembers? = none) :
    check h s (.union flavor members) = any (isContained s ·) members := by
  rw [check_ordinary hs isOrdinary_union]
  cases s <;> first | rfl | simp [Ty.unionMembers?] at hunion

theorem check_inter_right (hs : s.isOrdinary = true) (hunion : s.unionMembers? = none) :
    check h s (.inter members) = all (isContained s ·) members := by
  rw [check_ordinary hs isOrdinary_inter]
  cases s <;> first | rfl | simp [Ty.unionMembers?] at hunion

theorem check_inter_left (ht : t.isOrdinary = true) (hsimple : t.isSimple = true) :
    check h (.inter members) t = decisive (isContained · t) members := by
  rw [check_ordinary isOrdinary_inter ht]
  cases t <;> first | rfl | simp [Ty.isSimple] at hsimple

theorem check_simple (hs : s.isOrdinary = true) (ht : t.isOrdinary = true)
    (hsource : s.isSimple = true) (htarget : t.isSimple = true) :
    check h s t =
      if s.isAccessory && !t.isAccessory then constraintIn s t else inSimple h s t := by
  rw [check_ordinary hs ht]
  split
  · cases hsource
  · cases htarget
  · cases htarget
  · cases hsource
  · rfl

end Equations

section Value

variable {relation : Ty -> Ty -> Tristate} {s t : Ty}

theorem value_key (key : Key) : (Build.key key).value relation = Ty.ofKey key := by
  cases key <;> rfl

@[simp] theorem value_isContained (a b : Ty) :
    (isContained a b).value relation = relation a b := rfl

theorem value_entryInArray {key value : Ty} {e : Entry Ty} :
    (entryInArray key value e).value relation =
      if e.optional ∧
          (relation (Ty.ofKey e.key) key).and (relation e.value value) = .no then .maybe
      else (relation (Ty.ofKey e.key) key).and (relation e.value value) := by
  simp only [entryInArray, value_bind, value_key, value_isContained]
  rfl

theorem value_inEntry_eq_yes {source : List (Entry Ty)} {t : Entry Ty}
    (hmissing : Shape.entry? source t.key = none -> t.optional = true)
    (hvalues : ∀ s, Shape.entry? source t.key = some s ->
      relation s.value t.value = .yes ∧ (s.optional = true -> t.optional = true)) :
    (inEntry source t).value relation = .yes := by
  unfold inEntry
  split
  · rename_i hnone
    simp [hmissing hnone]
  · rename_i s hs
    rcases hvalues s hs with ⟨hvalue, hoptional⟩
    cases hso : s.optional <;> cases hto : t.optional <;> simp_all

theorem value_inSimple_eq_yes (hs : s.isOrdinary = true)
    (hfits : Fits h (fun a b => relation a b = .yes) s t) :
    (inSimple h s t).value relation = .yes := by
  cases hfits with
  | same k =>
      cases k <;> simp_all [inSimple, inKeyword, Ty.base?, Tristate.ofBool, Ty.callability,
        Ty.isOrdinary]
  | literal_base v => cases v <;> rfl
  | range_int r => rfl
  | object_object cls arguments => rfl
  | this_object cls => rfl
  | object_callable hcall => exact hcall
  | this_callable hcall => exact hcall
  | literal_range hn => simp [inSimple, inRange, hn, Tristate.ofBool]
  | range_range hr => simp [inSimple, inRange, hr]
  | object_bare hdescends =>
      rcases Hierarchy.descends_iff_kinship.mp hdescends with hkin | hkin <;>
        simp [inSimple, inObject, hkin, inArguments, bySubclass]
  | @object_arguments child parent source target hcls hlength hparts =>
      simp only [inSimple, inObject, Hierarchy.kinship_eq_same_iff.mpr hcls]
      unfold inArguments
      split
      · rfl
      · rw [if_neg (by simpa using hlength), value_all, Tristate.all_eq_yes_iff]
        intro a ha
        rcases List.mem_map.mp ha with ⟨pair, hpair, rfl⟩
        exact hparts pair hpair
  | this_bare hdescends =>
      rcases Hierarchy.descends_iff_kinship.mp hdescends with hkin | hkin <;>
        simp [inSimple, inObject, hkin, bySubclass]
  | this_this hdescends =>
      rcases Hierarchy.descends_iff_kinship.mp hdescends with hkin | hkin <;>
        simp [inSimple, inThis, hkin]
  | array_array hk hv => simp [inSimple, inArray, hk, hv]
  | shape_array hentries =>
      simp only [inSimple, inArray, value_all, Tristate.all_eq_yes_iff]
      intro a ha
      rcases List.mem_map.mp ha with ⟨e, he, rfl⟩
      rcases hentries e he with ⟨hk, hv⟩
      simp [value_entryInArray, hk, hv]
  | @shape_shape source target hkeys hmissing hvalues =>
      simp only [inSimple, inShape, shapeInShape, surplusKeys_eq_yes_iff.mpr hkeys,
        value_allFrom, Tristate.yes_and, Tristate.all_eq_yes_iff]
      intro a ha
      rcases List.mem_map.mp ha with ⟨t, ht, rfl⟩
      exact value_inEntry_eq_yes (hmissing t ht) (hvalues t ht)
  | shape_nonEmpty hrequired => simp [inSimple, inAccessory, inNonEmptyArray, hrequired]
  | hasOffset_nonEmpty key => rfl
  | @text_nonEmpty text htext =>
      have hne : (text != "") = true := by simpa using htext
      simp [inSimple, inAccessory, inNonEmptyString, hne, Tristate.ofBool]
  | object_hasProperty hname => exact hname
  | this_hasProperty hname => exact hname
  | shape_hasOffset he hrequired => simp [inSimple, inAccessory, inHasOffset, he, hrequired]

/-- Under a fixed relation a step answers `yes` exactly by the rules. -/
theorem value_check_eq_yes_iff :
    (check h s t).value relation = .yes ↔
      Certain h (fun a b => relation a b = .yes) s t := by
  constructor
  · let terms : Terms := ⟨fun _ _ => True, fun a b r => r = relation a b, fun _ => True, False⟩
    have hmeets : (check h s t).Meets terms fun r =>
        r = .yes -> Certain h (fun a b => relation a b = .yes) s t :=
      meets_check (fun _ _ _ => trivial) (fun _ _ hr => hr.symm) (fun _ => trivial)
    exact hmeets.value fun _ _ _ => rfl
  · intro hcertain
    cases hcertain with
    | mixed hs => simp [check, settled?_eq_yes_iff.mpr (Or.inl ⟨rfl, hs⟩)]
    | never ht => simp [check, settled?_eq_yes_iff.mpr (Or.inr ⟨rfl, ht⟩)]
    | union_left ht hne hall =>
        rw [check_union_left ht, value_unanimous, Tristate.unanimous_eq_iff (by decide)]
        exact ⟨by simpa using hne, by simpa using hall⟩
    | union_right hs hunion hm hR =>
        rw [check_union_right hs hunion, value_any, Tristate.any_eq_yes_iff]
        exact List.mem_map.mpr ⟨_, hm, hR⟩
    | inter_right hs hunion hall =>
        rw [check_inter_right hs hunion, value_all, Tristate.all_eq_yes_iff]
        simpa using hall
    | inter_left ht hsimple hm hR =>
        rw [check_inter_left ht hsimple, value_decisive, Tristate.decisive_eq_yes_iff]
        exact List.mem_map.mpr ⟨_, hm, hR⟩
    | fits hs ht hfits =>
        rw [check_simple hs ht hfits.isSimple.1 hfits.isSimple.2, if_neg]
        · exact value_inSimple_eq_yes hs hfits
        · cases hfits <;> simp [Ty.isAccessory]

end Value

end Subtype
end GradualTypes
