import GradualTypes.Proofs.Apart
import GradualTypes.Proofs.Exact

/-!
# Answers that rest on values

The answer `no` is meant to say that two types share no value.  A few steps say it
of types that do: of two arrays, which share the empty one, and of callable types,
where the same two types in the other order get the answer `maybe` or even `yes`.
`Subtype.isDoubtful` lists these pairs of types, and `Subtype.cautious` is the
relation with `maybe` for the answer `no` of such a step.

Every other step that answers `no` does so by the rules of being apart.
-/

namespace GradualTypes
namespace Subtype

open Inquiry

variable {h : Hierarchy} {relation : Ty -> Ty -> Tristate} {s t : Ty}

/-- Whether a step may answer `no` for two types that share values. -/
def isDoubtful (h : Hierarchy) : Ty -> Ty -> Bool
  | .array _ _, .array _ _ => true
  | .keyword .callable, .keyword .string => true
  | .keyword .callable, .this cls => h.isInvokable cls != .no
  | .literal (.text _), .keyword .callable => true
  | .shape _, .keyword .callable => true
  | .object _ _, .keyword .callable => true
  | _, _ => false

/-- The relation without doubtful answers, with questions followed to a given
depth. -/
def cautiousTo (h : Hierarchy) : Nat -> Ty -> Ty -> Tristate
  | 0 => fun _ _ => .maybe
  | depth + 1 => fun source target =>
      if source = target then .yes
      else
        let answer := (check h source target).value (cautiousTo h depth)
        if answer = .no ∧ isDoubtful h source target then .maybe else answer

/-- The relation without doubtful answers. -/
def cautious (h : Hierarchy) (source target : Ty) : Tristate :=
  cautiousTo h (source.height + target.height) source target

/-!
# Steps between simple types of a common category
-/

/-- Whether some category is one of both types. -/
def SharesCategory (s t : Ty) : Prop :=
  ∃ c ∈ s.categories, c ∈ t.categories

theorem inKeyword_of_shared {k : Keyword} (hs : s.isAccessory = false)
    (hshare : SharesCategory s (.keyword k)) (hne : s ≠ .keyword k)
    (hdoubt : isDoubtful h s (.keyword k) = false) (hanswer : inKeyword h s k = .no) :
    ∃ cls, s = .this cls ∧ k = .callable ∧ h.isInvokable cls = .no := by
  rcases hshare with ⟨c, hc, hc'⟩
  cases s with
  | keyword l =>
      cases k <;> cases l <;> simp_all [inKeyword, Ty.callability, Ty.categories,
        Keyword.categories, isDoubtful]
  | literal v =>
      cases k <;> cases v <;> simp_all [inKeyword, Ty.categories, Keyword.categories,
        Literal.base, isDoubtful, Ty.base?, Tristate.ofBool]
  | this cls =>
      cases k <;> simp_all [inKeyword, Ty.callability, Ty.categories, Keyword.categories]
  | accessory a => cases hs
  | _ =>
      cases k <;> simp_all [inKeyword, Ty.callability, Ty.categories, Keyword.categories,
        isDoubtful, Ty.base?, Tristate.ofBool]

theorem apart_of_inLiteral {v : Literal} (hs : s.isAccessory = false)
    (hshare : SharesCategory s (.literal v)) (hne : s ≠ .literal v)
    (hanswer : inLiteral s v = .no) : Apart h s (.literal v) := by
  rcases hshare with ⟨c, hc, hc'⟩
  cases s with
  | keyword k =>
      cases k <;> cases v <;> simp_all [inLiteral, Ty.categories, Keyword.categories, Literal.base]
  | literal w => exact .of_clash (.literals fun heq => hne (by rw [heq]))
  | range r =>
      cases v with
      | int n =>
          refine (Apart.of_clash (.literal_range (Bool.eq_false_iff.mpr fun hn => ?_))).symm
          simp [inLiteral, hn] at hanswer
      | _ => simp_all [Ty.categories, Keyword.categories, Literal.base]
  | accessory a => cases hs
  | _ => cases v <;> simp_all [Ty.categories, Keyword.categories, Literal.base]

theorem apart_of_inRange {r : IntRange} (hs : s.isAccessory = false)
    (hshare : SharesCategory s (.range r)) (hanswer : inRange s r = .no) :
    Apart h s (.range r) := by
  rcases hshare with ⟨c, hc, hc'⟩
  cases s with
  | keyword k => cases k <;> simp_all [inRange, Ty.categories, Keyword.categories]
  | literal w =>
      cases w with
      | int n =>
          refine .of_clash (.literal_range (Bool.eq_false_iff.mpr fun hn => ?_))
          simp [inRange, hn, Tristate.ofBool] at hanswer
      | _ => simp_all [Ty.categories, Keyword.categories, Literal.base]
  | range s =>
      refine .of_clash (.ranges (Bool.eq_false_iff.mpr fun hoverlap => ?_))
      simp only [inRange, hoverlap] at hanswer
      split at hanswer <;> cases hanswer
  | accessory a => cases hs
  | _ => simp_all [Ty.categories]

section Parts

variable (hno : ∀ a b, relation a b = .no -> Apart h a b)

include hno in
theorem apart_of_inArguments {c d : String} {source target : List Ty}
    (hcls : c.toLower = d.toLower) (hanswer : (inArguments source target).value relation = .no) :
    Apart h (.object c source) (.object d target) := by
  unfold inArguments at hanswer
  split at hanswer
  · cases hanswer
  · split at hanswer
    · cases hanswer
    · rename_i hlength
      rw [value_all, Tristate.all_eq_no_iff] at hanswer
      rcases List.mem_map.mp hanswer with ⟨pair, hpair, hpair'⟩
      exact .of_clash (.arguments hcls (Decidable.not_not.mp hlength) hpair (hno _ _ hpair'))

include hno in
theorem apart_of_inObject {cls : String} {arguments : List Ty} (hs : s.isAccessory = false)
    (hshare : SharesCategory s (.object cls arguments))
    (hanswer : (inObject h s cls arguments).value relation = .no) :
    Apart h s (.object cls arguments) := by
  rcases hshare with ⟨c, hc, hc'⟩
  have hsubclass : bySubclass arguments ≠ .no := by
    unfold bySubclass
    split <;> simp
  cases s with
  | object child source =>
      simp only [inObject] at hanswer
      split at hanswer
      · rename_i hsame
        exact apart_of_inArguments hno (Hierarchy.kinship_eq_same_iff.mp hsame) hanswer
      · exact absurd hanswer hsubclass
      · rename_i hdisjoint
        exact .of_clash (.classes rfl rfl hdisjoint)
      · cases hanswer
  | this child =>
      simp only [inObject] at hanswer
      split at hanswer
      · exact absurd hanswer hsubclass
      · exact absurd hanswer hsubclass
      · rename_i hdisjoint
        exact .of_clash (.classes rfl rfl hdisjoint)
      · cases hanswer
  | keyword k => cases k <;> simp_all [inObject, Ty.categories, Keyword.categories]
  | literal v => cases v <;> simp_all [Ty.categories, Keyword.categories, Literal.base]
  | accessory a => cases hs
  | _ => simp_all [Ty.categories]

theorem apart_of_inThis {cls : String} (hs : s.isAccessory = false)
    (hshare : SharesCategory s (.this cls)) (hdoubt : isDoubtful h s (.this cls) = false)
    (hanswer : inThis h s cls = .no) : Apart h s (.this cls) := by
  rcases hshare with ⟨c, hc, hc'⟩
  cases s with
  | object child source =>
      simp only [inThis] at hanswer
      split at hanswer
      · rename_i hdisjoint
        exact .of_clash (.classes rfl rfl hdisjoint)
      · cases hanswer
  | this child =>
      simp only [inThis] at hanswer
      split at hanswer
      · cases hanswer
      · cases hanswer
      · rename_i hdisjoint
        exact .of_clash (.classes rfl rfl hdisjoint)
      · cases hanswer
  | keyword k =>
      cases k with
      | callable => exact (Apart.of_clash (.uncallable (by simpa [isDoubtful] using hdoubt))).symm
      | _ => simp_all [inThis, Ty.categories, Keyword.categories]
  | literal v => cases v <;> simp_all [Ty.categories, Keyword.categories, Literal.base]
  | accessory a => cases hs
  | _ => simp_all [Ty.categories]

include hno in
theorem apart_of_entryInArray {entries : List (Entry Ty)} {e : Entry Ty} {k v : Ty}
    (he : e ∈ entries) (hanswer : (entryInArray k v e).value relation = .no) :
    Apart h (.shape entries) (.array k v) := by
  rw [value_entryInArray] at hanswer
  split at hanswer
  · cases hanswer
  · rename_i hoptional
    have hrequired : e.optional = false := Bool.eq_false_iff.mpr fun heo => hoptional ⟨heo, hanswer⟩
    rcases Tristate.and_eq_no_iff.mp hanswer with hkey | hvalue
    · exact .of_clash (.entry_key he hrequired (hno _ _ hkey))
    · exact .of_clash (.entry_value he hrequired (hno _ _ hvalue))

include hno in
theorem apart_of_inArray {k v : Ty} (hs : s.isAccessory = false)
    (hshare : SharesCategory s (.array k v)) (hdoubt : isDoubtful h s (.array k v) = false)
    (hanswer : (inArray s k v).value relation = .no) : Apart h s (.array k v) := by
  rcases hshare with ⟨c, hc, hc'⟩
  cases s with
  | array k' v' => cases hdoubt
  | shape entries =>
      simp only [inArray, value_all, Tristate.all_eq_no_iff] at hanswer
      rcases List.mem_map.mp hanswer with ⟨e, he, hanswer⟩
      exact apart_of_entryInArray hno he hanswer
  | keyword k => cases k <;> simp_all [inArray, Ty.categories, Keyword.categories]
  | literal v => cases v <;> simp_all [Ty.categories, Keyword.categories, Literal.base]
  | accessory a => cases hs
  | _ => simp_all [Ty.categories]

include hno in
theorem apart_of_mayHaveEntry {entries : List (Entry Ty)} {e : Entry Ty} {k v : Ty}
    (he : e ∈ entries) (hrequired : e.optional = false)
    (hanswer : (mayHaveEntry k v e).value relation = false) :
    Apart h (.array k v) (.shape entries) := by
  apply Apart.symm
  by_cases hkey : relation (Ty.ofKey e.key) k = .no
  · exact .of_clash (.entry_key he hrequired (hno _ _ hkey))
  · by_cases hvalue : relation e.value v = .no
    · exact .of_clash (.entry_value he hrequired (hno _ _ hvalue))
    · simp [mayHaveEntry, value_key, hkey, hvalue] at hanswer

include hno in
theorem apart_of_arrayInShape {all entries : List (Entry Ty)} {k v : Ty}
    (hsub : ∀ e ∈ entries, e ∈ all) (hanswer : (arrayInShape k v entries).value relation = .no) :
    Apart h (.array k v) (.shape all) := by
  induction entries with
  | nil => cases hanswer
  | cons e rest ih =>
      rw [List.forall_mem_cons] at hsub
      unfold arrayInShape at hanswer
      split at hanswer
      · exact ih hsub.2 hanswer
      · rename_i hoptional
        rw [value_bind] at hanswer
        split at hanswer
        · exact ih hsub.2 hanswer
        · rename_i hentry
          exact apart_of_mayHaveEntry hno hsub.1 (by simpa using hoptional) (by simpa using hentry)

theorem exists_surplus {source target : List (Entry Ty)} (hno : surplusKeys source target = .no) :
    ∃ e ∈ source, e.optional = false ∧ Shape.entry? target e.key = none := by
  rcases List.mem_map.mp (Tristate.all_eq_no_iff.mp hno) with ⟨e, he, hanswer⟩
  rcases List.mem_filter.mp he with ⟨hmem, hnone⟩
  refine ⟨e, hmem, ?_, by simpa using hnone⟩
  split at hanswer
  · cases hanswer
  · simpa using ‹¬ e.optional = true›

include hno in
theorem apart_of_shapeInShape {source target : List (Entry Ty)}
    (hanswer : (shapeInShape source target).value relation = .no) :
    Apart h (.shape source) (.shape target) := by
  have hsurplus : surplusKeys source target = .no -> Apart h (.shape source) (.shape target) := by
    intro hno
    rcases exists_surplus hno with ⟨e, he, hrequired, hnone⟩
    exact .of_clash (.missing he hrequired hnone)
  unfold shapeInShape at hanswer
  split at hanswer
  · exact hsurplus ‹_›
  · rw [value_allFrom, Tristate.and_eq_no_iff, Tristate.all_eq_no_iff] at hanswer
    rcases hanswer with hsurplus' | hentry
    · exact hsurplus hsurplus'
    · rcases List.mem_map.mp hentry with ⟨f, hf, hentry⟩
      unfold inEntry at hentry
      split at hentry
      · rename_i hnone
        refine (Apart.of_clash (.missing hf ?_ hnone)).symm
        cases hfo : f.optional <;> simp_all
      · rename_i e he
        rcases Shape.mem_of_entry? he with ⟨hmem, hkey⟩
        simp only [value_bind, value_isContained, value_pure] at hentry
        have hvalues : relation e.value f.value = .no ∧
            ¬ (e.optional = true ∧ f.optional = true) := by
          cases hvalue : relation e.value f.value <;> cases heo : e.optional <;>
            cases hfo : f.optional <;> simp [hvalue, heo, hfo, Tristate.and] at hentry ⊢
        exact .of_clash (.values hmem hf hkey hvalues.2 (hno _ _ hvalues.1))

include hno in
theorem apart_of_inShape {entries : List (Entry Ty)} (hs : s.isAccessory = false)
    (hshare : SharesCategory s (.shape entries))
    (hanswer : (inShape s entries).value relation = .no) : Apart h s (.shape entries) := by
  rcases hshare with ⟨c, hc, hc'⟩
  cases s with
  | shape source => exact apart_of_shapeInShape hno hanswer
  | array k v => exact apart_of_arrayInShape hno (fun _ he => he) hanswer
  | keyword k => cases k <;> simp_all [inShape, Ty.categories, Keyword.categories]
  | literal v => cases v <;> simp_all [Ty.categories, Keyword.categories, Literal.base]
  | accessory a => cases hs
  | _ => simp_all [Ty.categories]

theorem apart_of_inNonEmptyArray (hshare : SharesCategory s (.accessory .nonEmptyArray))
    (hne : s ≠ .accessory .nonEmptyArray) (hanswer : inNonEmptyArray s = .no) :
    Apart h s (.accessory .nonEmptyArray) := by
  rcases hshare with ⟨c, hc, hc'⟩
  cases s with
  | shape entries =>
      simp only [inNonEmptyArray] at hanswer
      split at hanswer
      · cases hanswer
      · split at hanswer
        · rename_i hempty
          rw [List.isEmpty_iff.mp hempty]
          exact .of_clash .empty_shape
        · cases hanswer
  | keyword k => cases k <;> simp_all [inNonEmptyArray, Ty.categories, Keyword.categories]
  | literal v => cases v <;> simp_all [Ty.categories, Keyword.categories, Literal.base]
  | accessory a => cases a <;> simp_all [inNonEmptyArray, Ty.categories]
  | _ => simp_all [inNonEmptyArray, Ty.categories]

theorem apart_of_inNonEmptyString (hshare : SharesCategory s (.accessory .nonEmptyString))
    (hne : s ≠ .accessory .nonEmptyString) (hanswer : inNonEmptyString s = .no) :
    Apart h s (.accessory .nonEmptyString) := by
  rcases hshare with ⟨c, hc, hc'⟩
  cases s with
  | literal v =>
      cases v with
      | text text =>
          by_cases htext : text = ""
          · rw [htext]
            exact .of_clash .empty_text
          · have hneText : (text != "") = true := by simpa using htext
            simp [inNonEmptyString, hneText, Tristate.ofBool] at hanswer
      | _ => simp_all [Ty.categories, Keyword.categories, Literal.base]
  | keyword k => cases k <;> simp_all [inNonEmptyString, Ty.categories, Keyword.categories]
  | accessory a => cases a <;> simp_all [Ty.categories]
  | _ => simp_all [Ty.categories]

theorem apart_of_inHasProperty {name : String}
    (hshare : SharesCategory s (.accessory (.hasProperty name)))
    (hanswer : inHasProperty h name s = .no) : Apart h s (.accessory (.hasProperty name)) := by
  rcases hshare with ⟨c, hc, hc'⟩
  cases s with
  | object cls arguments => exact .of_clash (.property rfl hanswer)
  | this cls => exact .of_clash (.property rfl hanswer)
  | keyword k => cases k <;> simp_all [inHasProperty, Ty.categories, Keyword.categories]
  | literal v => cases v <;> simp_all [Ty.categories, Keyword.categories, Literal.base]
  | accessory a => cases a <;> simp_all [inHasProperty, Ty.categories]
  | _ => simp_all [Ty.categories]

include hno in
theorem apart_of_inHasOffset {key : Key}
    (hshare : SharesCategory s (.accessory (.hasOffset key)))
    (hanswer : (inHasOffset key s).value relation = .no) :
    Apart h s (.accessory (.hasOffset key)) := by
  rcases hshare with ⟨c, hc, hc'⟩
  cases s with
  | shape entries =>
      cases he : Shape.entry? entries key with
      | none => exact .of_clash (.offset_missing he)
      | some e =>
          simp only [inHasOffset, he, value_pure] at hanswer
          split at hanswer <;> cases hanswer
  | array k v =>
      refine .of_clash (.offset_key (hno _ _ ?_))
      by_cases hkey : relation (Ty.ofKey key) k = .no
      · exact hkey
      · simp [inHasOffset, value_key, hkey] at hanswer
  | keyword k => cases k <;> simp_all [inHasOffset, Ty.categories, Keyword.categories]
  | literal v => cases v <;> simp_all [Ty.categories, Keyword.categories, Literal.base]
  | accessory a => cases a <;> simp_all [inHasOffset, Ty.categories]
  | _ => simp_all [Ty.categories]

/-!
# All steps
-/

include hno in
theorem apart_of_inSimple (hs : s.isOrdinary = true) (ht : t.isOrdinary = true)
    (hs' : s.isSimple = true) (ht' : t.isSimple = true) (hne : s ≠ t)
    (hconstraint : (s.isAccessory && !t.isAccessory) = false)
    (hdoubt : isDoubtful h s t = false) (hanswer : (inSimple h s t).value relation = .no) :
    Apart h s t := by
  by_cases hshare : SharesCategory s t
  · have hplain : t.isAccessory = false -> s.isAccessory = false := by
      intro ht
      simpa [ht] using hconstraint
    cases t with
    | keyword k =>
        rcases inKeyword_of_shared (hplain rfl) hshare hne hdoubt hanswer with
          ⟨cls, rfl, rfl, hcall⟩
        exact .of_clash (.uncallable hcall)
    | literal v => exact apart_of_inLiteral (hplain rfl) hshare hne hanswer
    | range r => exact apart_of_inRange (hplain rfl) hshare hanswer
    | object cls arguments => exact apart_of_inObject hno (hplain rfl) hshare hanswer
    | this cls => exact apart_of_inThis (hplain rfl) hshare hdoubt hanswer
    | array k v => exact apart_of_inArray hno (hplain rfl) hshare hdoubt hanswer
    | shape entries => exact apart_of_inShape hno (hplain rfl) hshare hanswer
    | accessory a =>
        cases a with
        | nonEmptyArray => exact apart_of_inNonEmptyArray hshare hne hanswer
        | nonEmptyString => exact apart_of_inNonEmptyString hshare hne hanswer
        | hasProperty name => exact apart_of_inHasProperty hshare hanswer
        | hasOffset key => exact apart_of_inHasOffset hno hshare hanswer
    | union flavor members => cases ht'
    | inter members => cases ht'
    | _ => obtain ⟨c, -, hc⟩ := hshare; cases hc
  · exact .of_clash (.categories hs ht hs' ht' fun c hc hc' => hshare ⟨c, hc, hc'⟩)

theorem isAbsent_of_settled? (hsettled : settled? s t = some .no) :
    s.isAbsent = true ∨ t.isAbsent = true := by
  revert hsettled
  unfold settled? Ty.isAbsent
  cases s.isUnknown <;> cases t.isUnknown <;> cases s.isMissing <;> cases t.isMissing <;>
    by_cases htmixed : t = .mixed <;> by_cases hsmixed : s = .mixed <;>
    by_cases hsnever : s = .never <;> by_cases htnever : t = .never <;> simp_all

include hno in
theorem apart_of_check_simple (hs : s.isOrdinary = true) (ht : t.isOrdinary = true)
    (hs' : s.isSimple = true) (ht' : t.isSimple = true) (hne : s ≠ t)
    (hdoubt : isDoubtful h s t = false) (hanswer : (check h s t).value relation = .no) :
    Apart h s t := by
  rw [check_simple hs ht hs' ht'] at hanswer
  split at hanswer
  · refine (hno t s ?_).symm
    by_cases hts : relation t s = .no
    · exact hts
    · simp [constraintIn, hts] at hanswer
  · rename_i hconstraint
    exact apart_of_inSimple hno hs ht hs' ht' hne (by simpa using hconstraint) hdoubt hanswer

include hno in
/-- A step that answers `no` and is not doubtful does so by the rules of being
apart. -/
theorem apart_of_check (hne : s ≠ t) (hdoubt : isDoubtful h s t = false)
    (hanswer : (check h s t).value relation = .no) : Apart h s t := by
  cases hsettled : settled? s t with
  | some answer =>
      simp only [check, hsettled, value_pure] at hanswer
      exact (isAbsent_of_settled? (hanswer ▸ hsettled)).elim .absent_left .absent_right
  | none =>
      rcases settled?_eq_none_iff.mp hsettled with ⟨hs, ht⟩
      have hright : s.unionMembers? = none -> t.isSimple = false -> Apart h s t := by
        intro hunion hsimple
        rcases t.union_or_inter_or_simple with ⟨flavor, members, rfl⟩ | ⟨members, rfl⟩ | ht'
        · rw [check_union_right hs hunion, value_any, Tristate.any_eq_no_iff] at hanswer
          exact .union_right fun m hm => hno s m (hanswer _ (List.mem_map_of_mem hm))
        · rw [check_inter_right hs hunion, value_all, Tristate.all_eq_no_iff] at hanswer
          rcases List.mem_map.mp hanswer with ⟨m, hm, hsm⟩
          exact .inter_right hm (hno s m hsm)
        · cases hsimple.symm.trans ht'
      rcases s.union_or_inter_or_simple with ⟨flavor, members, rfl⟩ | ⟨members, rfl⟩ | hs'
      · rw [check_union_left ht, value_unanimous, Tristate.unanimous_eq_iff (by decide)] at hanswer
        exact .union_left fun m hm => hno m t (hanswer.2 _ (List.mem_map_of_mem hm))
      · cases ht' : t.isSimple with
        | false => exact hright rfl ht'
        | true =>
            rw [check_inter_left ht ht', value_decisive, Tristate.decisive_eq_no_iff] at hanswer
            rcases List.mem_map.mp hanswer.2 with ⟨m, hm, hmt⟩
            exact .inter_left hm (hno m t hmt)
      · cases ht' : t.isSimple with
        | false => exact hright (Ty.unionMembers?_of_isSimple hs') ht'
        | true => exact apart_of_check_simple hno hs ht hs' ht' hne hdoubt hanswer

end Parts

theorem apart_of_cautiousTo {n : Nat} (hanswer : cautiousTo h n s t = .no) : Apart h s t := by
  induction n generalizing s t with
  | zero => cases hanswer
  | succ n ih =>
      simp only [cautiousTo] at hanswer
      split at hanswer
      · cases hanswer
      · rename_i hne
        split at hanswer
        · cases hanswer
        · rename_i hdoubt
          exact apart_of_check (fun a b => ih) hne (by simpa [hanswer] using hdoubt) hanswer

end Subtype
end GradualTypes
