import GradualTypes.Proofs.Exact
import GradualTypes.Proofs.Parts

/-!
# Answers beyond the depth limit

Beyond the limit a question is answered `maybe`, which says less than the exact answer
but nothing else.  A step approximates its answer in this sense if the answers that it
gets are approximations, with one exception: an intersection one of whose members is
certainly contained in a type is contained in it too, even if another member is excluded
from it, and beyond the limit the excluded member may be the only one that is known.
-/

namespace GradualTypes

open Inquiry

namespace Tristate

/-- An answer that says no more than another one: it is the same, or `maybe`. -/
def Approximates (r s : Tristate) : Prop :=
  r = maybe ∨ r = s

instance (r s : Tristate) : Decidable (r.Approximates s) :=
  inferInstanceAs (Decidable (_ ∨ _))

variable {r r' s s' : Tristate}

theorem Approximates.refl (r : Tristate) : r.Approximates r :=
  Or.inr rfl

/-- A definite answer is approximated by itself only. -/
theorem Approximates.eq (h : r.Approximates s) (hr : r ≠ maybe) : s = r :=
  (h.resolve_left hr).symm

theorem Approximates.map (h : r.Approximates s) {f : Tristate -> Tristate}
    (hf : f maybe = maybe) : (f r).Approximates (f s) := by
  rcases h with rfl | rfl
  · exact Or.inl hf
  · exact .refl _

theorem Approximates.and (h : r.Approximates s) (h' : r'.Approximates s') :
    (r.and r').Approximates (s.and s') := by
  rcases h with rfl | rfl <;> rcases h' with rfl | rfl
  · exact Or.inl rfl
  · cases s <;> cases r' <;> decide
  · cases r <;> cases s' <;> decide
  · exact .refl _

theorem Approximates.or (h : r.Approximates s) (h' : r'.Approximates s') :
    (r.or r').Approximates (s.or s') := by
  rcases h with rfl | rfl <;> rcases h' with rfl | rfl
  · exact Or.inl rfl
  · cases s <;> cases r' <;> decide
  · cases r <;> cases s' <;> decide
  · exact .refl _

end Tristate

/-- Terms under which the answers approximate those of a relation. -/
def Terms.approximating (asks : Ty -> Ty -> Prop) (relation : Ty -> Ty -> Tristate) : Terms :=
  ⟨asks, fun s t r => r.Approximates (relation s t), fun _ => True, False⟩

namespace Inquiry

variable {α : Type} {asks : Ty -> Ty -> Prop} {relation : Ty -> Ty -> Tristate}

/-- If the answers to an inquiry approximate those of a relation, so does its result. -/
def IsSteady (asks : Ty -> Ty -> Prop) (relation : Ty -> Ty -> Tristate)
    (q : Inquiry Tristate) : Prop :=
  q.Meets (.approximating asks relation) fun r => r.Approximates (q.value relation)

theorem isSteady_pure (r : Tristate) : IsSteady asks relation (pure r) :=
  .refl r

theorem isSteady_isContained {s t : Ty} (hasks : asks s t) :
    IsSteady asks relation (isContained s t) :=
  ⟨hasks, fun _ hr => hr⟩

theorem IsSteady.map {q : Inquiry Tristate} (hq : IsSteady asks relation q)
    {f : Tristate -> Tristate} (hf : f .maybe = .maybe) :
    IsSteady asks relation (q >>= fun r => pure (f r)) := by
  unfold IsSteady
  rw [value_bind]
  exact hq.bind fun r hr => hr.map hf

/-!
# Summaries
-/

section Summaries

variable {question : α -> Inquiry Tristate} {items : List α}

theorem isSteady_allFrom {known : Tristate}
    (h : ∀ a ∈ items, IsSteady asks relation (question a)) :
    IsSteady asks relation (allFrom known question items) := by
  suffices hlist : ∀ exact, known.Approximates exact ->
      (allFrom known question items).Meets (.approximating asks relation) fun r =>
        r.Approximates (exact.and (.all (items.map fun a => (question a).value relation))) by
    unfold IsSteady
    rw [value_allFrom]
    exact hlist known (.refl known)
  induction items generalizing known with
  | nil =>
      intro exact hknown
      simpa [allFrom, Tristate.all] using hknown
  | cons a rest ih =>
      rw [List.forall_mem_cons] at h
      intro exact hknown
      apply h.1.bind
      intro r hr
      have hand := hknown.and hr
      rw [List.map_cons, Tristate.all, ← Tristate.and_assoc]
      dsimp only
      split
      · rename_i hno
        rw [hno] at hand
        rw [hand.eq (by decide), Tristate.no_and]
        exact .refl _
      · exact ih h.2 _ hand

theorem isSteady_all (h : ∀ a ∈ items, IsSteady asks relation (question a)) :
    IsSteady asks relation (all question items) :=
  isSteady_allFrom h

theorem isSteady_any (h : ∀ a ∈ items, IsSteady asks relation (question a)) :
    IsSteady asks relation (any question items) := by
  suffices hlist : ∀ known exact : Tristate, known.Approximates exact ->
      (anyFrom known question items).Meets (.approximating asks relation) fun r =>
        r.Approximates (exact.or (.any (items.map fun a => (question a).value relation))) by
    unfold IsSteady
    rw [value_any, ← Tristate.no_or (.any _)]
    exact hlist .no .no (.refl _)
  induction items with
  | nil =>
      intro known exact hknown
      simpa [anyFrom, Tristate.any] using hknown
  | cons a rest ih =>
      rw [List.forall_mem_cons] at h
      intro known exact hknown
      apply h.1.bind
      intro r hr
      have hor := hknown.or hr
      rw [List.map_cons, Tristate.any, ← Tristate.or_assoc]
      dsimp only
      split
      · rename_i hyes
        rw [hyes] at hor
        rw [hor.eq (by decide), Tristate.yes_or]
        exact .refl _
      · exact ih h.2 _ _ hor

theorem isSteady_unanimousFrom {first : Tristate}
    (h : ∀ a ∈ items, IsSteady asks relation (question a)) (hfirst : first ≠ .maybe) :
    IsSteady asks relation (unanimousFrom first question items) := by
  unfold IsSteady
  rw [value_unanimousFrom]
  induction items with
  | nil => exact .refl first
  | cons a rest ih =>
      rw [List.forall_mem_cons] at h
      apply h.1.bind
      intro r hr
      by_cases heq : r = first
      · subst heq
        simpa [hr.eq hfirst] using ih h.2
      · rw [if_neg heq]
        exact Or.inl rfl

theorem isSteady_unanimous (h : ∀ a ∈ items, IsSteady asks relation (question a)) :
    IsSteady asks relation (unanimous question items) := by
  cases items with
  | nil => exact .refl _
  | cons a rest =>
      rw [List.forall_mem_cons] at h
      unfold IsSteady
      rw [unanimous, value_bind]
      apply h.1.bind
      intro r hr
      by_cases hmaybe : r = .maybe
      · rw [if_pos hmaybe]
        exact Or.inl rfl
      · rw [hr.eq hmaybe, if_neg hmaybe]
        exact isSteady_unanimousFrom h.2 hmaybe

/-- For `decisive` the exact answers must not contain both `yes` and `no`. -/
theorem isSteady_decisive (h : ∀ a ∈ items, IsSteady asks relation (question a))
    (hagree : (∃ a ∈ items, (question a).value relation = .yes) ->
      ∀ a ∈ items, (question a).value relation ≠ .no) :
    IsSteady asks relation (decisive question items) := by
  have hresult : (decisive question items).Meets (.approximating asks relation) fun r =>
      (r = .yes -> ∃ a ∈ items, (question a).value relation = .yes) ∧
        (r = .no -> ∃ a ∈ items, (question a).value relation = .no) := by
    suffices hlist : ∀ known : Tristate, known ≠ .yes ->
        (decisiveFrom known question items).Meets (.approximating asks relation) fun r =>
          (r = .yes -> ∃ a ∈ items, (question a).value relation = .yes) ∧
            (r = .no -> known = .no ∨ ∃ a ∈ items, (question a).value relation = .no) from
      (hlist .maybe (by decide)).imp fun r hr =>
        ⟨hr.1, fun hno => (hr.2 hno).resolve_left (by decide)⟩
    clear hagree
    induction items with
    | nil =>
        intro known hknown
        exact ⟨fun hyes => absurd hyes hknown, Or.inl⟩
    | cons a rest ih =>
        rw [List.forall_mem_cons] at h
        intro known hknown
        apply h.1.bind
        intro r hr
        have hrest : ∀ known' : Tristate, known' ≠ .yes ->
            (known' = .no -> known = .no ∨ (question a).value relation = .no) ->
            (decisiveFrom known' question rest).Meets (.approximating asks relation) fun r =>
              (r = .yes -> ∃ b ∈ a :: rest, (question b).value relation = .yes) ∧
                (r = .no -> known = .no ∨ ∃ b ∈ a :: rest, (question b).value relation = .no) := by
          intro known' hne hknown'
          apply (ih h.2 known' hne).imp
          rintro r ⟨hyes, hno⟩
          constructor
          · intro hr
            obtain ⟨b, hb, hvalue⟩ := hyes hr
            exact ⟨b, List.mem_cons_of_mem _ hb, hvalue⟩
          · intro hr
            rcases hno hr with hr' | ⟨b, hb, hvalue⟩
            · exact (hknown' hr').imp id fun hvalue => ⟨a, List.mem_cons_self, hvalue⟩
            · exact Or.inr ⟨b, List.mem_cons_of_mem _ hb, hvalue⟩
        cases r with
        | yes => exact ⟨fun _ => ⟨a, List.mem_cons_self, hr.eq (by decide)⟩, by simp⟩
        | no => exact hrest .no (by decide) fun _ => Or.inr (hr.eq (by decide))
        | maybe => exact hrest known hknown Or.inl
  unfold IsSteady
  rw [value_decisive]
  apply hresult.imp
  rintro r ⟨hyes, hno⟩
  cases r with
  | maybe => exact Or.inl rfl
  | yes =>
      obtain ⟨a, ha, hvalue⟩ := hyes rfl
      exact Or.inr (Tristate.decisive_eq_yes_iff.mpr (List.mem_map.mpr ⟨a, ha, hvalue⟩)).symm
  | no =>
      obtain ⟨a, ha, hvalue⟩ := hno rfl
      refine Or.inr (Tristate.decisive_eq_no_iff.mpr ⟨?_, List.mem_map.mpr ⟨a, ha, hvalue⟩⟩).symm
      intro hmem
      obtain ⟨b, hb, hvalue'⟩ := List.mem_map.mp hmem
      exact hagree ⟨b, hb, hvalue'⟩ a ha hvalue

end Summaries

end Inquiry

namespace Subtype

open Ty (Everywhere)

variable {h : Hierarchy} {asks : Ty -> Ty -> Prop} {relation : Ty -> Ty -> Tristate} {s t : Ty}

/-!
# One step
-/

/-- All questions that a step may ask are allowed: about a child of either type, about two
children either way round, about a key and a child, and the reverse question about a
constraint. -/
structure Permits (asks : Ty -> Ty -> Prop) (s t : Ty) : Prop where
  left : ∀ a ∈ s.children, asks a t
  right : ∀ b ∈ t.children, asks s b
  parts : ∀ a ∈ s.children, ∀ b ∈ t.children, asks a b ∧ asks b a
  key_left : ∀ key, ∀ a ∈ s.children, asks (Ty.ofKey key) a
  key_right : ∀ key, ∀ b ∈ t.children, asks (Ty.ofKey key) b
  reverse : s.isAccessory = true -> asks t s

theorem isSteady_key {key : Key} {f : Ty -> Inquiry Tristate}
    (hf : IsSteady asks relation (f (Ty.ofKey key))) :
    IsSteady asks relation (Build.key key >>= f) := by
  cases key with
  | int n => exact ⟨trivial, hf⟩
  | text s => exact ⟨trivial, hf⟩

theorem isSteady_inArguments {source target : List Ty}
    (hasks : ∀ a ∈ source, ∀ b ∈ target, asks a b) :
    IsSteady asks relation (inArguments source target) := by
  unfold inArguments
  split
  · exact isSteady_pure _
  · split
    · exact isSteady_pure _
    · apply isSteady_all
      intro pair hpair
      rcases List.of_mem_zip hpair with ⟨ha, hb⟩
      exact isSteady_isContained (hasks _ ha _ hb)

theorem isSteady_inObject {cls : String} {arguments : List Ty}
    (hpermits : Permits asks s (.object cls arguments)) :
    IsSteady asks relation (inObject h s cls arguments) := by
  cases s with
  | object sourceCls sourceArguments =>
      simp only [inObject]
      split
      · exact isSteady_inArguments fun a ha b hb => (hpermits.parts a ha b hb).1
      all_goals exact isSteady_pure _
  | this sourceCls =>
      simp only [inObject]
      split
      all_goals exact isSteady_pure _
  | keyword k => cases k <;> exact isSteady_pure _
  | _ => exact isSteady_pure _

theorem isSteady_entryInArray {key value : Ty} {e : Entry Ty}
    (hkey : asks (Ty.ofKey e.key) key) (hvalue : asks e.value value) :
    IsSteady asks relation (entryInArray key value e) := by
  apply isSteady_key
  unfold IsSteady
  simp only [meets_bind, meets_isContained, value_bind, value_isContained]
  refine ⟨hkey, fun byKey hbyKey => ⟨hvalue, fun byValue hbyValue => ?_⟩⟩
  exact (hbyKey.and hbyValue).map
    (f := fun fits => if e.optional ∧ fits = .no then .maybe else fits) (by simp)

theorem isSteady_inArray {key value : Ty} (hpermits : Permits asks s (.array key value)) :
    IsSteady asks relation (inArray s key value) := by
  have hvalue := Ty.mem_children_value key value
  have hkey := Ty.mem_children_key key value
  cases s with
  | array sourceKey sourceValue =>
      have hbyKey := (hpermits.parts _ (Ty.mem_children_key sourceKey sourceValue) _ hkey).1
      have hbyValue := (hpermits.parts _ (Ty.mem_children_value sourceKey sourceValue) _ hvalue).1
      have hexact : (inArray (.array sourceKey sourceValue) key value).value relation =
          (relation sourceKey key).and (relation sourceValue value) := by
        by_cases hno : relation sourceKey key = .no <;> simp [inArray, hno]
      unfold IsSteady
      rw [hexact]
      refine Meets.bind (isSteady_isContained hbyKey) fun byKey hr => ?_
      by_cases hno : byKey = .no
      · have hkeyExact : relation sourceKey key = .no :=
          (Tristate.Approximates.eq hr (by simp [hno])).trans hno
        rw [if_pos hno, hkeyExact, Tristate.no_and]
        exact .refl _
      · rw [if_neg hno]
        exact Meets.bind (isSteady_isContained hbyValue) fun byValue hr' => hr.and hr'
  | shape entries =>
      apply isSteady_all
      intro e he
      exact isSteady_entryInArray (hpermits.key_right e.key _ hkey)
        (hpermits.parts _ (Ty.mem_children_shape he) _ hvalue).1
  | keyword k => cases k <;> exact isSteady_pure _
  | _ => exact isSteady_pure _

theorem value_mayHaveEntry {key value : Ty} {e : Entry Ty} :
    (mayHaveEntry key value e).value relation = false ↔
      relation (Ty.ofKey e.key) key = .no ∨
        relation e.value value = .no ∧ relation value e.value = .no := by
  by_cases hkey : relation (Ty.ofKey e.key) key = .no
  · simp [mayHaveEntry, value_key, hkey]
  · by_cases hvalue : relation e.value value = .no
    · simp [mayHaveEntry, value_key, hkey, hvalue]
      exact decide_eq_true_iff
    · simp [mayHaveEntry, value_key, hkey, hvalue]

theorem meets_mayHaveEntry {key value : Ty} {e : Entry Ty} (hkey : asks (Ty.ofKey e.key) key)
    (hvalue : asks e.value value ∧ asks value e.value) :
    (mayHaveEntry key value e).Meets (.approximating asks relation) fun possible =>
      possible = false -> (mayHaveEntry key value e).value relation = false := by
  have hno : ∀ {r exact : Tristate}, r.Approximates exact -> r = .no -> exact = .no :=
    fun hr heq => (hr.eq (by simp [heq])).trans heq
  rw [value_mayHaveEntry]
  have hof : (Build.key e.key).Meets (.approximating asks relation) fun t => t = Ty.ofKey e.key :=
    meets_key (fun _ => trivial) e.key
  refine hof.bind ?_
  intro _ heq
  subst heq
  refine Meets.bind (isSteady_isContained hkey) fun byKey hbyKey => ?_
  by_cases hkeyNo : byKey = .no
  · rw [if_pos hkeyNo]
    exact fun _ => Or.inl (hno hbyKey hkeyNo)
  · rw [if_neg hkeyNo]
    refine Meets.bind (isSteady_isContained hvalue.1) fun byValue hbyValue => ?_
    by_cases hvalueNo : byValue = .no
    · rw [if_pos hvalueNo]
      refine Meets.bind (isSteady_isContained hvalue.2) fun byReverse hbyReverse => ?_
      intro hpossible
      have hreverseNo : byReverse = .no := by simpa using hpossible
      exact Or.inr ⟨hno hbyValue hvalueNo, hno hbyReverse hreverseNo⟩
    · rw [if_neg hvalueNo]
      simp

theorem isSteady_arrayInShape {key value : Ty} {entries : List (Entry Ty)}
    (hkey : ∀ k, asks (Ty.ofKey k) key)
    (hvalue : ∀ e ∈ entries, asks e.value value ∧ asks value e.value) :
    IsSteady asks relation (arrayInShape key value entries) := by
  have hno : (arrayInShape key value entries).Meets (.approximating asks relation) fun r =>
      r = .no -> (arrayInShape key value entries).value relation = .no := by
    induction entries with
    | nil => simp [arrayInShape]
    | cons e rest ih =>
        rw [List.forall_mem_cons] at hvalue
        have hrest := ih hvalue.2
        unfold arrayInShape
        split
        · exact hrest
        · rw [value_bind]
          apply Meets.bind (meets_mayHaveEntry (hkey e.key) hvalue.1)
          intro possible hpossible
          cases possible with
          | false =>
              rw [hpossible rfl]
              exact fun _ => rfl
          | true =>
              cases (mayHaveEntry key value e).value relation with
              | false => exact Meets.imp hrest fun _ _ _ => rfl
              | true => exact hrest
  have hyes : (arrayInShape key value entries).Meets (.approximating asks relation) fun r =>
      r ≠ .yes := meets_arrayInShape (fun _ => trivial) hkey hvalue
  apply (hno.and hyes fun _ _ _ => id).imp
  rintro r ⟨hno, hyes⟩
  cases r with
  | maybe => exact Or.inl rfl
  | no => exact Or.inr (hno rfl).symm
  | yes => exact absurd rfl hyes

theorem isSteady_inEntry {source : List (Entry Ty)} {e : Entry Ty}
    (hvalue : ∀ d ∈ source, asks d.value e.value) :
    IsSteady asks relation (inEntry source e) := by
  unfold inEntry
  cases hfound : Shape.entry? source e.key with
  | none => exact isSteady_pure _
  | some d =>
      have hd := (Shape.mem_of_entry? hfound).1
      apply (isSteady_isContained (hvalue d hd)).map (f := fun fits =>
        let fits := if fits = .no ∧ d.optional ∧ e.optional then .maybe else fits
        if d.optional ∧ !e.optional then fits.and .maybe else fits)
      cases d.optional <;> cases e.optional <;> rfl

theorem isSteady_shapeInShape {source target : List (Entry Ty)}
    (hvalue : ∀ d ∈ source, ∀ e ∈ target, asks d.value e.value) :
    IsSteady asks relation (shapeInShape source target) := by
  unfold shapeInShape
  cases surplusKeys source target with
  | no => exact isSteady_pure _
  | _ => exact isSteady_allFrom fun e he => isSteady_inEntry fun d hd => hvalue d hd e he

theorem isSteady_inShape {entries : List (Entry Ty)}
    (hpermits : Permits asks s (.shape entries)) :
    IsSteady asks relation (inShape s entries) := by
  cases s with
  | shape source =>
      exact isSteady_shapeInShape fun d hd e he =>
        (hpermits.parts _ (Ty.mem_children_shape hd) _ (Ty.mem_children_shape he)).1
  | array key value =>
      apply isSteady_arrayInShape
      · exact fun k => hpermits.key_left k _ (Ty.mem_children_key key value)
      · exact fun e he =>
          (hpermits.parts _ (Ty.mem_children_value key value) _ (Ty.mem_children_shape he)).symm
  | keyword k => cases k <;> exact isSteady_pure _
  | _ => exact isSteady_pure _

theorem isSteady_inHasOffset {offset : Key}
    (hkey : ∀ key, ∀ a ∈ s.children, asks (Ty.ofKey key) a) :
    IsSteady asks relation (inHasOffset offset s) := by
  cases s with
  | shape entries =>
      simp only [inHasOffset]
      split <;> exact isSteady_pure _
  | array key value =>
      apply isSteady_key
      exact (isSteady_isContained (hkey offset _ (Ty.mem_children_key key value))).map
        (f := fun r => if r = .no then .no else .maybe) rfl
  | accessory a => cases a <;> exact isSteady_pure _
  | keyword k => cases k <;> exact isSteady_pure _
  | _ => exact isSteady_pure _

theorem isSteady_inSimple (hpermits : Permits asks s t) :
    IsSteady asks relation (inSimple h s t) := by
  cases t with
  | object cls arguments => exact isSteady_inObject hpermits
  | array key value => exact isSteady_inArray hpermits
  | shape entries => exact isSteady_inShape hpermits
  | accessory a =>
      cases a with
      | hasOffset offset => exact isSteady_inHasOffset hpermits.key_left
      | _ => exact isSteady_pure _
  | _ => exact isSteady_pure _

/-- The members of an intersection agree on a type: it is not so that one of them is
certainly contained in it and another one excluded from it. -/
def AgreesOn (h : Hierarchy) (s t : Ty) : Prop :=
  ∀ members, s = .inter members -> t.isSimple = true ->
    (∃ m ∈ members, exact h m t = .yes) -> ∀ m ∈ members, exact h m t ≠ .no

theorem isSteady_check (hpermits : Permits asks s t) (hagrees : AgreesOn h s t) :
    IsSteady asks (exact h) (check h s t) := by
  have hleft : ∀ m ∈ s.children, IsSteady asks (exact h) (isContained m t) :=
    fun m hm => isSteady_isContained (hpermits.left m hm)
  have hright : ∀ m ∈ t.children, IsSteady asks (exact h) (isContained s m) :=
    fun m hm => isSteady_isContained (hpermits.right m hm)
  unfold check
  split
  · exact isSteady_pure _
  · split
    · exact isSteady_unanimous hleft
    · exact isSteady_any hright
    · exact isSteady_all hright
    · rename_i hunion hinter
      apply isSteady_decisive hleft
      apply hagrees _ rfl
      cases t <;> first
        | rfl
        | exact absurd rfl (hunion _ _)
        | exact absurd rfl (hinter _)
    · split
      · rename_i hconstraint
        have hsource := (Bool.and_eq_true_iff.mp hconstraint).1
        exact (isSteady_isContained (hpermits.reverse hsource)).map
          (f := fun r => if r = .no then .no else .maybe) rfl
      · exact isSteady_inSimple hpermits

/-!
# Chains of questions
-/

/-- Intersections inside either type agree on the types inside the other one. -/
def Agrees (h : Hierarchy) (s t : Ty) : Prop :=
  Everywhere (fun a => Everywhere (fun b => AgreesOn h a b ∧ AgreesOn h b a) t) s

/-- Types without unions and intersections inside agree. -/
theorem agrees_of_simple (hs : Everywhere (fun a => a.isSimple = true) s)
    (ht : Everywhere (fun b => b.isSimple = true) t) : Agrees h s t := by
  have hon : ∀ a b : Ty, a.isSimple = true -> AgreesOn h a b := by
    rintro a b ha members rfl
    cases ha
  exact hs.imp fun a ha => ht.imp fun b hb => ⟨hon a b ha, hon b a hb⟩

theorem Agrees.symm (hagrees : Agrees h s t) : Agrees h t s :=
  (Everywhere.swap hagrees).imp fun _ hb => hb.imp fun _ hab => hab.symm

theorem Agrees.left (hagrees : Agrees h s t) {a : Ty} (ha : a ∈ s.children) : Agrees h a t :=
  hagrees.inside ha

theorem Agrees.right (hagrees : Agrees h s t) {b : Ty} (hb : b ∈ t.children) : Agrees h s b :=
  (hagrees.symm.left hb).symm

/-- The questions on the way from one whose types agree.  A key is not an intersection and
has no parts, and it stays on the left. -/
def IsClear (h : Hierarchy) (s t : Ty) : Prop :=
  s.isLiteral = true ∨ Agrees h s t

theorem IsClear.permits (hclear : IsClear h s t) : Permits (IsClear h) s t := by
  have hkey : ∀ key b, IsClear h (Ty.ofKey key) b := by
    intro key b
    cases key <;> exact Or.inl rfl
  constructor
  case key_left => exact fun key a _ => hkey key a
  case key_right => exact fun key b _ => hkey key b
  case right => exact fun b hb => hclear.imp id fun hagrees => hagrees.right hb
  all_goals rcases hclear with hliteral | hagrees
  case left.inl => intro a ha; simp [isLiteral_of_mem_children ha] at hliteral
  case left.inr => exact fun a ha => Or.inr (hagrees.left ha)
  case parts.inl => intro a ha; simp [isLiteral_of_mem_children ha] at hliteral
  case parts.inr =>
    intro a ha b hb
    have hparts := (hagrees.left ha).right hb
    exact ⟨Or.inr hparts, Or.inr hparts.symm⟩
  case reverse.inl =>
    intro hs
    cases s <;> simp [Ty.isLiteral] at hliteral
    cases hs
  case reverse.inr => exact fun _ => Or.inr hagrees.symm

theorem IsClear.agreesOn (hclear : IsClear h s t) : AgreesOn h s t := by
  rcases hclear with hliteral | hagrees
  · rintro members rfl
    cases hliteral
  · exact hagrees.here.here.1

end Subtype

end GradualTypes
