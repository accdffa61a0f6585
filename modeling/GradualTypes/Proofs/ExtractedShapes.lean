import GradualTypes.Proofs.Announcements
import GradualTypes.Proofs.Extraction
import GradualTypes.Proofs.LowerBounds

/-!
# Extracting shapes

The expanded shapes of a type can be had in several ways: by a scan for shapes, by extracting the
shapes and expanding these, by a scan for arrays, or by splitting the type into its members.  None
of them asks a question, so what they find does not depend on the session.  For constructed types
the first two ways find the same, and if they find anything then so do the others.
-/

namespace GradualTypes

open Inquiry

/-!
# Inquiries without questions
-/

/-- Terms that forbid all questions. -/
def Terms.silent : Terms :=
  ⟨fun _ _ => False, fun _ _ _ => True, fun _ => True, True⟩

/-- An inquiry that asks nothing has the same result in every session. -/
theorem Session.run_of_silent {α : Type} {answer : Ty -> Ty -> Session -> Tristate × Session}
    {q : Inquiry α} (hq : q.KeepsTo .silent) (relation : Ty -> Ty -> Tristate) (σ : Session) :
    (run answer q σ).1 = q.value relation := by
  induction q generalizing σ with
  | done a => rfl
  | ask s t next ih => exact hq.1.elim
  | announce t next ih => exact ih () hq.2 _
  | announceText s next ih => exact ih () hq _
  | restart next ih => exact ih () hq.2 _

theorem Inquiry.KeepsTo.map {α β : Type} {terms : Terms} {q : Inquiry α} (hq : q.KeepsTo terms)
    (f : α -> β) : (f <$> q).KeepsTo terms := by
  rw [← bind_pure_comp]
  exact hq.bind fun a => keepsTo_pure (f a)

theorem Build.silent_shape (entries : List (Entry Ty)) : (shape entries).KeepsTo .silent := by
  unfold shape
  split
  · exact keepsTo_pure _
  · exact ⟨trivial, trivial⟩

theorem Shape.silent_concrete (limits : Options) (t : Ty) :
    (concrete limits t).KeepsTo .silent := by
  unfold concrete
  split
  · split
    · exact keepsTo_pure _
    · split
      · exact keepsTo_pure _
      · exact (keepsTo_mapM fun kept _ => Build.silent_shape kept).map _
  · exact keepsTo_pure _

namespace Ty

variable {limits : Options} {relation : Ty -> Ty -> Tristate} {test : Ty -> Bool}
  {expand : Ty -> Inquiry (List Ty)} {flavor : Flavor} {members : List Ty} {t : Ty}

theorem silent_collectIf (hexpand : ∀ t, (expand t).KeepsTo .silent) (members : List Ty) :
    (collectIf test expand members).KeepsTo .silent := by
  induction members with
  | nil => exact keepsTo_pure _
  | cons t rest ih =>
      unfold collectIf
      split
      · exact (hexpand t).bind fun first => ih.bind fun others => keepsTo_pure _
      · exact keepsTo_pure _

theorem silent_concreteArrays (t : Ty) : (concreteArrays limits t).KeepsTo .silent := by
  unfold concreteArrays
  split
  · exact keepsTo_pure _
  · exact Shape.silent_concrete limits t

theorem silent_constantArrays (t : Ty) : (t.constantArrays limits).KeepsTo .silent := by
  unfold constantArrays
  split
  · exact (silent_collectIf (Shape.silent_concrete limits) _).bind fun _ => keepsTo_pure _
  · exact Shape.silent_concrete limits t

theorem silent_arrays (t : Ty) : (t.arrays limits).KeepsTo .silent := by
  unfold arrays
  split
  · exact (silent_collectIf silent_concreteArrays _).bind fun _ => keepsTo_pure _
  · exact (keepsTo_mapM fun m _ => silent_concreteArrays m).bind fun _ => keepsTo_pure _
  · exact silent_concreteArrays t

theorem silent_flatten (t : Ty) : (t.flatten limits).KeepsTo .silent := by
  refine KeepsTo.bind (keepsTo_mapM fun m _ => ?_) fun _ => keepsTo_pure _
  unfold flattenMember
  split
  · exact Shape.silent_concrete limits m
  · exact keepsTo_pure _

/-!
# Lists of members
-/

/-- Either all members pass the test and are expanded, or there is nothing. -/
theorem value_collectIf (members : List Ty) :
    (collectIf test expand members).value relation =
      if members.all test then some (members.flatMap fun m => (expand m).value relation)
      else none := by
  induction members with
  | nil => rfl
  | cons t rest ih =>
      unfold collectIf
      cases ht : test t with
      | false => simp [ht]
      | true =>
          simp only [if_true, value_bind, ih, value_pure, List.all_cons, ht, Bool.true_and]
          split <;> simp

theorem holds_array_of_isShape (ht : t.isShape = true) : MemberKind.array.holds t = true := by
  simp [MemberKind.holds, ht]

theorem concreteArrays_of_isShape (ht : t.isShape = true) :
    concreteArrays limits t = Shape.concrete limits t := by
  cases t <;> first | rfl | cases ht

theorem flattenMember_of_isShape (ht : t.isShape = true) :
    flattenMember limits t = Shape.concrete limits t :=
  if_pos ht

theorem value_constantArrays_union :
    ((union flavor members).constantArrays limits).value relation =
      if members.all isShape then
        members.flatMap fun m => (Shape.concrete limits m).value relation
      else [] := by
  simp only [constantArrays, value_bind, value_collectIf, value_pure]
  split <;> rfl

/-- The members of a union are extracted as they are, if none of them is a union itself. -/
theorem extract_shape_union (hflat : ∀ m ∈ members, m.unionMembers? = none) :
    (union flavor members).extract .shape ⟨false, true⟩ =
      if members.all isShape then members else [] := by
  have hmember : ∀ m ∈ members, m.extract .shape ⟨false, true⟩ = if m.isShape then [m] else [] := by
    intro m hm
    have hm' := hflat m hm
    cases m <;> first | rfl | cases hm'
  rw [extract_union_strict]
  cases hall : members.all isShape with
  | true =>
      rw [List.all_eq_true] at hall
      have hone : ∀ m ∈ members, m.extract .shape ⟨false, true⟩ = [m] :=
        fun m hm => by rw [hmember m hm, if_pos (hall m hm)]
      rw [if_neg fun ⟨m, hm, hnone⟩ => List.cons_ne_nil m [] ((hone m hm).symm.trans hnone),
        List.flatMap, List.map_congr_left hone]
      exact List.flatMap_singleton' members
  | false =>
      rw [List.all_eq_false] at hall
      rcases hall with ⟨m, hm, hshape⟩
      exact if_pos ⟨m, hm, by rw [hmember m hm, if_neg hshape]⟩

/-!
# Ways to the expanded shapes
-/

/-- The scan for shapes finds what the extracted shapes are expanded to. -/
theorem value_constantArrays (hflat : ∀ flavor members, t = union flavor members ->
    ∀ m ∈ members, m.unionMembers? = none) :
    (t.constantArrays limits).value relation =
      (t.extract .shape ⟨false, true⟩).flatMap fun m => (Shape.concrete limits m).value relation := by
  cases t with
  | union flavor members =>
      rw [value_constantArrays_union, extract_shape_union (hflat flavor members rfl)]
      split <;> rfl
  | shape entries => exact (List.flatMap_singleton _ _).symm
  | _ => rfl

/-- If the scan for shapes finds anything, then the type is a shape or a union of shapes. -/
theorem shapes_of_constantArrays (hfound : (t.constantArrays limits).value relation ≠ []) :
    (∃ entries, t = shape entries) ∨ ∃ flavor members, t = union flavor members ∧
      ∀ m ∈ members, m.isShape = true := by
  cases t with
  | union flavor members =>
      rw [value_constantArrays_union] at hfound
      split at hfound
      · exact .inr ⟨flavor, members, rfl, List.all_eq_true.mp ‹_›⟩
      · exact absurd rfl hfound
  | shape entries => exact .inl ⟨entries, rfl⟩
  | _ => exact absurd rfl hfound

theorem value_arrays_of_found (hfound : (t.constantArrays limits).value relation ≠ []) :
    (t.arrays limits).value relation = (t.constantArrays limits).value relation ∧
      (t.flatten limits).value relation = (t.constantArrays limits).value relation := by
  rcases shapes_of_constantArrays hfound with ⟨entries, rfl⟩ | ⟨flavor, members, rfl, hshapes⟩
  · refine ⟨rfl, ?_⟩
    simp [flatten, constantArrays, unionMembers?, flattenMember, isShape]
  · have hall : members.all isShape = true := List.all_eq_true.mpr hshapes
    have harrays : members.all MemberKind.array.holds = true :=
      List.all_eq_true.mpr fun m hm => holds_array_of_isShape (hshapes m hm)
    rw [value_constantArrays_union, if_pos hall]
    constructor
    · simp only [arrays, value_bind, value_collectIf, harrays, if_true, value_pure, Option.getD_some]
      rw [List.flatMap, List.flatMap, List.map_congr_left fun m hm => ?_]
      rw [concreteArrays_of_isShape (hshapes m hm)]
    · simp only [flatten, unionMembers?, Option.getD_some, value_bind, value_mapM, value_pure]
      rw [List.flatMap, List.map_congr_left fun m hm => ?_]
      rw [flattenMember_of_isShape (hshapes m hm)]

end Ty

/-!
# Extraction in a session
-/

namespace Session

variable {h : Hierarchy} {options : Options} {t : Ty}

/-- For a constructed type, the scan for shapes finds the concrete shapes of the extracted shapes, in
their order.  If it finds any, then the scan for arrays and the split into members give the
same list.  The scans may be made in any sessions. -/
theorem shape_scans_agree (ht : Built h options t) (limits : Options) (σ₁ σ₂ σ₃ σ₄ : Session) :
    let shapes := t.extract .shape ⟨false, true⟩
    let expanded := (σ₁.perform (t.constantArrays limits)).1
    expanded = (σ₂.perform (shapes.mapM (Shape.concrete limits))).1.flatten ∧
      (expanded ≠ [] ->
        (σ₃.perform (t.arrays limits)).1 = expanded ∧
          (σ₄.perform (t.flatten limits)).1 = expanded) := by
  intro shapes expanded
  let relation : Ty -> Ty -> Tristate := fun _ _ => .maybe
  have hexpanded : expanded = (t.constantArrays limits).value relation :=
    run_of_silent (Ty.silent_constantArrays t) relation σ₁
  have hshapes : (σ₂.perform (shapes.mapM (Shape.concrete limits))).1 =
      shapes.map fun m => (Shape.concrete limits m).value relation :=
    (run_of_silent (keepsTo_mapM fun m _ => Shape.silent_concrete limits m) relation σ₂).trans
      (value_mapM relation _ shapes)
  have harrays : (σ₃.perform (t.arrays limits)).1 = (t.arrays limits).value relation :=
    run_of_silent (Ty.silent_arrays t) relation σ₃
  have hflatten : (σ₄.perform (t.flatten limits)).1 = (t.flatten limits).value relation :=
    run_of_silent (Ty.silent_flatten t) relation σ₄
  constructor
  · rw [hexpanded, hshapes]
    refine Ty.value_constantArrays ?_
    rintro flavor members rfl m hm
    exact (ht.formed.unionMember hm).2.2.2.2
  · intro hfound
    rw [hexpanded] at hfound ⊢
    rcases Ty.value_arrays_of_found hfound with ⟨hsame, hsame'⟩
    exact ⟨harrays.trans hsame, hflatten.trans hsame'⟩

/-- A union of two shapes, the first of which stands for two concrete ones. -/
theorem shape_scans_agree_pair :
    let t := Ty.union .plain [.shape [⟨.text "a", .int, true⟩], .shape [⟨.text "b", .string, false⟩]]
    let σ := new .empty .default
    let expanded := (σ.perform (t.constantArrays .default)).1
    expanded = [.shape [], .shape [⟨.text "a", .int, false⟩], .shape [⟨.text "b", .string, false⟩]] ∧
      (σ.perform (t.arrays .default)).1 = expanded ∧
        (σ.perform (t.flatten .default)).1 = expanded := by
  intro t σ expanded
  have hgiven : Call.results? .empty .default [] [.keyword .int, .keyword .string,
      .shape [⟨.text "a", .int, true⟩], .shape [⟨.text "b", .string, false⟩],
      .union [.shape [⟨.text "a", .int, true⟩], .shape [⟨.text "b", .string, false⟩]]] =
        some [t, .shape [⟨.text "b", .string, false⟩], .shape [⟨.text "a", .int, true⟩], .string,
          .int] := by
    decide +kernel
  have hexpanded : expanded = [.shape [], .shape [⟨.text "a", .int, false⟩],
      .shape [⟨.text "b", .string, false⟩]] :=
    (run_of_silent (Ty.silent_constantArrays t) (fun _ _ => .maybe) σ).trans (by decide +kernel)
  have hmade := (ConstructedWithin.of_calls (by simp) hgiven t List.mem_cons_self).built
  have hfound : expanded ≠ [] := by
    rw [hexpanded]
    exact List.cons_ne_nil _ _
  exact ⟨hexpanded, (shape_scans_agree hmade .default σ σ σ σ).2 hfound⟩

end Session
end GradualTypes
