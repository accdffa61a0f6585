import GradualTypes.Proofs.NestedUnions

/-!
# The grouping of unions in a session

A union of several types may depend on whether some of them are put together first.
Shapes with the same keys are merged, which may keep a type from absorbing one of them;
benevolent unions may become a type that is no union; a class that extends the class of
closures makes the relation intransitive; and a literal that is absorbed by an
intersection that was not distributed is no longer there to become `bool`.

Apart from this and from the depth limit the grouping makes no difference.
-/

namespace GradualTypes

open Inquiry
open GradualTypes.Subtype (Contained exact)

variable {h : Hierarchy}

namespace Session

variable {options options₁ options₂ options₃ made : Options} {σ σ₁ σ₂ σ₃ : Session}
  {ts rest : List Ty} {a b c u : Ty}

/-!
# Unions that depend on the grouping
-/

/-- A session that has not met the limit follows light questions within it. -/
theorem Reachable.perform_light {α : Type} {q : Inquiry α} (hσ : Reachable h options σ)
    (hlimited : σ.limited = false) (hq : isLight h q = true) :
    σ.Within (answer relationDepth) q ∧ (σ.perform q).1 = q.value (exact h) ∧
      (σ.perform q).2.limited = false := by
  rcases hσ.kept with ⟨htruthful, rfl, -⟩
  have hwithin := within_of_asked htruthful hlimited (isLight_iff.mp hq)
  exact ⟨hwithin, run_eq_value (isReliable_answer relationDepth) htruthful hwithin,
    limited_of_within hwithin hlimited⟩

/-- What the three unions come to in a new session, if their questions are light: that of
two types, that of the result and a third type, and that of all three. -/
structure IsGrouped (h : Hierarchy) (a b c : Ty) (first grouped : Ty × Session) : Prop where
  reachable₁ : Reachable h .default first.2
  reachable₂ : Reachable h .default grouped.2
  within₁ : (new h .default).Within (answer relationDepth) (Union.of .default [a, b])
  within₂ : first.2.Within (answer relationDepth) (Union.of .default [first.1, c])
  within₃ : grouped.2.Within (answer relationDepth) (Union.of .default [a, b, c])
  nested : grouped.1 = (Union.of .default [first.1, c]).value (exact h)
  whole : (grouped.2.perform (Union.of .default [a, b, c])).1 =
    (Union.of .default [a, b, c]).value (exact h)

theorem isGrouped_of_light (hu : (Union.of .default [a, b]).value (exact h) = u)
    (hlight : isLight h (Union.of .default [a, b]) = true ∧
      isLight h (Union.of .default [u, c]) = true ∧
      isLight h (Union.of .default [a, b, c]) = true) :
    let first := (new h .default).perform (Union.of .default [a, b])
    first.1 = u ∧
      IsGrouped h a b c first (first.2.perform (Union.of .default [first.1, c])) := by
  have hnew : Reachable h .default (new h .default) := .new
  rcases hnew.perform_light rfl hlight.1 with ⟨hwithin₁, hfirst, hlimited₁⟩
  have hreach₁ := hnew.perform (Union.of .default [a, b])
  rw [hu] at hfirst
  dsimp only
  rw [hfirst]
  rcases hreach₁.perform_light hlimited₁ hlight.2.1 with ⟨hwithin₂, hgrouped, hlimited₂⟩
  have hreach₂ := hreach₁.perform (Union.of .default [u, c])
  rcases hreach₂.perform_light hlimited₂ hlight.2.2 with ⟨hwithin₃, hwhole, -⟩
  exact ⟨rfl, hreach₁, hreach₂, hwithin₁, hfirst ▸ hwithin₂, hwithin₃, hfirst ▸ hgrouped, hwhole⟩

/-- Three types that are constructed within the limit, and whose union in a new session
is another one if the first two are put together before. -/
structure DependsOnGrouping (h : Hierarchy) (a b c : Ty) : Prop where
  constructed : ∀ t ∈ [a, b, c], ConstructedWithin h .default t
  differs :
    let first := (new h .default).perform (Union.of .default [a, b])
    let grouped := first.2.perform (Union.of .default [first.1, c])
    grouped.1 ≠ (grouped.2.perform (Union.of .default [a, b, c])).1

theorem dependsOnGrouping_of_value (hconstructed : ∀ t ∈ [a, b, c], ConstructedWithin h .default t)
    (hu : (Union.of .default [a, b]).value (exact h) = u)
    (hlight : isLight h (Union.of .default [a, b]) = true ∧
      isLight h (Union.of .default [u, c]) = true ∧
      isLight h (Union.of .default [a, b, c]) = true)
    (hdiffers : (Union.of .default [u, c]).value (exact h) ≠
      (Union.of .default [a, b, c]).value (exact h)) : DependsOnGrouping h a b c := by
  rcases isGrouped_of_light hu hlight with ⟨hfirst, hgrouped⟩
  refine ⟨hconstructed, ?_⟩
  dsimp only
  rw [hgrouped.nested, hgrouped.whole, hfirst]
  exact hdiffers

/-- The merged shape has values that the array type has not, so it is not absorbed. -/
theorem dependsOnGrouping_shapes :
    let entry (n : Int) : Entry Ty := ⟨.text "x", .literal (.int n), false⟩
    DependsOnGrouping .empty (.shape [entry 1]) (.shape [entry 2])
      (.array .string (.literal (.int 1))) := by
  intro entry
  have hresults : Call.results? .empty .default [] [.keyword .string, .int 1, .int 2,
      .array .string (.literal (.int 1)), .shape [entry 2], .shape [entry 1]] =
        some [.shape [entry 1], .shape [entry 2], .array .string (.literal (.int 1)),
          .literal (.int 2), .literal (.int 1), .string] := by decide +kernel
  have hconstructed := ConstructedWithin.of_calls (by simp) hresults
  refine dependsOnGrouping_of_value (fun t ht => hconstructed t ?_) rfl (by decide +kernel)
    (by decide +kernel)
  exact List.mem_of_mem_take (i := 3) ht

/-- The intervals of two benevolent unions become one interval, which is no union. -/
theorem dependsOnGrouping_flavor :
    let between (lo hi : Int) : IntRange := ⟨some lo, some hi⟩
    DependsOnGrouping .empty (.union .benevolent [.range (between 0 1), .range (between 5 6)])
      (.union .benevolent [.range (between 2 4), .range (between 7 9)])
      (.union .benevolent [.literal (.text "a"), .literal (.text "b")]) := by
  intro between
  have hresults : Call.results? .empty .default [] [.text "a", .text "b", .range (between 0 1),
      .range (between 2 4), .range (between 5 6), .range (between 7 9),
      .benevolent [.literal (.text "a"), .literal (.text "b")],
      .benevolent [.range (between 2 4), .range (between 7 9)],
      .benevolent [.range (between 0 1), .range (between 5 6)]] =
        some [.union .benevolent [.range (between 0 1), .range (between 5 6)],
          .union .benevolent [.range (between 2 4), .range (between 7 9)],
          .union .benevolent [.literal (.text "a"), .literal (.text "b")],
          .range (between 7 9), .range (between 5 6), .range (between 2 4),
          .range (between 0 1), .literal (.text "b"), .literal (.text "a")] := by decide +kernel
  have hconstructed := ConstructedWithin.of_calls (by simp) hresults
  refine dependsOnGrouping_of_value (fun t ht => hconstructed t ?_) rfl (by decide +kernel)
    (by decide +kernel)
  exact List.mem_of_mem_take (i := 3) ht

/-- A class below the class of closures is absorbed by it but not by `callable`, which
absorbs the class of closures. -/
theorem dependsOnGrouping_closure :
    let h : Hierarchy := ⟨[Declaration.of "Sub" .plainClass ["Closure"] false false []]⟩
    DependsOnGrouping h (.object "Sub" []) (.object "Closure" []) .callable := by
  intro h
  have hresults : Call.results? h .default [] [.keyword .callable, .object "Closure" [],
      .object "Sub" []] =
        some [.object "Sub" [], .object "Closure" [], .callable] := by decide +kernel
  exact dependsOnGrouping_of_value (ConstructedWithin.of_calls (by simp) hresults) rfl
    (by decide +kernel) (by decide +kernel)

/-- A boolean literal that an intersection has absorbed does not become `bool` with the
other one. -/
theorem dependsOnGrouping_undistributed :
    DependsOnGrouping .empty (.literal (.bool true)) undistributed (.literal (.bool false)) := by
  obtain ⟨calls, hcalls, hmade⟩ := results?_undistributed
  have hconstructed := ConstructedWithin.of_calls hcalls hmade
  refine dependsOnGrouping_of_value (fun t ht => hconstructed t ?_) rfl (by decide +kernel)
    (by decide +kernel)
  revert t
  decide +kernel

/-- The four ways in which the grouping makes a difference: shapes with the same keys, the
flavor of a union that is none any more, a class that extends the class of closures, and
an intersection that was not distributed. -/
theorem union_depends_on_grouping :
    let entry (n : Int) : Entry Ty := ⟨.text "x", .literal (.int n), false⟩
    let between (lo hi : Int) : IntRange := ⟨some lo, some hi⟩
    let h : Hierarchy := ⟨[Declaration.of "Sub" .plainClass ["Closure"] false false []]⟩
    DependsOnGrouping .empty (.shape [entry 1]) (.shape [entry 2])
        (.array .string (.literal (.int 1))) ∧
      DependsOnGrouping .empty (.union .benevolent [.range (between 0 1), .range (between 5 6)])
        (.union .benevolent [.range (between 2 4), .range (between 7 9)])
        (.union .benevolent [.literal (.text "a"), .literal (.text "b")]) ∧
      DependsOnGrouping h (.object "Sub" []) (.object "Closure" []) .callable ∧
      DependsOnGrouping .empty (.literal (.bool true)) undistributed (.literal (.bool false)) :=
  ⟨dependsOnGrouping_shapes, dependsOnGrouping_flavor, dependsOnGrouping_closure,
    dependsOnGrouping_undistributed⟩

/-!
# Unions that do not depend on the grouping
-/

theorem Reachable.value_of_within {α : Type} {q : Inquiry α} (hσ : Reachable h options σ)
    (hwithin : σ.Within (answer relationDepth) q) : (σ.perform q).1 = q.value (exact h) := by
  rcases hσ.kept with ⟨htruthful, rfl, -⟩
  exact run_eq_value (isReliable_answer relationDepth) htruthful hwithin

/-- It makes no difference whether some of several types are put together first, in
whatever sessions that is done, unless a question meets the depth limit or one of the four
exceptions applies. -/
theorem union_of_union (hfinal : h.LeavesClosureFinal)
    (hts : ∀ t ∈ ts ++ rest, ConstructedWithin h options t)
    (hdistributed : ∀ t ∈ ts ++ rest, Union.IsDistributed t)
    (hshapes : Union.HasComparableMembers h ((ts ++ rest).flatMap Union.membersOf))
    (hmany : 2 ≤ ts.length) (hrest : rest ≠ [])
    (hσ₁ : Reachable h options₁ σ₁) (hσ₂ : Reachable h options₂ σ₂)
    (hσ₃ : Reachable h options₃ σ₃)
    (hwithin₁ : σ₁.Within (answer relationDepth) (Union.of made ts))
    (hwithin₂ : σ₂.Within (answer relationDepth)
      (Union.of made ((σ₁.perform (Union.of made ts)).1 :: rest)))
    (hwithin₃ : σ₃.Within (answer relationDepth) (Union.of made (ts ++ rest)))
    (hflavor : Union.KeepsFlavor (ts ++ rest) (σ₁.perform (Union.of made ts)).1
      (σ₃.perform (Union.of made (ts ++ rest))).1) :
    (σ₂.perform (Union.of made ((σ₁.perform (Union.of made ts)).1 :: rest))).1 =
      (σ₃.perform (Union.of made (ts ++ rest))).1 := by
  rw [hσ₁.value_of_within hwithin₁] at hwithin₂ hflavor ⊢
  rw [hσ₃.value_of_within hwithin₃] at hflavor ⊢
  rw [hσ₂.value_of_within hwithin₂]
  by_cases herror : .error ∈ ts ++ rest
  · exact Union.value_of_nested_error hmany hrest herror
  · have hproper : ∀ t ∈ ts ++ rest, t.IsProper h := fun t ht =>
      ⟨(hts t ht).formed, (hts t ht).complete, fun heq => herror (heq ▸ ht)⟩
    exact Union.value_of_nested hfinal hmany hrest
      ⟨hproper, hdistributed, Intersection.hasComparableShapes_of_contained hshapes⟩ hflavor

/-- Intervals that touch, one of them next to a text, and then two shapes of which one
contains the other. -/
theorem union_of_union_intervals :
    let σ := new .empty .default
    let low := Ty.union .plain [.range ⟨some 0, some 4⟩, .string]
    let high := Ty.union .plain [.shape [⟨.text "x", .int, false⟩], .range ⟨some 5, some 9⟩]
    let one := Ty.shape [⟨.text "x", .literal (.int 1), false⟩]
    let first := σ.perform (Union.of .default [low, high])
    let grouped := first.2.perform (Union.of .default [first.1, one])
    grouped.1 = (grouped.2.perform (Union.of .default [low, high, one])).1 := by
  intro σ low high one first grouped
  let wide := Ty.shape [⟨.text "x", .int, false⟩]
  have hresults : Call.results? .empty .default [] [.keyword .int, .keyword .string, .int 1,
      .range ⟨some 0, some 4⟩, .range ⟨some 5, some 9⟩, .shape [⟨.text "x", .int, false⟩],
      .union [.range ⟨some 0, some 4⟩, .string], .union [.range ⟨some 5, some 9⟩, wide],
      .shape [⟨.text "x", .literal (.int 1), false⟩]] =
        some [one, high, low, wide, .range ⟨some 5, some 9⟩, .range ⟨some 0, some 4⟩,
          .literal (.int 1), .string, .int] := by decide +kernel
  have hconstructed : ∀ t ∈ [low, high] ++ [one], ConstructedWithin .empty .default t := by
    have hall := ConstructedWithin.of_calls (by simp) hresults
    simp only [List.cons_append, List.nil_append, List.forall_mem_cons]
    exact ⟨hall low (by simp), hall high (by simp), hall one (by simp), by simp⟩
  have hshapes : Union.HasComparableMembers .empty
      (([low, high] ++ [one]).flatMap Union.membersOf) := by
    have hmem : ∀ {e}, Ty.shape e ∈ ([low, high] ++ [one]).flatMap Union.membersOf ->
        .shape e = wide ∨ .shape e = one := by
      intro e he
      simpa [low, high, one, wide, Union.membersOf] using he
    have hbelow : Contained .empty one wide := by
      show exact .empty one wide = .yes
      decide +kernel
    intro e f he hf _
    rcases hmem he with he | he <;> rcases hmem hf with hf | hf <;> rw [he, hf]
    · exact Or.inl (.refl _)
    · exact Or.inr hbelow
    · exact Or.inl hbelow
    · exact Or.inl (.refl _)
  have hu : (Union.of .default [low, high]).value (exact .empty) =
      .union .plain [wide, .range ⟨some 0, some 9⟩, .string] := by decide +kernel
  rcases isGrouped_of_light (c := one) hu (by decide +kernel) with ⟨-, hgrouped⟩
  refine union_of_union Hierarchy.isLawful_empty.closure hconstructed ?_ hshapes (by simp)
    (List.cons_ne_nil one []) .new hgrouped.reachable₁ hgrouped.reachable₂ hgrouped.within₁
    hgrouped.within₂ hgrouped.within₃ ?_
  · unfold Union.IsDistributed
    decide
  · intro hall
    cases hall low List.mem_cons_self

end Session
end GradualTypes
