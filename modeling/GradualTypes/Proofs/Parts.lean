import GradualTypes.Ty.Measure
import GradualTypes.Ty.Shape

/-!
# Properties of all parts of a type

A type is well formed when each of its nodes is.  `Ty.Everywhere` turns a
property of a node into the property that a type and everything inside it has.
-/

namespace GradualTypes
namespace Ty

/-- The property holds of a type and of all types inside it. -/
inductive Everywhere (P : Ty -> Prop) : Ty -> Prop where
  | intro {t : Ty} : P t -> (∀ c ∈ t.children, Everywhere P c) -> Everywhere P t

variable {P Q : Ty -> Prop} {t : Ty}

theorem Everywhere.here (h : Everywhere P t) : P t := by
  cases h with
  | intro hhere _ => exact hhere

theorem Everywhere.inside (h : Everywhere P t) {c : Ty} (hc : c ∈ t.children) :
    Everywhere P c := by
  cases h with
  | intro _ hinside => exact hinside c hc

theorem Everywhere.leaf (ht : P t) (hleaf : t.children = []) : Everywhere P t :=
  .intro ht (by simp [hleaf])

/-- Whether a property holds of a type and of all types inside it, down to a given depth. -/
def everyTo (p : Ty -> Bool) : Nat -> Ty -> Bool
  | 0, _ => false
  | n + 1, t => p t && t.children.all (everyTo p n)

theorem everywhere_of_everyTo {p : Ty -> Bool} {n : Nat} (ht : everyTo p n t = true) :
    Everywhere (fun u => p u = true) t := by
  induction n generalizing t with
  | zero => cases ht
  | succ n ih =>
      rw [everyTo, Bool.and_eq_true, List.all_eq_true] at ht
      exact .intro ht.1 fun c hc => ih (ht.2 c hc)

theorem Everywhere.imp (h : Everywhere P t) (himp : ∀ u, P u -> Q u) : Everywhere Q t := by
  induction h with
  | intro hhere _ ih => exact .intro (himp _ hhere) ih

theorem Everywhere.and (hP : Everywhere P t) (hQ : Everywhere Q t) :
    Everywhere (fun u => P u ∧ Q u) t := by
  induction hP with
  | intro hhere _ ih => exact .intro ⟨hhere, hQ.here⟩ fun c hc => ih c hc (hQ.inside hc)

/-- A property of pairs holds of all parts of two types in either order of the types. -/
theorem Everywhere.swap {R : Ty -> Ty -> Prop} {s : Ty}
    (h : Everywhere (fun a => Everywhere (R a) t) s) :
    Everywhere (fun b => Everywhere (fun a => R a b) s) t := by
  have ht := h.here
  induction ht with
  | intro _ _ ih =>
      exact .intro (h.imp fun _ ha => ha.here) fun c hc => ih c hc (h.imp fun _ ha => ha.inside hc)

theorem Everywhere.value {entries : List (Entry Ty)} (h : Everywhere P (.shape entries))
    {e : Entry Ty} (he : e ∈ entries) : Everywhere P e.value :=
  h.inside (List.mem_map.mpr ⟨e, he, rfl⟩)

theorem mem_children_shape {entries : List (Entry Ty)} {e : Entry Ty} (he : e ∈ entries) :
    e.value ∈ (shape entries).children :=
  List.mem_map.mpr ⟨e, he, rfl⟩

theorem size_of_children {a b c u v w : Ty} (hu : u ∈ a.children) (hv : v ∈ b.children)
    (hw : w ∈ c.children) : u.size + v.size + w.size < a.size + b.size + c.size := by
  have husize := size_lt_of_mem_children hu
  have hvsize := size_lt_of_mem_children hv
  have hwsize := size_lt_of_mem_children hw
  omega

/-- No key is declared twice, if the type is a shape. -/
def HasDistinctKeys : Ty -> Prop
  | shape entries => (Shape.keys entries).Nodup
  | _ => True

end Ty

namespace Shape

variable {α : Type} {entries : List (Entry α)}

theorem mem_of_entry? {key : Key} {e : Entry α} (h : Shape.entry? entries key = some e) :
    e ∈ entries ∧ e.key = key :=
  ⟨List.mem_of_find?_eq_some h, by simpa using List.find?_some h⟩

theorem hasRequired_iff : hasRequired entries = true ↔ ∃ e ∈ entries, e.optional = false := by
  simp only [hasRequired, List.any_eq_true, Bool.not_eq_true']

theorem entry?_isSome {e : Entry α} (he : e ∈ entries) :
    ∃ d, entry? entries e.key = some d := by
  have hsome : (Shape.entry? entries e.key).isSome := by
    rw [Shape.entry?, List.find?_isSome]
    exact ⟨e, he, by simp⟩
  exact Option.isSome_iff_exists.mp hsome

theorem entry?_eq_self (hkeys : (keys entries).Nodup) {e : Entry α} (he : e ∈ entries) :
    entry? entries e.key = some e := by
  induction entries with
  | nil => cases he
  | cons d rest ih =>
      simp only [keys, List.map_cons, List.nodup_cons] at hkeys
      rw [Shape.entry?, List.find?_cons]
      rcases List.mem_cons.mp he with rfl | he
      · simp
      · have hne : (d.key == e.key) = false := by
          rw [beq_eq_false_iff_ne]
          intro heq
          exact hkeys.1 (heq ▸ List.mem_map.mpr ⟨e, he, rfl⟩)
        rw [hne]
        exact ih hkeys.2 he

end Shape
end GradualTypes
