import GradualTypes.Proofs.Nesting
import Mathlib.Data.Nat.Init

/-!
# The recursion of generalization

Generalization is given a number of steps and uses one of them for each shape that it goes into.
The values of a shape have a union that nests shapes less deep than the shape itself, so as
many steps as the type is high are enough, and then more of them make no difference.

What remains is the equation that a generalization is meant to obey: it treats the node at hand,
and generalizes the children, or the keys and the values of a shape.
-/

namespace GradualTypes

open Inquiry

/-- Inquiries that begin in the same way go on in the same way if they do so for all results that
the beginning may have. -/
theorem Inquiry.bind_congr_of_meets {α β : Type} {q : Inquiry α} {f g : α -> Inquiry β}
    {post : α -> Prop} (hq : q.Meets (.free fun _ _ _ => True) post)
    (hfg : ∀ a, post a -> f a = g a) : q >>= f = q >>= g := by
  show q.bind f = q.bind g
  induction q with
  | done a => exact hfg a hq
  | ask s t next ih => exact congrArg (ask s t) (funext fun r => ih r (hq.2 r trivial))
  | announce t next ih => exact congrArg (announce t) (funext fun _ => ih () hq.2)
  | announceText s next ih => exact congrArg (announceText s) (funext fun _ => ih () hq)
  | restart next ih => exact congrArg restart (funext fun _ => ih () hq.2)

theorem Inquiry.mapM_congr {α β : Type} {f g : α -> Inquiry β} {items : List α}
    (hfg : ∀ a ∈ items, f a = g a) : items.mapM f = items.mapM g := by
  induction items with
  | nil => rfl
  | cons a rest ih =>
      rw [List.forall_mem_cons] at hfg
      rw [List.mapM_cons, List.mapM_cons, hfg.1, ih hfg.2]

namespace Generalize

open GradualTypes.Ty (IsCarried IsNested IsAboutIntersections)

variable {options : Options} {precision : Precision} {entries : List (Entry Ty)} {m n : Nat}
  {t : Ty}

theorem isAboutIntersections_true : IsAboutIntersections fun _ => True :=
  fun _ _ => trivial

theorem meets_key_literal {terms : Terms} (hannounces : ∀ t, terms.announces t) (key : Key) :
    (Build.key key).Meets terms fun t => ∃ v, t = .literal v := by
  cases key with
  | int n => exact ⟨hannounces _, _, rfl⟩
  | text s => exact ⟨hannounces _, _, rfl⟩

/-- The keys and the values of a shape nest shapes less deep than the shape does. -/
theorem meets_keyAndValue_nested (replies : Ty -> Ty -> Tristate -> Prop) (options : Options)
    {P : Ty -> Prop} (hP : IsCarried P) (hliteral : ∀ v, P (.literal v))
    (hentries : ∀ e ∈ entries, IsNested P n e.value) :
    (keyAndValue options entries).Meets (.free replies) fun pair =>
      IsNested P n pair.1 ∧ IsNested P n pair.2 := by
  have hunion : ∀ ts, (∀ t ∈ ts, IsNested P n t) ->
      (Union.of options ts).Meets (.free replies) (IsNested P n) :=
    fun ts => Union.meets_upTo_nested hP _ _ n ts
  unfold keyAndValue
  split
  · exact ⟨Ty.isNested_leaf (hP.keyword _) rfl rfl, Ty.isNested_leaf (hP.keyword _) rfl rfl⟩
  · refine (meets_mapM_all fun e _ => meets_key_literal (fun _ => trivial) e.key).bind
      fun keys hkeys => ?_
    have hkeys' : ∀ t ∈ keys, IsNested P n t := fun t ht => by
      obtain ⟨v, rfl⟩ := hkeys t ht
      exact Ty.isNested_leaf (hliteral v) rfl rfl
    refine (hunion keys hkeys').bind fun key hkey => ?_
    exact (hunion _ (List.forall_mem_map.mpr hentries)).bind fun value hvalue => ⟨hkey, hvalue⟩

/-!
# Enough steps
-/

section Steps

variable {go go' : Ty -> Inquiry Ty}

/-- A shape does not look at how types are generalized that nest as many shapes as it does. -/
theorem shape_congr (hgo : ∀ u : Ty, u.nesting < n -> go u = go' u)
    (hn : (Ty.shape entries).nesting ≤ n) :
    shape options precision go entries = shape options precision go' entries := by
  have hentries : IsNested (fun _ => True) n (.shape entries) := ⟨hn, Ty.everywhere_true _⟩
  obtain ⟨k, rfl, hvalues⟩ := hentries.values
  refine bind_congr_of_meets (meets_keyAndValue_nested _ options
    isAboutIntersections_true.isCarried (fun _ => trivial) hvalues) ?_
  rintro ⟨key, value⟩ ⟨hkey, hvalue⟩
  dsimp only
  rw [hgo key (Nat.lt_succ_of_le hkey.nesting), hgo value (Nat.lt_succ_of_le hvalue.nesting)]

theorem mapTree_node_congr (t : Ty) (hgo : ∀ u : Ty, u.nesting < n -> go u = go' u)
    (hn : t.nesting ≤ n) :
    Traversal.mapTree options (node options precision go) t =
      Traversal.mapTree options (node options precision go') t := by
  have hchildren : t.children.mapM (Traversal.mapTree options (node options precision go)) =
      t.children.mapM (Traversal.mapTree options (node options precision go')) :=
    mapM_congr fun c hc =>
      mapTree_node_congr c hgo (Nat.le_trans (Ty.nesting_le_of_mem_children hc) hn)
  rw [Traversal.mapTree_eq, Traversal.mapTree_eq, Traversal.mapChildren, Traversal.mapChildren,
    hchildren]
  cases t with
  | shape entries => simp only [node, shape_congr hgo hn]
  | _ => rfl
termination_by t.size
decreasing_by exact Ty.size_lt_of_mem_children hc

end Steps

/-- As many steps as shapes are nested, and one more, do the same as any larger number. -/
theorem upTo_eq (hn : t.nesting ≤ n) :
    upTo options precision (n + 1) t = upTo options precision (n + 2) t := by
  induction n generalizing t with
  | zero => exact mapTree_node_congr t (fun u hu => absurd hu (Nat.not_lt_zero _)) hn
  | succ n ih => exact mapTree_node_congr t (fun u hu => ih (Nat.le_of_lt_succ hu)) hn

theorem upTo_eq_of_le (hn : t.nesting < n) (hle : n ≤ m) :
    upTo options precision n t = upTo options precision m t := by
  induction m, hle using Nat.le_induction with
  | base => rfl
  | succ m hle ih =>
      obtain ⟨k, rfl⟩ : ∃ k, m = k + 1 := ⟨m - 1, by omega⟩
      rw [ih, upTo_eq (by omega)]

/-- The number of steps makes no difference if it exceeds the depth of nesting. -/
theorem upTo_eq_generalize (hn : t.nesting < n) :
    upTo options precision n t = generalize options precision t := by
  have hheight := t.nesting_le_height
  rcases Nat.le_total n (t.height + 1) with hle | hle
  · exact upTo_eq_of_le hn hle
  · exact (upTo_eq_of_le (by omega) hle).symm

end Generalize

open GradualTypes.Generalize (node upTo_eq_generalize mapTree_node_congr)

variable {options : Options} {precision : Precision}

/-- Generalization maps the tree, and goes into shapes by itself. -/
theorem generalize_eq_mapTree (t : Ty) :
    generalize options precision t =
      Traversal.mapTree options (node options precision (generalize options precision)) t := by
  have hheight := t.nesting_le_height
  exact mapTree_node_congr t (fun u hu => upTo_eq_generalize (by omega)) hheight

/-- Generalization treats one node and generalizes what is below it. -/
theorem generalize_eq (t : Ty) :
    generalize options precision t =
      node options precision (generalize options precision) t fun _ =>
        t.children.mapM (generalize options precision) >>= Traversal.update options t := by
  have hmap : Traversal.mapTree options (node options precision (generalize options precision)) =
      generalize options precision := funext fun u => (generalize_eq_mapTree u).symm
  rw [generalize_eq_mapTree, Traversal.mapTree_eq, hmap]
  rfl

end GradualTypes
