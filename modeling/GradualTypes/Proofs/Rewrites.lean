import GradualTypes.Session
import GradualTypes.Traversal

/-!
# Rewrites that change nothing

A callback decides at every node whether to go on below it.  It may remember what it likes, and
it may do work of its own in the session.  As long as it returns at each node either the node or
what going on below the node has returned, the type comes back as it was, whether it is
normalized or not: no node is built again, and nothing happens to the session but what the
callback does.
-/

namespace GradualTypes

open GradualTypes.Traversal (mapChildren mapTree)

/-- Work in a session, with a memory beside it. -/
abbrev Session.Work (μ : Type) : Type -> Type :=
  StateM (μ × Session)

namespace Session.Work

variable {μ α : Type} {options : Options} {w : μ × Session} {t : Ty}

instance : MonadLift Inquiry (Work μ) where
  monadLift q := fun w => ((w.2.perform q).1, w.1, (w.2.perform q).2)

theorem run_pure (a : α) (w : μ × Session) :
    (monadLift (pure a : Inquiry α) : Work μ α).run w = (a, w) := rfl

/-- Whenever the work is done, it ends with this type. -/
def Returns (t : Ty) (x : Work μ Ty) : Prop :=
  ∀ w, (x.run w).1 = t

/-- What holds of the memory and the session before the work holds after it. -/
def Keeps (I : μ × Session -> Prop) (x : Work μ α) : Prop :=
  ∀ w, I w -> I (x.run w).2

/-!
# The children of a node
-/

section Children

variable {f : Ty -> Work μ Ty} {items : List Ty} {I : μ × Session -> Prop}

theorem mapM_of_returns (hf : ∀ c ∈ items, (f c).Returns c) (w : μ × Session) :
    ((items.mapM f).run w).1 = items := by
  induction items generalizing w with
  | nil => rfl
  | cons c rest ih =>
      rw [List.forall_mem_cons] at hf
      rw [List.mapM_cons]
      show ((f c).run w).1 :: ((rest.mapM f).run ((f c).run w).2).1 = c :: rest
      rw [hf.1 w, ih hf.2]

theorem Keeps.mapM (hf : ∀ c ∈ items, (f c).Keeps I) : (items.mapM f).Keeps I := by
  intro w hw
  induction items generalizing w with
  | nil => exact hw
  | cons c rest ih =>
      rw [List.forall_mem_cons] at hf
      rw [List.mapM_cons]
      exact ih hf.2 _ (hf.1 w hw)

/-- If all children stay the same, the node is returned, and all that has been done is to look at the
children one after another. -/
theorem mapChildren_of_returns (hf : ∀ c ∈ t.children, (f c).Returns c) (w : μ × Session) :
    (mapChildren options f t).run w = (t, ((t.children.mapM f).run w).2) := by
  have hsame := mapM_of_returns hf w
  show (monadLift (Traversal.update options t ((t.children.mapM f).run w).1) : Work μ Ty).run
    ((t.children.mapM f).run w).2 = _
  rw [hsame, Traversal.update, if_pos rfl, run_pure]

end Children

end Session.Work

/-!
# Callbacks
-/

/-- What is done at a node, given what going on below the node does. -/
abbrev Traversal.Callback (μ : Type) : Type :=
  Ty -> (Unit -> Session.Work μ Ty) -> Session.Work μ Ty

namespace Traversal.Callback

variable {μ : Type} {callback : Callback μ} {options : Options} {I : μ × Session -> Prop}

/-- What is returned at a node is the node, or what going on below it returns at some time. -/
def ReturnsNode (callback : Callback μ) : Prop :=
  ∀ t descend w, ((callback t descend).run w).1 = t ∨
    ∃ w', ((callback t descend).run w).1 = ((descend ()).run w').1

/-- Whatever going on below a node keeps, the callback keeps. -/
def Keeps (I : μ × Session -> Prop) (callback : Callback μ) : Prop :=
  ∀ t descend, (descend ()).Keeps I -> (callback t descend).Keeps I

/-- The types of the session stay the same, unless going on below the node enters new ones. -/
def EntersNoType (callback : Callback μ) : Prop :=
  ∀ types, callback.Keeps fun w => w.2.types = types

theorem ReturnsNode.returns (hcallback : callback.ReturnsNode) {t : Ty}
    {descend : Unit -> Session.Work μ Ty} (hdescend : (descend ()).Returns t) :
    (callback t descend).Returns t := by
  intro w
  rcases hcallback t descend w with hnode | ⟨w', hbelow⟩
  · exact hnode
  · exact hbelow.trans (hdescend w')

/-- By recursion on the tree: all children come back as they were, so the node below which the
callback goes on does. -/
theorem ReturnsNode.mapTree (hcallback : callback.ReturnsNode) (options : Options) (t : Ty) :
    (mapTree options callback t).Returns t := by
  rw [mapTree_eq]
  refine hcallback.returns fun w => ?_
  have hchildren : ∀ c ∈ t.children, (Traversal.mapTree options callback c).Returns c :=
    fun c hc => hcallback.mapTree options c
  rw [Session.Work.mapChildren_of_returns hchildren]
termination_by t.size
decreasing_by exact Ty.size_lt_of_mem_children hc

theorem Keeps.mapTree (hreturns : callback.ReturnsNode) (hkeeps : callback.Keeps I)
    (options : Options) (t : Ty) : (mapTree options callback t).Keeps I := by
  rw [mapTree_eq]
  refine hkeeps t _ fun w hw => ?_
  have hchildren : ∀ c ∈ t.children, (Traversal.mapTree options callback c).Keeps I :=
    fun c hc => hkeeps.mapTree hreturns options c
  rw [Session.Work.mapChildren_of_returns fun c _ => hreturns.mapTree options c]
  exact Session.Work.Keeps.mapM hchildren w hw
termination_by t.size
decreasing_by exact Ty.size_lt_of_mem_children hc

end Traversal.Callback

/-!
# Unchanged types
-/

namespace Session

open GradualTypes.Traversal (Callback)

/-- A type is not changed by a callback that returns the nodes it is given or what it gets from going on
below them, and no type is entered that the callback does not enter by itself.  Nor is a type changed
if its children are mapped to themselves; then the session is left as the calls for the
children have made it. -/
theorem rewrite_of_same {μ : Type} {callback : Callback μ} (hcallback : callback.ReturnsNode)
    (options : Options) (t : Ty) (w : μ × Session) :
    let result := (mapTree options callback t).run w
    (result.1 = t ∧ (callback.EntersNoType -> result.2.2.types = w.2.types)) ∧
      ∀ f : Ty -> Work μ Ty, (∀ c ∈ t.children, (f c).Returns c) ->
        (mapChildren options f t).run w = (t, ((t.children.mapM f).run w).2) := by
  intro result
  refine ⟨⟨hcallback.mapTree options t w, fun hquiet => ?_⟩, fun f hf => ?_⟩
  · exact (hquiet w.2.types).mapTree hcallback options t w rfl
  · exact Work.mapChildren_of_returns hf w

/-- A union that is in no normal form, with an error inside; the callback notes each node and
stops at integers. -/
theorem rewrite_of_same_unnormalized :
    let t := Ty.union .plain [.union .benevolent [.int, .int], .array .int .error]
    let callback : Callback (List Ty) := fun node descend => do
      modify fun w => (node :: w.1, w.2)
      if node = .int then pure node else descend ()
    let result := (mapTree .default callback t).run ([], new .empty .default)
    result.1 = t ∧ result.2.2.types = Numbering.empty := by
  intro t callback result
  have hstop : ∀ descend w, (callback .int descend).run w = (.int, .int :: w.1, w.2) :=
    fun _ _ => rfl
  have hgo : ∀ node descend w, node ≠ .int ->
      (callback node descend).run w = (descend ()).run (node :: w.1, w.2) := by
    intro node descend w hnode
    simp [callback, hnode]
  have hreturns : callback.ReturnsNode := by
    intro node descend w
    by_cases hnode : node = .int
    · subst hnode
      exact .inl (by rw [hstop])
    · exact .inr ⟨(node :: w.1, w.2), by rw [hgo node descend w hnode]⟩
  have hquiet : callback.EntersNoType := by
    intro types node descend hdescend w hw
    by_cases hnode : node = .int
    · subst hnode
      rwa [hstop]
    · rw [hgo node descend w hnode]
      exact hdescend (node :: w.1, w.2) hw
  have hunchanged := (rewrite_of_same hreturns .default t ([], new .empty .default)).1
  exact ⟨hunchanged.1, hunchanged.2 hquiet⟩

end Session
end GradualTypes
