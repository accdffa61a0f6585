import GradualTypes.Intersection
import GradualTypes.Proofs.Codes
import GradualTypes.Proofs.Terms

/-!
# What outlives a reduction

Each step of a reduction compares two members.  It gives up one of them, puts a narrower type in
the place of both, leaves them alone, or ends the reduction.  So a property of the types that are
there, in whatever order, holds of those that are left, if the meeting of any two of them keeps
it.
-/

namespace GradualTypes
namespace Intersection

open Inquiry

variable {terms : Terms} {members : List Ty}

/-!
# One meeting
-/

/-- What two members become depends on the answers to two questions, and on their common part if
both are intervals. -/
theorem meets_meet_of {earlier later : Ty} {post : Meeting -> Prop}
    (hthere : terms.asks earlier later) (hback : terms.asks later earlier)
    (hkeep : terms.replies earlier later .yes -> post .keep)
    (hreplace : terms.replies later earlier .yes -> post .replace)
    (hdisjoint : terms.replies earlier later .no -> terms.replies later earlier .no ->
      post .disjoint)
    (hranges : ∀ r r', terms.replies earlier later r -> terms.replies later earlier r' ->
      r ≠ .yes -> r' ≠ .yes -> ¬ (r = .no ∧ r' = .no) ->
        (meetRanges earlier later).Meets terms post) :
    (meet earlier later).Meets terms post := by
  refine ⟨hthere, fun r hr => ?_⟩
  show Meets _ _ (if r = .yes then pure Meeting.keep else _)
  split
  · rename_i heq
    exact hkeep (heq ▸ hr)
  · rename_i hne
    refine ⟨hback, fun r' hr' => ?_⟩
    show Meets _ _ (if r' = .yes then pure Meeting.replace
      else if r = .no ∧ r' = .no then pure Meeting.disjoint else meetRanges earlier later)
    split
    · rename_i heq
      exact hreplace (heq ▸ hr')
    · rename_i hne'
      split
      · rename_i hno
        exact hdisjoint (hno.1 ▸ hr) (hno.2 ▸ hr')
      · rename_i hno
        exact hranges r r' hr hr' hne hne' hno

/-!
# The property after a meeting
-/

/-- What the meeting of two types among others leaves of a property of all that are there.  The
second property is one that holds if two of them share no value. -/
def IsKeptBy (S : List Ty -> Prop) (D : Prop) (t u : Ty) (others : List Ty) : Meeting -> Prop
  | .keep => S (t :: others)
  | .replace => S (u :: others)
  | .narrowed v => S (v :: others)
  | .disjoint => D
  | .both => True

/-- The property holds of the types that are left, if any are. -/
def IsOfLeft (S : List Ty -> Prop) (D : Prop) : Option (List Ty) -> Prop
  | none => D
  | some left => S left

/-- The order of the types does not matter to the property, and their meetings keep it. -/
structure Outlives (terms : Terms) (S : List Ty -> Prop) (D : Prop) : Prop where
  perm : ∀ {ts us : List Ty}, ts.Perm us -> S ts -> S us
  meet : ∀ {t u : Ty} {others : List Ty}, S (t :: u :: others) ->
    (meet t u).Meets terms (IsKeptBy S D t u others)

variable {S : List Ty -> Prop} {D : Prop}

/-- The same holds among types that have yet to be compared. -/
theorem Outlives.append (hS : Outlives terms S D) (waiting : List Ty) :
    Outlives terms (fun ts => S (ts ++ waiting)) D where
  perm := fun hperm => hS.perm (hperm.append_right waiting)
  meet := fun hstart => (hS.meet hstart).imp fun meeting hmeeting => by
    cases meeting <;> exact hmeeting

/-!
# All meetings
-/

variable (hS : Outlives terms S D)
include hS

/-- The induction is on the steps of the loop: the property is one of the current type, the
passed ones and those that are still to be met. -/
theorem meets_narrow_of {passed kept : List Ty} {current : Ty}
    (hstart : S (current :: (passed ++ kept))) :
    (narrow passed current kept).Meets terms (IsOfLeft S D) := by
  induction passed, current, kept using narrow.induct with
  | case1 passed current =>
      rw [List.append_nil] at hstart
      unfold narrow
      exact hS.perm (List.perm_append_singleton current passed).symm hstart
  | case2 passed current t rest ihreplace ihnarrowed ihboth =>
      have hmiddle : (passed ++ t :: rest).Perm (t :: (passed ++ rest)) := List.perm_middle
      have hnext : S (t :: current :: (passed ++ rest)) :=
        hS.perm ((hmiddle.cons current).trans (.swap t current _)) hstart
      unfold narrow
      refine (hS.meet hnext).bind fun meeting hmeeting => ?_
      cases meeting with
      | disjoint => exact hmeeting
      | keep => exact hS.perm hmiddle.symm hmeeting
      | replace => exact ihreplace hmeeting
      | narrowed u => exact ihnarrowed u hmeeting
      | both =>
          apply ihboth
          rwa [List.append_assoc, List.singleton_append]

theorem meets_narrowAll_of {kept incoming : List Ty} (hstart : S (kept ++ incoming)) :
    (narrowAll kept incoming).Meets terms (IsOfLeft S D) := by
  induction incoming generalizing kept with
  | nil => rwa [List.append_nil] at hstart
  | cons t rest ih =>
      have hnext : S (t :: ([] ++ kept) ++ rest) := hS.perm List.perm_middle hstart
      refine (meets_narrow_of (hS.append rest) hnext).bind fun result hresult => ?_
      cases result with
      | none => exact hresult
      | some next => exact ih hresult

/-- A reduction ends with `never`, with one type that is left, or with the intersection of those
that are. -/
theorem meets_reduce_of {post : Ty -> Prop} (hrestarts : terms.restarts) (hstart : S members)
    (hnever : D -> post .never) (hone : ∀ t, S [t] -> post t)
    (hmany : ∀ left, S left -> terms.announces (.inter left) ∧ post (.inter left)) :
    (reduce members).Meets terms post := by
  refine ⟨hrestarts, ?_⟩
  have hnarrow : (narrowAll [] members).Meets terms (IsOfLeft S D) :=
    meets_narrowAll_of hS hstart
  refine hnarrow.bind fun result hresult => ?_
  cases result with
  | none => exact hnever hresult
  | some left =>
      show (close left).Meets terms post
      unfold close
      split
      · exact hone _ hresult
      · exact hmany _ (hS.perm (Ty.perm_sortCanonical left).symm hresult)

end Intersection
end GradualTypes
