import GradualTypes.Proofs.ShapeGroups
import GradualTypes.Proofs.UnionBounds

/-!
# Supplies

A type that has been announced may be used from then on.  A supply says what a type
needs in order to be announced, and what is known of it afterwards.  An inquiry draws
on a supply if whatever it announces meets the needs, as long as this is so for all
that it has announced before.

A union is made of parts of its members, so it carries on every property that its
parts hand on to the types built of them.  Where the property is about the nesting of
shapes, it has a level, which is one less for the values of a shape.
-/

namespace GradualTypes

structure Supply where
  needs : Ty -> Prop
  has : Ty -> Prop

/-- The type may be announced, and then it has the property. -/
structure Supply.Gives (S : Supply) (P : Ty -> Prop) (t : Ty) : Prop where
  needs : S.needs t
  get : S.has t -> P t

namespace Inquiry

variable {α β : Type} {S : Supply}

/-- The inquiry draws on the supply, and its result has the property. -/
def Draws (S : Supply) (post : α -> Prop) : Inquiry α -> Prop
  | done a => post a
  | ask _ _ next => ∀ r, (next r).Draws S post
  | announce t next => S.needs t ∧ (S.has t -> (next ()).Draws S post)
  | announceText _ next => (next ()).Draws S post
  | restart next => (next ()).Draws S post

theorem Draws.bind {post : α -> Prop} {post' : β -> Prop} {q : Inquiry α} {f : α -> Inquiry β}
    (h : q.Draws S post) (hf : ∀ a, post a -> (f a).Draws S post') : (q >>= f).Draws S post' := by
  show (q.bind f).Draws S post'
  induction q with
  | done a => exact hf a h
  | ask s t next ih => exact fun r => ih r (h r)
  | announce t next ih => exact ⟨h.1, fun ht => ih () (h.2 ht)⟩
  | announceText s next ih => exact ih () h
  | restart next ih => exact ih () h

theorem Draws.imp {post post' : α -> Prop} {q : Inquiry α} (h : q.Draws S post)
    (himp : ∀ a, post a -> post' a) : q.Draws S post' := by
  have hbind := h.bind (f := pure) himp
  rwa [bind_pure] at hbind

theorem draws_built {P : Ty -> Prop} {t : Ty} (h : S.Gives P t) : (built t).Draws S P :=
  ⟨h.needs, h.get⟩

theorem draws_mapM {P : β -> Prop} {f : α -> Inquiry β} {items : List α}
    (hf : ∀ a ∈ items, (f a).Draws S P) : (items.mapM f).Draws S fun bs => ∀ b ∈ bs, P b := by
  induction items with
  | nil => simp [Draws, pure]
  | cons a rest ih =>
      rw [List.forall_mem_cons] at hf
      rw [List.mapM_cons]
      exact hf.1.bind fun b hb => (ih hf.2).bind fun bs hbs => List.forall_mem_cons.mpr ⟨hb, hbs⟩

/-- Under a supply that asks for nothing, an inquiry draws on it whatever it announces. -/
theorem Draws.meets {post : α -> Prop} {q : Inquiry α} {replies : Ty -> Ty -> Tristate -> Prop}
    (h : q.Draws ⟨fun _ => True, fun _ => True⟩ post) : q.Meets (.free replies) post := by
  induction q with
  | done a => exact h
  | ask s t next ih => exact ⟨trivial, fun r _ => ih r (h r)⟩
  | announce t next ih => exact ⟨trivial, ih () (h.2 trivial)⟩
  | announceText s next ih => exact ih () h
  | restart next ih => exact ⟨trivial, ih () h⟩

/-- What an inquiry announces need not be known afterwards. -/
theorem Meets.draws {terms : Terms} {post : α -> Prop} {q : Inquiry α} (h : q.Meets terms post)
    (hreplies : ∀ s t r, terms.replies s t r) (hneeds : ∀ t, terms.announces t -> S.needs t) :
    q.Draws S post := by
  induction q with
  | done a => exact h
  | ask s t next ih => exact fun r => ih r (h.2 r (hreplies s t r))
  | announce t next ih => exact ⟨hneeds t h.1, fun _ => ih () h.2⟩
  | announceText s next ih => exact ih () h
  | restart next ih => exact ih () h.2

end Inquiry

open Inquiry

theorem Build.draws_range {S : Supply} {P : Ty -> Prop} {r : IntRange}
    (hkeyword : ∀ k, P (.keyword k)) (hint : ∀ n, S.Gives P (.literal (.int n)))
    (hrange : S.Gives P (.range r)) : (range r).Draws S P := by
  unfold range
  split
  · exact hkeyword _
  · split
    · exact hkeyword _
    · split
      · exact draws_built (hint _)
      · exact draws_built hrange
    · exact draws_built hrange

/-- A property that unions carry on, at each level of nesting. -/
structure Supply.Carries (S : Supply) (P : Nat -> Ty -> Prop) : Prop where
  error : ∀ n, P n .error
  keyword : ∀ n k, P n (.keyword k)
  bool : ∀ b, S.needs (.literal (.bool b))
  joined : ∀ {n rs}, (∀ r ∈ rs, P n (.range r)) ->
    ∀ r ∈ IntRange.joinTouching (Union.sortByStart rs), (Build.range r).Draws S (P n)
  member : ∀ {n flavor members}, P n (.union flavor members) -> ∀ m ∈ members, P n m
  union : ∀ {n flavor members}, (∀ m ∈ members, P n m) -> S.Gives (P n) (.union flavor members)
  value : ∀ {n entries}, P n (.shape entries) -> ∀ e ∈ entries, P (n - 1) e.value
  shape : ∀ {n entries entries'}, P n (.shape entries) -> (entries = [] -> entries' = []) ->
    (∀ e ∈ entries', P (n - 1) e.value) -> S.Gives (P n) (.shape entries')

variable {S : Supply} {P : Nat -> Ty -> Prop} (hP : S.Carries P) {limit n : Nat}
  {members : List Ty} {combine : List Ty -> Inquiry Ty}

namespace Union

theorem foldl_appendNew_all {Q : Ty -> Prop} {added : List Ty} (hmembers : ∀ m ∈ members, Q m)
    (hadded : ∀ t ∈ added, Q t) : ∀ u ∈ added.foldl appendNew members, Q u := by
  induction added generalizing members with
  | nil => exact hmembers
  | cons t rest ih =>
      rw [List.forall_mem_cons] at hadded
      refine ih (fun u hu => ?_) hadded.2
      rcases mem_appendNew.mp hu with hu | rfl
      · exact hmembers u hu
      · exact hadded.1

/-!
# Absorption
-/

theorem draws_isAbsorbed (S : Supply) (t : Ty) (others : List Ty) :
    (isAbsorbed t others).Draws S fun _ => True := by
  induction others with
  | nil => trivial
  | cons u rest ih =>
      unfold isAbsorbed
      split
      · exact ih
      · intro r
        show Draws S _ (if r = .yes then pure true else isAbsorbed t rest)
        split
        · trivial
        · exact ih

theorem draws_absorbFrom (S : Supply) (kept rest : List Ty) :
    (absorbFrom kept rest).Draws S fun result => result.Sublist (kept ++ rest) := by
  induction rest generalizing kept with
  | nil =>
      rw [List.append_nil]
      exact List.Sublist.refl kept
  | cons t rest ih =>
      refine (draws_isAbsorbed S t (kept ++ rest)).bind fun absorbed _ => ?_
      split
      · refine (ih kept).imp fun result hresult => hresult.trans ?_
        exact (List.Sublist.refl kept).append (List.sublist_cons_self t rest)
      · have happend : kept ++ [t] ++ rest = kept ++ t :: rest := by simp
        exact happend ▸ ih (kept ++ [t])

theorem draws_absorb {Q : Ty -> Prop} (S : Supply) (hmembers : ∀ m ∈ members, Q m) :
    (absorb members).Draws S fun result => ∀ u ∈ result, Q u := by
  unfold absorb
  split
  · exact hmembers
  · exact (draws_absorbFrom S [] members).imp fun result hresult u hu =>
      hmembers u (hresult.subset hu)

/-!
# The passes
-/

section Passes

variable (hmembers : ∀ m ∈ members, P n m)
include hP hmembers

theorem draws_mergeBools :
    (mergeBools members).Draws S fun result => ∀ u ∈ result, P n u := by
  have hbool : ∀ b, (Build.bool b).Draws S fun _ => True := fun b => ⟨hP.bool b, fun _ => trivial⟩
  refine (hbool true).bind fun _ _ => (hbool false).bind fun _ _ => ?_
  split
  · intro u hu
    rcases mem_appendNew.mp hu with hu | rfl
    · exact hmembers u (List.mem_filter.mp hu).1
    · exact hP.keyword n _
  · exact hmembers

omit hP in
theorem draws_appendRanges {rs : List IntRange} (hrs : ∀ r ∈ rs, (Build.range r).Draws S (P n)) :
    (appendRanges members rs).Draws S fun result => ∀ u ∈ result, P n u := by
  induction rs generalizing members with
  | nil => exact hmembers
  | cons r rest ih =>
      rw [List.forall_mem_cons] at hrs
      refine hrs.1.bind fun t ht => ih (fun u hu => ?_) hrs.2
      rcases mem_appendNew.mp hu with hu | rfl
      · exact hmembers u hu
      · exact ht

theorem draws_mergeRanges :
    (mergeRanges members).Draws S fun result => ∀ u ∈ result, P n u := by
  unfold mergeRanges
  dsimp only
  split
  · exact hmembers
  · exact draws_appendRanges (fun m hm => hmembers m (List.mem_filter.mp hm).1)
      (hP.joined fun r hr => hmembers _ (mem_ranges.mp hr))

end Passes

section Shapes

variable (hcombine : ∀ n ts, (∀ t ∈ ts, P n t) -> (combine ts).Draws S (P n))
include hP hcombine

theorem draws_mergeGroup {shapes : List (List (Entry Ty))} (hne : shapes ≠ [])
    (hshapes : ∀ s ∈ shapes, P n (.shape s)) : (mergeGroup combine shapes).Draws S (P n) := by
  have hentry : ∀ key, (mergeEntry combine shapes key).Draws S fun e => P (n - 1) e.value := by
    intro key
    refine (hcombine (n - 1) _ ?_).bind fun v hv => hv
    rw [List.forall_mem_map]
    intro e he
    obtain ⟨s, hs, hentry⟩ := List.mem_filterMap.mp he
    exact hP.value (hshapes s hs) e (Shape.mem_of_entry? hentry).1
  cases shapes with
  | nil => exact absurd rfl hne
  | cons first rest =>
      have hfirst := hshapes first List.mem_cons_self
      by_cases hempty : first = []
      · subst hempty
        have hnone : ∀ e ∈ Shape.ofList [], P (n - 1) e.value := fun e he => nomatch he
        exact draws_built (hP.shape hfirst (fun _ => rfl) hnone)
      · refine (draws_mapM fun key _ => hentry key).bind fun entries hentries => ?_
        unfold Build.shape
        split
        · exact hP.error n
        · exact draws_built (hP.shape hfirst (fun heq => absurd heq hempty)
            fun e he => hentries e (Shape.mem_of_mem_ofList he))

theorem draws_mergeGroups {groups : List (List (List (Entry Ty)))} {budget : Nat}
    (hgroups : ∀ group ∈ groups, ∀ s ∈ group, P n (.shape s)) :
    (mergeGroups combine budget groups).Draws S fun result => ∀ t ∈ result.2, P n t := by
  induction groups generalizing budget with
  | nil => simp [mergeGroups, Draws, pure]
  | cons group rest ih =>
      rw [List.forall_mem_cons] at hgroups
      unfold mergeGroups
      split
      · exact ih hgroups.2
      · dsimp only
        split
        · simp [Draws, pure]
        · rename_i hlong
          have hne : group.take budget ≠ [] := List.ne_nil_of_length_pos (by omega)
          refine (draws_mergeGroup hP hcombine hne fun s hs =>
            hgroups.1 s (List.mem_of_mem_take hs)).bind fun merged hmerged => ?_
          exact (ih hgroups.2).bind fun result hresult =>
            List.forall_mem_cons.mpr ⟨hmerged, hresult⟩

variable (hmembers : ∀ m ∈ members, P n m)
include hmembers

theorem draws_mergeShapes :
    (mergeShapes limit combine members).Draws S fun result => ∀ u ∈ result, P n u := by
  have hgroups : ∀ group ∈ shapeGroups members, ∀ s ∈ group, P n (.shape s) :=
    fun group hgroup s hs => hmembers _ (mem_shapeGroups.mp ⟨group, hgroup, hs⟩)
  refine (draws_mergeGroups hP hcombine hgroups).bind fun merged hmerged => ?_
  dsimp only
  split
  · exact hmembers
  · exact draws_absorb S (foldl_appendNew_all
      (fun m hm => hmembers m (List.mem_filter.mp hm).1) hmerged)

theorem draws_reduce {flavor : Flavor} : (reduce limit combine flavor members).Draws S (P n) := by
  refine (draws_mergeBools hP hmembers).bind fun first hfirst => ?_
  refine (draws_mergeRanges hP hfirst).bind fun second hsecond => ?_
  refine (draws_absorb S hsecond).bind fun third hthird => ?_
  refine (draws_mergeShapes hP hcombine hthird).bind fun fourth hfourth => ?_
  unfold close
  split
  · exact hfourth _ List.mem_cons_self
  · have hperm := Ty.perm_sortCanonical fourth
    exact draws_built (hP.union fun m hm => hfourth m (hperm.mem_iff.mp hm))

theorem draws_normalize {flavor : Flavor} :
    (normalize limit combine flavor members).Draws S (P n) := by
  have hnormalizes := normalizes_normalize limit combine flavor members
  generalize normalize limit combine flavor members = q at hnormalizes ⊢
  cases hnormalizes with
  | error herror => exact hP.error n
  | mixed herror hmixed => exact hP.keyword n _
  | never hall => exact hP.keyword n _
  | @single t hleft => exact hmembers t ((hleft.mem_iff t).mp List.mem_cons_self).1
  | several hleft hne =>
      exact draws_reduce hP hcombine fun m hm => hmembers m ((hleft.mem_iff m).mp hm).1

end Shapes

include hP

theorem carried_of_mem_membersOf {t : Ty} (ht : P n t) : ∀ m ∈ membersOf t, P n m := by
  cases t with
  | union flavor members => exact hP.member ht
  | _ => exact List.forall_mem_singleton.mpr ht

/-- The union of some types carries on what they have in common. -/
theorem draws_upTo (limit height n : Nat) (ts : List Ty) (hts : ∀ t ∈ ts, P n t) :
    (upTo limit height ts).Draws S (P n) := by
  induction height generalizing n ts with
  | zero =>
      match ts with
      | [] => exact hP.error n
      | [t] => exact hts t List.mem_cons_self
      | _ :: _ :: _ => exact hP.error n
  | succ height ih =>
      match ts with
      | [] => exact hP.error n
      | [t] => exact hts t List.mem_cons_self
      | _ :: _ :: _ =>
          refine draws_normalize hP ih fun m hm => ?_
          obtain ⟨v, hv, hmv⟩ := List.mem_flatMap.mp hm
          exact carried_of_mem_membersOf hP (hts v hv) m hmv

end Union
end GradualTypes
