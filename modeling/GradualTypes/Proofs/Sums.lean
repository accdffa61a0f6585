import GradualTypes.Proofs.Enclosures

/-!
# Unions of some types

What a union is in terms of the types that are put together, whether it was made of them
at once or in several steps: it is the least type above them, and of those that contain the
same it keeps the last one in the order of codes.  Such statements are passed on from
several unions to the union of these.

As before it is assumed that no two shapes are merged and that no intersection has kept a
union inside.
-/

namespace GradualTypes

open Inquiry
open GradualTypes.Subtype (Contained exact)

variable {h : Hierarchy} {options : Options} {P Q : Ty -> Prop} {a q s t u : Ty}

/-- A type that is no benevolent union and whose alternatives are distributed. -/
structure Ty.IsFactor (h : Hierarchy) (t : Ty) : Prop where
  proper : t.IsProper h
  distributed : Union.IsDistributed t
  plain : ∀ flavor members, t = .union flavor members -> flavor = .plain

theorem Ty.IsFactor.isAlternative (ht : t.IsFactor h) (hu : u ∈ Union.membersOf t) :
    u.IsAlternative h :=
  ht.proper.isAlternative ht.distributed hu

theorem Ty.IsFactor.isAlternative_of_flat (ht : t.IsFactor h) (hflat : t.unionMembers? = none) :
    t.IsAlternative h :=
  ht.isAlternative (by rw [Union.membersOf_of_flat hflat]; exact List.mem_cons_self)

theorem Ty.IsFactor.exists_union (ht : t.IsFactor h) (hunion : t.unionMembers? ≠ none) :
    ∃ alternatives, t = .union .plain alternatives := by
  cases t with
  | union flavor alternatives => exact ⟨alternatives, by rw [ht.plain flavor alternatives rfl]⟩
  | _ => exact absurd rfl hunion

theorem Ty.IsAlternative.isFactor (ht : t.IsAlternative h) : t.IsFactor h where
  proper := ht.proper
  distributed := by
    unfold Union.IsDistributed
    rw [Union.membersOf_of_flat ht.flat, List.forall_mem_singleton]
    exact ht.distributed
  plain := by
    rintro flavor members rfl
    cases ht.flat

namespace Union

/-- Of two of the types that are shapes with the same keys, one contains the other. -/
def ComparesShapes (h : Hierarchy) (P : Ty -> Prop) : Prop :=
  ∀ e f, P (.shape e) -> P (.shape f) -> (Shape.keys e).Perm (Shape.keys f) ->
    Contained h (.shape e) (.shape f) ∨ Contained h (.shape f) (.shape e)

theorem ComparesShapes.mono (hP : ComparesShapes h P) (hQ : ∀ p, Q p -> P p) : ComparesShapes h Q :=
  fun e f he hf => hP e f (hQ _ he) (hQ _ hf)

/-- What a type is as the union of some types that merges no shapes: the least type above
them, and of those that contain the same it keeps the last one. -/
structure IsSum (h : Hierarchy) (P : Ty -> Prop) (t : Ty) : Prop extends t.IsFactor h where
  pieces : ∀ p, P p -> p.IsAlternative h
  above : ∀ p, P p -> Contained h p t
  least : ∀ {w : Ty}, w.IsProper h -> IsDistributed w -> (∀ p, P p -> Contained h p w) ->
    Contained h t w
  last : ∀ a ∈ membersOf t, a.isScalar = false -> P a ∧ ∀ q, P q -> Contained h a q ->
    Contained h q a -> ¬ a.code < q.code

theorem IsSum.congr (ht : IsSum h P t) (hsame : ∀ p, P p ↔ Q p) : IsSum h Q t := by
  have heq : P = Q := funext fun p => propext (hsame p)
  exact heq ▸ ht

/-- A type is the union of its alternatives and of types below them. -/
theorem isSum_alternatives (hfinal : h.LeavesClosureFinal) (ht : t.IsFactor h)
    (halternatives : ∀ x ∈ membersOf t, P x)
    (hbelow : ∀ p, P p -> p.IsAlternative h ∧
      ∃ x ∈ membersOf t, Contained h p x ∧ (Contained h x p -> p = x)) : IsSum h P t where
  toIsFactor := ht
  pieces := fun p hp => (hbelow p hp).1
  above := by
    intro p hp
    rcases hbelow p hp with ⟨hp', x, hx, hpx, -⟩
    have hxt := Intersection.contained_of_mem_membersOf ht.proper.formed ht.proper.complete hx
    exact hpx.trans hfinal hp'.proper.formed.hasDistinctKeys hxt.2
  least := fun hw _ hall =>
    Subtype.contained_of_alternatives ht.proper hw fun x hx => hall x (halternatives x hx)
  last := by
    intro a ha _
    refine ⟨halternatives a ha, fun q hq haq _ hlt => ?_⟩
    rcases hbelow q hq with ⟨-, x, hx, hqx, hsame⟩
    have hakeys := (ht.proper.alternative ha).1.formed.hasDistinctKeys
    have hax := Subtype.eq_of_contained_alternatives ht.proper ha hx (haq.trans hfinal hakeys hqx)
    rw [hsame (hax ▸ haq), hax] at hlt
    exact List.lt_irrefl _ hlt

/-- If an alternative of a type above a union contains the same as one of the types in the
union, then so does an alternative of the union with no smaller code. -/
theorem IsSum.exists_alternative (hfinal : h.LeavesClosureFinal) (hs : IsSum h P s)
    (ht : t.IsProper h) (hst : Contained h s t) (ha : a ∈ membersOf t)
    (hscalar : a.isScalar = false) (hq : P q) (haq : Contained h a q) :
    ∃ b ∈ membersOf s, b.isScalar = false ∧ Contained h a b ∧ Contained h b a ∧
      ¬ b.code < q.code := by
  have hq' := hs.pieces q hq
  rcases ht.alternative ha with ⟨haproper, haflat⟩
  have hakeys := haproper.formed.hasDistinctKeys
  obtain ⟨b, hb, hqb⟩ :=
    (Subtype.contained_iff_alternative hq'.proper hq'.flat hs.proper).mp (hs.above q hq)
  have hb' := (hs.proper.alternative hb).1
  obtain ⟨a', ha', hba'⟩ := exists_alternative_of_contained hfinal hs.proper ht hst hb
  have hab := haq.trans hfinal hakeys hqb
  have hsame := Subtype.eq_of_contained_alternatives ht ha ha' (hab.trans hfinal hakeys hba')
  have hba : Contained h b a := hsame ▸ hba'
  have hbscalar : b.isScalar = false := by
    by_contra hnot
    rw [Bool.not_eq_false] at hnot
    rw [Subtype.eq_of_scalar hfinal hnot hb' haproper haflat hba hab, hscalar] at hnot
    cases hnot
  refine ⟨b, hb, hbscalar, hab, hba, (hs.last b hb hbscalar).2 q hq ?_ hqb⟩
  exact hba.trans hfinal hb'.formed.hasDistinctKeys haq

/-- There is one union of some types. -/
theorem IsSum.eq (hfinal : h.LeavesClosureFinal) (hs : IsSum h P s) (ht : IsSum h P t) : s = t := by
  have hst : Contained h s t := hs.least ht.proper ht.distributed ht.above
  have hts : Contained h t s := ht.least hs.proper hs.distributed hs.above
  have hperm := perm_membersOf hfinal hs.proper ht.proper hst hts fun x hx y hy hxy hyx => by
    rcases hs.proper.alternative hx with ⟨hxproper, hxflat⟩
    rcases ht.proper.alternative hy with ⟨hyproper, hyflat⟩
    refine Subtype.eq_of_codes hfinal hxproper hxflat hyproper hyflat hxy hyx
      fun hxscalar hyscalar => ?_
    rcases hs.last x hx hxscalar with ⟨hx', hxlast⟩
    rcases ht.last y hy hyscalar with ⟨hy', hylast⟩
    exact ⟨hxlast y hy' hxy hyx, hylast x hx' hyx hxy⟩
  refine eq_of_perm_membersOf hs.proper ht.proper hperm fun flavor flavor' members heq heq' => ?_
  rw [hs.plain _ _ heq, ht.plain _ _ heq']

/-!
# The union of several types
-/

section Parts

variable {ι : Type} {items : List ι} {part : ι -> Ty} {R : ι -> Ty -> Prop}

theorem isSum_of (hfinal : h.LeavesClosureFinal) (hmany : 2 ≤ items.length)
    (hparts : ∀ i ∈ items, IsSum h (R i) (part i))
    (hshapes : ComparesShapes h fun p => ∃ i ∈ items, R i p) :
    IsSum h (fun p => ∃ i ∈ items, R i p) ((of options (items.map part)).value (exact h)) := by
  have hlength : 2 ≤ (items.map part).length := by rwa [List.length_map]
  have hne : items.map part ≠ [] := List.ne_nil_of_length_pos (by omega)
  have hall : ∀ {T : Ty -> Prop}, (∀ i ∈ items, T (part i)) -> ∀ t ∈ items.map part, T t :=
    fun hT => List.forall_mem_map.mpr hT
  have hproper : ∀ t ∈ items.map part, t.IsProper h := hall fun i hi => (hparts i hi).proper
  have hmembers : ∀ a ∈ (items.map part).flatMap membersOf,
      ∃ i ∈ items, a ∈ membersOf (part i) := by
    intro a ha
    rw [List.flatMap_map] at ha
    exact List.mem_flatMap.mp ha
  have hold : ∀ e, Ty.shape e ∈ (items.map part).flatMap membersOf ->
      ∃ i ∈ items, R i (.shape e) := by
    intro e he
    rcases hmembers _ he with ⟨i, hi, hei⟩
    exact ⟨i, hi, ((hparts i hi).last _ hei rfl).1⟩
  have hjoinable : IsJoinable h (items.map part) :=
    ⟨hproper, hall fun i hi => (hparts i hi).distributed,
      Intersection.hasComparableShapes_of_contained fun e f he hf =>
        hshapes e f (hold e he) (hold f hf)⟩
  have hjoin : IsJoin h _ ((of options (items.map part)).value (exact h)) :=
    isJoin_of hfinal hne hjoinable
  have hlast : HasLast h (flavorOf (items.map part)) ((items.map part).flatMap membersOf)
      ((of options (items.map part)).value (exact h)) :=
    (meets_of_last hlength (fun t ht => (hproper t ht).formed) (fun t ht => (hproper t ht).noError)
      hjoinable.shapes).value fun _ _ _ => rfl
  generalize (of options (items.map part)).value (exact h) = t at hjoin hlast
  have hpart : ∀ i ∈ items, Contained h (part i) t := fun i hi =>
    hjoin.above _ (List.mem_map_of_mem hi)
  have hkeys : ∀ {s : Ty}, s.IsProper h -> Ty.Everywhere Ty.HasDistinctKeys s :=
    fun hs => hs.formed.hasDistinctKeys
  refine ⟨⟨hjoin.proper, hjoin.distributed, ?_⟩, ?_, ?_, ?_, ?_⟩
  · rintro flavor members rfl
    rw [hlast.flavor flavor members rfl]
    unfold flavorOf
    split
    · -- all parts would be `never`, and so would their union
      rename_i hbenevolent
      exfalso
      have hnever : ∀ i ∈ items, part i = .never := by
        intro i hi
        have hkeeps := List.all_eq_true.mp hbenevolent (part i) (List.mem_map_of_mem hi)
        have hplain := (hparts i hi).plain
        generalize part i = u at hkeeps hplain
        cases u with
        | union flavor others =>
            rw [hplain flavor others rfl] at hkeeps
            cases hkeeps
        | _ => exact beq_iff_eq.mp hkeeps
      have hbottom := Ty.isAlternative_keyword (h := h) .never
      have hbelow : Contained h (.union flavor members) .never :=
        hjoin.least hbottom.proper hbottom.isFactor.distributed
          (hall fun i hi => hnever i hi ▸ .refl _)
      cases Subtype.eq_never_of_contained hbelow
    · rfl
  · rintro p ⟨i, hi, hp⟩
    exact (hparts i hi).pieces p hp
  · rintro p ⟨i, hi, hp⟩
    have hproper := ((hparts i hi).pieces p hp).proper
    exact ((hparts i hi).above p hp).trans hfinal (hkeys hproper) (hpart i hi)
  · intro w hw hdistributed hbelow
    exact hjoin.least hw hdistributed (hall fun i hi =>
      (hparts i hi).least hw hdistributed fun p hp => hbelow p ⟨i, hi, hp⟩)
  · intro a ha hscalar
    rcases hlast.last a ha hscalar with ⟨hmem, hgreatest⟩
    rcases hmembers a hmem with ⟨i, hi, hai⟩
    refine ⟨⟨i, hi, ((hparts i hi).last a hai hscalar).1⟩, ?_⟩
    rintro q ⟨j, hj, hq⟩ haq _
    obtain ⟨b, hb, hbscalar, hab, hba, hle⟩ :=
      (hparts j hj).exists_alternative hfinal hjoin.proper (hpart j hj) ha hscalar hq haq
    have hmem' : b ∈ (items.map part).flatMap membersOf := by
      rw [List.flatMap_map]
      exact List.mem_flatMap.mpr ⟨j, hj, hb⟩
    exact List.not_lt.mpr (List.le_trans (List.not_lt.mp hle)
      (List.not_lt.mp (hgreatest b hmem' hbscalar hab hba)))

end Parts

end Union

end GradualTypes
