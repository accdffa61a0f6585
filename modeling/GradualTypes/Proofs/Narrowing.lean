import GradualTypes.Proofs.Products

/-!
# Intersections that are the narrower type

The members of an alternative stay when they are reduced with those of a wider one, and the
other ones give way to them: each of these contains a member of the narrower alternative.  It
is assumed that no two members are found to share no value, and that a member of the wider
alternative which contains the same as one of the narrower does not come first.

The intersection of two types is the union of such pieces, and if one of the types is below
the other one, the pieces are its alternatives and types below them.
-/

namespace GradualTypes
namespace Intersection

open Inquiry
open GradualTypes.Subtype (Certain Contained contained_iff exact)
open GradualTypes.Ty (Formed IsAlternative)
open GradualTypes.Union (ComparesShapes HasOneShapePerKeys IsSum)

variable {h : Hierarchy} {options : Options} {R : Ty -> Ty -> Prop}
  {members kept incoming processed : List Ty} {a b c m n s t u x y : Ty}

/-!
# Reductions in which some members oust others
-/

/-- Of two members that meet in this order one ousts the other one, or both stay. -/
inductive IsOusting (h : Hierarchy) (R : Ty -> Ty -> Prop) (s t : Ty) : Prop where
  | keep : R s t -> (meet s t).value (exact h) = .keep -> IsOusting h R s t
  | replace : R t s -> (meet s t).value (exact h) = .replace -> IsOusting h R s t
  | both : ¬ R s t -> ¬ R t s -> (meet s t).value (exact h) = .both -> IsOusting h R s t

section Ousting

variable (hR : ∀ s t u, R s t -> ¬ R t u)
include hR

/-- A member that is not ousted by any of the kept ones is added to those it does not oust. -/
theorem value_narrow_of_ousting (passed : List Ty) (hkept : ∀ k ∈ kept, IsOusting h R k t) :
    ∃ result, (narrow passed t kept).value (exact h) = some result ∧ ∀ u, u ∈ result ↔
      u ∈ passed ∨ (u ∈ kept ∧ ¬ R t u) ∨ (u = t ∧ ∀ k ∈ kept, ¬ R k t) := by
  induction kept generalizing passed with
  | nil => exact ⟨passed ++ [t], by simp [narrow], by simp⟩
  | cons k rest ih =>
      rw [List.forall_mem_cons] at hkept
      rw [narrow, value_bind]
      cases hkept.1 with
      | keep hkt hmeet =>
          rw [hmeet]
          refine ⟨passed ++ k :: rest, rfl, fun u => ?_⟩
          have hnone : ∀ u, ¬ R t u := fun u => hR k t u hkt
          simp [hkt, hnone]
      | replace htk hmeet =>
          rw [hmeet]
          obtain ⟨result, hresult, hmem⟩ := ih passed hkept.2
          refine ⟨result, hresult, fun u => ?_⟩
          have hkt : ¬ R k t := hR t k t htk
          rw [hmem u, List.forall_mem_cons, and_iff_right hkt, List.mem_cons, or_and_right]
          have hfirst : ¬ (u = k ∧ ¬ R t u) := fun hu => hu.2 (hu.1 ▸ htk)
          rw [or_iff_right hfirst]
      | both hkt htk hmeet =>
          rw [hmeet]
          obtain ⟨result, hresult, hmem⟩ := ih (passed ++ [k]) hkept.2
          refine ⟨result, hresult, fun u => ?_⟩
          have hfirst : (u = k ∧ ¬ R t u) ↔ u = k := and_iff_left_of_imp fun hu => hu ▸ htk
          rw [hmem u, List.forall_mem_cons, and_iff_right hkt, List.mem_cons, or_and_right, hfirst,
            List.mem_append, List.mem_singleton, or_assoc, or_assoc]

/-- The members that are left are those that no other one ousts. -/
theorem value_narrowAll_of_ousting (hall : (processed ++ incoming).Pairwise (IsOusting h R))
    (hkept : ∀ u, u ∈ kept ↔ u ∈ processed ∧ ∀ m ∈ processed, ¬ R m u) :
    ∃ result, (narrowAll kept incoming).value (exact h) = some result ∧ ∀ u, u ∈ result ↔
      u ∈ processed ++ incoming ∧ ∀ m ∈ processed ++ incoming, ¬ R m u := by
  induction incoming generalizing kept processed with
  | nil =>
      rw [List.append_nil]
      exact ⟨kept, by simp [narrowAll], hkept⟩
  | cons t rest ih =>
      have hearlier : ∀ k ∈ kept, IsOusting h R k t := fun k hk =>
        (List.pairwise_append.mp hall).2.2 k ((hkept k).mp hk).1 t List.mem_cons_self
      obtain ⟨next, hnext, hmem⟩ := value_narrow_of_ousting hR [] hearlier
      rw [narrowAll, value_bind, hnext]
      show ∃ result, (narrowAll next rest).value (exact h) = _ ∧ _
      have happend : processed ++ [t] ++ rest = processed ++ t :: rest := by simp
      rw [← happend] at hall ⊢
      refine ih hall fun u => ?_
      -- a member that ousts another one is not ousted itself, so it is among those kept
      have hself : ¬ R t t := fun htt => hR t t t htt htt
      have hall' : (∀ k ∈ kept, ¬ R k t) ↔ ∀ m ∈ processed, ¬ R m t := by
        refine ⟨fun hnone m hm hmt => ?_, fun hnone k hk => hnone k ((hkept k).mp hk).1⟩
        exact hnone m ((hkept m).mpr ⟨hm, fun l _ hlm => hR l m t hlm hmt⟩) hmt
      rw [hmem u, hkept u, hall', List.mem_append, List.mem_singleton, List.forall_mem_append,
        List.forall_mem_singleton]
      constructor
      · rintro (hu | ⟨⟨hu, hnone⟩, htu⟩ | ⟨rfl, hnone⟩)
        · cases hu
        · exact ⟨Or.inl hu, hnone, htu⟩
        · exact ⟨Or.inr rfl, hnone, hself⟩
      · rintro ⟨hu | rfl, hnone, htu⟩
        · exact Or.inr (Or.inl ⟨⟨hu, hnone⟩, htu⟩)
        · exact Or.inr (Or.inr ⟨rfl, hnone⟩)

end Ousting

/-!
# Alternatives of which one is below the other
-/

/-- What two members of related alternatives need so that the one of the narrower alternative
stays: they are not found to share no value, and if they contain the same, that one comes
first. -/
def Prefers (h : Hierarchy) (m n : Ty) : Prop :=
  ¬ (exact h m n = .no ∧ exact h n m = .no) ∧
    (Contained h m n -> Contained h n m -> ¬ n.code < m.code)

/-- A member of the first alternative ousts a member of another one that contains it. -/
def Displaces (h : Hierarchy) (x m n : Ty) : Prop :=
  m ∈ membersOf x ∧ n ∉ membersOf x ∧ Contained h m n

theorem value_meet_keep (hst : Contained h s t) : (meet s t).value (exact h) = .keep := by
  have hyes : exact h s t = .yes := hst
  rw [meet, value_bind, Subtype.value_isContained, if_pos hyes, value_pure]

theorem value_meet_replace (hst : ¬ Contained h s t) (hts : Contained h t s) :
    (meet s t).value (exact h) = .replace := by
  have hno : ¬ exact h s t = .yes := hst
  have hyes : exact h t s = .yes := hts
  rw [meet, value_bind, Subtype.value_isContained, if_neg hno, value_bind,
    Subtype.value_isContained, if_pos hyes, value_pure]

theorem independent_members (hx : x.IsAlternative h) (hm : m ∈ membersOf x)
    (hn : n ∈ membersOf x) (hne : m ≠ n) : Independent (Session.exactly h) m n := by
  cases x with
  | inter others => exact hx.proper.formed.here.independent.forall hm hn hne
  | _ => exact absurd ((List.mem_singleton.mp hm).trans (List.mem_singleton.mp hn).symm) hne

theorem eq_of_contained_members (hx : x.IsAlternative h) (hm : m ∈ membersOf x)
    (hn : n ∈ membersOf x) (hmn : Contained h m n) : m = n := by
  by_contra hne
  exact not_independent hmn (independent_members hx hm hn hne)

/-- What cannot be a member of an intersection is brought in by itself only. -/
theorem eq_of_not_isMember (ht : t.IsProper h) (hm : m ∈ membersOf t) (hnot : ¬ IsMember m) :
    t = m := by
  cases t with
  | inter others => exact absurd (ht.formed.here.isMember m hm) hnot
  | _ => exact (List.mem_singleton.mp hm).symm

theorem not_isMember_mixed : ¬ IsMember .mixed := fun hmember => hmember.2.1 rfl

theorem not_isMember_never : ¬ IsMember .never := fun hmember => hmember.2.2.1 rfl

theorem nodup_members (hx : x.IsAlternative h) : (membersOf x).Nodup := by
  cases x with
  | inter others => exact nodup_of_inter hx.proper
  | _ => exact List.nodup_singleton _

/-- Each member of a wider alternative contains one of the narrower alternative. -/
theorem exists_member_below (hfinal : h.LeavesClosureFinal) (hx : x.IsAlternative h)
    (hc : c.IsAlternative h) (hbelow : Contained h x c) (hn : n ∈ membersOf c)
    (hmixed : n ≠ .mixed) (hnever : n ≠ .never) : ∃ m ∈ membersOf x, Contained h m n := by
  have hxn := (hx.contained_iff_members hfinal hc).mp hbelow n hn
  rcases hc.member hn with ⟨hproper, hsimple⟩
  have hordinary := hproper.isOrdinary hmixed hnever
  cases x with
  | inter others =>
      rcases contained_iff.mp hxn with rfl | hcertain
      · cases hsimple
      · rcases hcertain.cases_of_simple_target Subtype.isOrdinary_inter rfl hordinary hsimple with
          ⟨others', heq, hm⟩ | hfits
        · cases heq
          exact hm
        · cases hfits
  | _ => exact ⟨_, List.mem_cons_self, hxn⟩

theorem sorted_of_prepare (hprepare : prepare members = .inr kept) :
    kept.Pairwise fun s t => s.code < t.code :=
  (Ty.pairwise_distinct (members.flatMap membersOf)).sublist (sublist_of_settle hprepare)

section Below

variable (hfinal : h.LeavesClosureFinal) (hx : x.IsAlternative h) (hc : c.IsAlternative h)
  (hbelow : Contained h x c)
  (hprefers : ∀ m ∈ membersOf x, ∀ n ∈ membersOf c, Prefers h m n)
include hfinal hx hc hbelow hprefers

/-- Members of related alternatives that contain neither one another are independent. -/
theorem independent_of_not_contained (hm : m ∈ membersOf x) (hn : n ∈ membersOf c)
    (hopen : IsOpen n) (hmn : ¬ Contained h m n) (hnm : ¬ Contained h n m) :
    Independent (Session.exactly h) m n := by
  obtain ⟨m', hm', hbelow'⟩ := exists_member_below hfinal hx hc hbelow hn hopen.2.1 hopen.2.2
  have hindependent := independent_members hx hm hm' fun heq => hmn (heq ▸ hbelow')
  refine ⟨?_, _, _, rfl, rfl, hmn, hnm, (hprefers m hm n hn).1⟩
  -- an interval is not independent of the other members of an intersection
  left
  by_contra hrange
  cases x with
  | inter others =>
      cases m with
      | range r =>
          exact Subtype.not_independent_of_isDiscrete (.range r) (hx.isOrdinary_member hm')
            (hx.member hm').2 hindependent
      | _ => exact hrange rfl
  | _ =>
      rw [List.mem_singleton.mp hm, List.mem_singleton.mp hm'] at hindependent
      exact not_independent (.refl _) hindependent

/-- A member of the narrower alternative displaces those of the wider one that contain it, and
apart from this all members stay. -/
theorem isOusting_of_below (hs : s ∈ membersOf x ∨ s ∈ membersOf c)
    (ht : t ∈ membersOf x ∨ t ∈ membersOf c) (hsopen : IsOpen s) (htopen : IsOpen t)
    (horder : s.code < t.code) : IsOusting h (Displaces h x) s t := by
  have hne : s ≠ t := fun heq => List.lt_irrefl _ (heq ▸ horder)
  -- a member of the wider alternative below one of the narrower contains it
  have hback : ∀ {m n : Ty}, m ∈ membersOf x -> n ∈ membersOf c -> IsOpen n ->
      Contained h n m -> Contained h m n := by
    intro m n hm hn hopen hnm
    obtain ⟨m', hm', hbelow'⟩ := exists_member_below hfinal hx hc hbelow hn hopen.2.1 hopen.2.2
    have hkeys := (hx.member hm').1.formed.hasDistinctKeys
    have heq := eq_of_contained_members hx hm' hm (hbelow'.trans hfinal hkeys hnm)
    exact heq ▸ hbelow'
  by_cases hsx : s ∈ membersOf x <;> by_cases htx : t ∈ membersOf x
  · have hindependent := independent_members hx hsx htx hne
    exact .both (fun hst => hst.2.1 htx) (fun hts => hts.2.1 hsx)
      (value_meet_of_independent hindependent)
  · have htc := ht.resolve_left htx
    have hts : ¬ Displaces h x t s := fun hts => htx hts.1
    by_cases hst : Contained h s t
    · exact .keep ⟨hsx, htx, hst⟩ (value_meet_keep hst)
    · have hindependent := independent_of_not_contained hfinal hx hc hbelow hprefers hsx htc htopen
        hst fun hts => hst (hback hsx htc htopen hts)
      exact .both (fun hst' => hst hst'.2.2) hts (value_meet_of_independent hindependent)
  · have hsc := hs.resolve_left hsx
    have hst : ¬ Displaces h x s t := fun hst => hsx hst.1
    by_cases hts : Contained h t s
    · have hst' : ¬ Contained h s t := fun hst' => (hprefers t htx s hsc).2 hts hst' horder
      exact .replace ⟨htx, hsx, hts⟩ (value_meet_replace hst' hts)
    · have hindependent := independent_of_not_contained hfinal hx hc hbelow hprefers htx hsc hsopen
        hts fun hst' => hts (hback htx hsc hsopen hst')
      exact .both hst (fun hts' => hts hts'.2.2) (value_meet_of_independent hindependent.symm)
  · have hindependent := independent_members hc (hs.resolve_left hsx) (ht.resolve_left htx) hne
    exact .both (fun hst => hsx hst.1) (fun hts => htx hts.1)
      (value_meet_of_independent hindependent)

omit hfinal hc hbelow hprefers in
theorem value_close_members (hperm : members.Perm (membersOf x)) :
    (close members).value (exact h) = x := by
  rcases Ty.union_or_inter_or_simple x with ⟨flavor, others, rfl⟩ | ⟨others, rfl⟩ | hsimple
  · cases hx.flat
  · exact value_close_of_perm hx.proper hperm
  · rw [membersOf_of_isSimple hsimple] at hperm
    rw [List.perm_singleton.mp hperm]
    rfl

omit hfinal hprefers in
theorem eq_of_settled_below (hprepare : prepare [x, c] = .inl t) : t = x := by
  have hflat : ∀ u, u ∈ [x, c].flatMap membersOf ↔ u ∈ membersOf x ∨ u ∈ membersOf c := by simp
  have hmembers : ∀ u ∈ membersOf x, u ∈ [x, c].flatMap membersOf := fun u hu =>
    (hflat u).mpr (Or.inl hu)
  cases prepares_of_eq hprepare with
  | error herror => exact absurd rfl (isSimple_flat (isAlternative_pair hx hc) herror).1.noError
  | never herror hnever =>
      rcases (hflat _).mp hnever with hmem | hmem
      · exact (eq_of_not_isMember hx.proper hmem not_isMember_never).symm
      · have hc' := eq_of_not_isMember hc.proper hmem not_isMember_never
        exact (Subtype.eq_never_of_contained (hc' ▸ hbelow)).symm
  | mixed hmixed =>
      have hall : ∀ u ∈ membersOf x, u = .mixed ∨ u = .mixed :=
        fun u hu => Or.inl (hmixed u (hmembers u hu))
      exact (or_self_iff.mp (eq_of_membersOf hx.proper.formed hall)).symm
  | single ht hopen hothers =>
      rcases eq_of_membersOf hx.proper.formed fun u hu => hothers u (hmembers u hu) with rfl | rfl
      · rw [hflat, Subtype.eq_mixed_of_contained hbelow, or_self] at ht
        exact absurd (List.mem_singleton.mp ht) hopen.2.1
      · rfl

/-- Of related alternatives that are compared the members of the narrower one are left. -/
theorem value_reduce_of_below (hprepare : prepare [x, c] = .inr kept) :
    (reduce kept).value (exact h) = x := by
  have hflat : ∀ u, u ∈ [x, c].flatMap membersOf ↔ u ∈ membersOf x ∨ u ∈ membersOf c := by simp
  have hformed : ∀ t ∈ [x, c], Formed (Session.exactly h) t := by
    rw [List.forall_mem_cons, List.forall_mem_singleton]
    exact ⟨hx.proper.formed, hc.proper.formed⟩
  have hready := prepare_spec hformed
  rw [hprepare] at hready
  have hsorted := sorted_of_prepare hprepare
  cases prepares_of_eq hprepare with
  | several htwo hnodup hopen hmem =>
      have hall : ([] ++ kept).Pairwise (IsOusting h (Displaces h x)) := by
        refine hsorted.imp_of_mem fun {s t} hs ht horder => ?_
        exact isOusting_of_below hfinal hx hc hbelow hprefers ((hflat s).mp ((hmem s).mp hs).1)
          ((hflat t).mp ((hmem t).mp ht).1) (hopen s hs) (hopen t ht) horder
      have hstart : ∀ u, u ∈ ([] : List Ty) ↔
          u ∈ ([] : List Ty) ∧ ∀ m ∈ ([] : List Ty), ¬ Displaces h x m u := by simp
      obtain ⟨result, hresult, hleft⟩ := value_narrowAll_of_ousting
        (fun s t u hst htu => hst.2.1 htu.1) hall hstart
      have hxkept : ∀ u ∈ membersOf x, u ∈ kept := by
        intro u hu
        refine (hmem u).mpr ⟨(hflat u).mpr (Or.inl hu), ?_⟩
        rintro rfl
        obtain ⟨k, hk⟩ := List.exists_mem_of_length_pos (show 0 < kept.length by omega)
        have hk' := (hflat k).mp ((hmem k).mp hk).1
        rw [eq_of_not_isMember hx.proper hu not_isMember_mixed] at hk' hbelow
        rw [Subtype.eq_mixed_of_contained hbelow, or_self] at hk'
        exact (hopen k hk).2.1 (List.mem_singleton.mp hk')
      have hnodup' : result.Nodup := by
        have hempty : IsReduced (Session.exactly h) [] := ⟨by simp [AreReady], List.Pairwise.nil⟩
        have hreduced : ∀ left, (narrowAll [] kept).value (exact h) = some left ->
            left ≠ [] ∧ IsReduced (Session.exactly h) left :=
          (meets_narrowAll hempty hready.2 (Or.inr hready.1)).value fun _ _ _ => rfl
        refine (hreduced result hresult).2.independent.imp fun {a b} hindependent heq => ?_
        exact not_independent (heq ▸ .refl a) hindependent
      have hmem' : ∀ u, u ∈ result ↔ u ∈ membersOf x := by
        intro u
        rw [hleft u, List.nil_append]
        refine ⟨fun hu => ?_, fun hu => ⟨hxkept u hu, fun m _ hmu => hmu.2.1 hu⟩⟩
        by_contra hux
        rcases hopen u hu.1 with ⟨-, hmixed, hnever⟩
        have huc := ((hflat u).mp ((hmem u).mp hu.1).1).resolve_left hux
        obtain ⟨m, hm, hmu⟩ := exists_member_below hfinal hx hc hbelow huc hmixed hnever
        exact hu.2 m (hxkept m hm) ⟨hm, hux, hmu⟩
      rw [reduce, value_bind, value_bind, hresult]
      exact value_close_members hx ((List.perm_ext_iff_of_nodup hnodup' (nodup_members hx)).mpr hmem')

/-- What two related alternatives have in common is the narrower one. -/
theorem common_of_below : common h options x c = x := by
  rw [common_eq hx hc]
  split
  · rename_i t hprepare
    exact eq_of_settled_below hx hc hbelow hprepare
  · rename_i kept hprepare
    exact value_reduce_of_below hfinal hx hc hbelow hprefers hprepare

end Below

/-!
# Related types
-/

/-- Two alternatives have a member or a scalar type in common, or an intersection. -/
theorem common_cases (hx : x.IsAlternative h) (hc : c.IsAlternative h) :
    (common h options x c ∈ membersOf x ∨ common h options x c ∈ membersOf c) ∨
      (common h options x c).isScalar = true ∨ ∃ left, common h options x c = .inter left := by
  have hflat : ∀ {u}, u ∈ [x, c].flatMap membersOf -> u ∈ membersOf x ∨ u ∈ membersOf c := by simp
  rw [common_eq hx hc]
  split
  · rename_i t hprepare
    cases prepares_of_eq hprepare with
    | error herror => exact absurd rfl (isSimple_flat (isAlternative_pair hx hc) herror).1.noError
    | never herror hnever => exact Or.inl (hflat hnever)
    | mixed hmixed => exact Or.inr (Or.inl rfl)
    | single ht hopen hothers => exact Or.inl (hflat ht)
  · rename_i kept hprepare
    have hfrom := (meets_reduce_from (Session.exactly h) kept).value fun _ _ _ => rfl
    cases prepares_of_eq hprepare with
    | several htwo hnodup hopen hmem =>
        rcases hfrom with (hkept | hscalar) | ⟨left, heq, -⟩
        · exact Or.inl (hflat ((hmem _).mp hkept).1)
        · exact Or.inr (Or.inl hscalar)
        · exact Or.inr (Or.inr ⟨left, heq⟩)

/-- An alternative below one of its members is that member. -/
theorem eq_of_member_contained (hfinal : h.LeavesClosureFinal) (hx : x.IsAlternative h)
    (hm : m ∈ membersOf x) (hmx : Contained h m x) : x = m := by
  have hflat := Ty.unionMembers?_of_isSimple (hx.member hm).2
  have hm' : m.IsAlternative h :=
    ⟨(hx.member hm).1, hflat, isDistributed_of_isSimple (hx.member hm).2⟩
  have hall : ∀ n ∈ membersOf x, n = m := fun n hn =>
    (eq_of_contained_members hx hm hn ((hm'.contained_iff_members hfinal hx).mp hmx n hn)).symm
  rcases eq_of_membersOf hx.proper.formed fun n hn => Or.inr (hall n hn) with rfl | rfl
  · exact hall _ List.mem_cons_self
  · rfl

/-- What the alternatives of two related types need so that those of the narrower type
stay. -/
def PrefersNarrower (h : Hierarchy) (a b : Ty) : Prop :=
  ∀ x ∈ Union.membersOf a, ∀ y ∈ Union.membersOf b, Contained h x y ->
    ∀ m ∈ membersOf x, ∀ n ∈ membersOf y, Prefers h m n

section Related

variable (hfinal : h.LeavesClosureFinal) (hlimit : 0 < options.maxIntersectionDistribution)
  (ha : a.IsFactor h) (hb : b.IsFactor h) (hab : Contained h a b)
  (hprefers : PrefersNarrower h a b)
include hfinal ha hb hprefers

theorem common_of_alternatives (hx : x ∈ Union.membersOf a) (hy : y ∈ Union.membersOf b)
    (hxy : Contained h x y) : common h options x y = x :=
  common_of_below hfinal (ha.isAlternative hx) (hb.isAlternative hy) hxy (hprefers x hx y hy hxy)

include hlimit hab

/-- The pieces of related types that are shapes are alternatives of the narrower one. -/
theorem IsCross.mem_of_shape {e : List (Entry Ty)} (he : IsCross h options a b (.shape e)) :
    .shape e ∈ Union.membersOf a := by
  obtain ⟨x, hx, y, hy, heq⟩ := he
  have hx' := ha.isAlternative hx
  have hy' := hb.isAlternative hy
  have hbelow := common_below hx' hy' hfinal hlimit
  have hcases : (common h options x y ∈ membersOf x ∨ common h options x y ∈ membersOf y) ∨ _ :=
    common_cases hx' hy'
  rw [← heq] at hbelow hcases
  rcases hcases with (hmem | hmem) | hscalar | ⟨left, hleft⟩
  · rwa [← eq_of_member_contained hfinal hx' hmem hbelow.1]
  · -- the alternative of the wider type is below one that contains the narrower one
    obtain rfl := eq_of_member_contained hfinal hy' hmem hbelow.2
    obtain ⟨y', hy', hxy'⟩ := Union.exists_alternative_of_contained hfinal ha.proper hb.proper hab hx
    have hkeys := (hb.isAlternative hy).proper.formed.hasDistinctKeys
    have hsame := Subtype.eq_of_contained_alternatives hb.proper hy hy'
      (hbelow.1.trans hfinal hkeys hxy')
    rw [← hsame] at hxy'
    rw [heq, common_of_alternatives hfinal ha hb hprefers hx hy hxy']
    exact hx
  · cases hscalar
  · cases hleft

theorem common_of_limit_pos (hfew : HasFewPieces options [a, b])
    (hshapes : HasOneShapePerKeys (Union.membersOf a)) : common h options a b = a := by
  have hcompares : ComparesShapes h (IsCross h options a b) := by
    intro e f he hf hkeys
    have hmem := fun {e} => IsCross.mem_of_shape (e := e) hfinal hlimit ha hb hab hprefers
    rw [hshapes e f (hmem he) (hmem hf) hkeys]
    exact Or.inl (.refl _)
  have hnarrower : IsSum h (IsCross h options a b) a := by
    refine isSum_of_subset hfinal hlimit ha hb (fun x hx => ?_) fun x hx y hy hbelow => ?_
    · obtain ⟨y, hy, hxy⟩ :=
        Union.exists_alternative_of_contained hfinal ha.proper hb.proper hab hx
      exact ⟨y, hy, common_of_alternatives hfinal ha hb hprefers hx hy hxy⟩
    · have hx' := ha.isAlternative hx
      have hcommon := (common_below hx' (hb.isAlternative hy) hfinal hlimit).2
      exact common_of_alternatives hfinal ha hb hprefers hx hy
        (hbelow.trans hfinal hx'.proper.formed.hasDistinctKeys hcommon)
  exact (isSum_common hfinal hlimit ha hb hfew hcompares).eq hfinal hnarrower

end Related

/-- What two related types have in common is the narrower one. -/
theorem common_of_narrower (hfinal : h.LeavesClosureFinal) (ha : a.IsFactor h) (hb : b.IsFactor h)
    (hab : Contained h a b) (hprefers : PrefersNarrower h a b) (hfew : HasFewPieces options [a, b])
    (hshapes : HasOneShapePerKeys (Union.membersOf a)) : common h options a b = a := by
  by_cases hlimit : 0 < options.maxIntersectionDistribution
  · exact common_of_limit_pos hfinal hlimit ha hb hab hprefers hfew hshapes
  · -- then there is nothing to compare, and the limit does not matter
    have hformed : ∀ t ∈ [a, b], Formed (Session.exactly h) t := by
      rw [List.forall_mem_cons, List.forall_mem_singleton]
      exact ⟨ha.proper.formed, hb.proper.formed⟩
    have hready := prepare_spec hformed
    cases hprepare : prepare [a, b] with
    | inl t =>
        have hany : ∀ options : Options, common h options a b = t := fun options =>
          common_of_prepare hprepare
        have hdefault : HasFewPieces .default [a, b] := fun kept hkept => by simp [hprepare] at hkept
        rw [hany options, ← hany .default]
        exact common_of_limit_pos hfinal (by decide) ha hb hab hprefers hdefault hshapes
    | inr kept =>
        rw [hprepare] at hready
        have hone : pieces [] ≤ pieces kept :=
          pieces_le List.nodup_nil (by simp) fun t ht => one_le_width (hready.2 t ht).1
        exact absurd (Nat.lt_of_lt_of_le Nat.one_pos (Nat.le_trans hone (hfew kept hprepare))) hlimit

/-!
# A type and itself
-/

/-- An intersection with a union among its members has too many pieces to be distributed. -/
def IsSettled (options : Options) (t : Ty) : Prop :=
  ∀ others, t = .inter others -> (∃ flavor alternatives, .union flavor alternatives ∈ others) ->
    options.maxIntersectionDistribution < pieces others

/-- A type has itself in common with itself. -/
theorem common_self (ha : a.IsProper h) (hsettled : IsSettled options a) :
    common h options a a = a := by
  have hflat : ∀ u, u ∈ [a, a].flatMap membersOf ↔ u ∈ membersOf a := by simp
  cases hprepare : prepare [a, a] with
  | inl t =>
      rw [common_of_prepare hprepare]
      cases prepares_of_eq hprepare with
      | error herror =>
          exact (eq_of_not_isMember ha ((hflat _).mp herror) fun hmember => hmember.1 rfl).symm
      | never herror hnever =>
          exact (eq_of_not_isMember ha ((hflat _).mp hnever) not_isMember_never).symm
      | mixed hmixed =>
          have hall : ∀ u ∈ membersOf a, u = .mixed ∨ u = .mixed :=
            fun u hu => Or.inl (hmixed u ((hflat u).mpr hu))
          exact (or_self_iff.mp (eq_of_membersOf ha.formed hall)).symm
      | single ht hopen hothers =>
          rcases eq_of_membersOf ha.formed fun u hu => hothers u ((hflat u).mpr hu) with rfl | rfl
          · exact absurd (List.mem_singleton.mp ((hflat t).mp ht)) hopen.2.1
          · rfl
  | inr kept =>
      cases prepares_of_eq hprepare with
      | several htwo hnodup hopen hmem =>
          by_cases hinter : ∃ others, a = .inter others
          · obtain ⟨others, rfl⟩ := hinter
            have hmixed : ∀ u ∈ others, u ≠ .mixed := fun u hu =>
              (ha.formed.here.isMember u hu).2.1
            have hperm : kept.Perm others :=
              (List.perm_ext_iff_of_nodup hnodup (nodup_of_inter ha)).mpr fun u =>
                ((hmem u).trans (and_congr_left' (hflat u))).trans (and_iff_left_of_imp (hmixed u))
            have hcompared : toDistribute? options.maxIntersectionDistribution kept = none := by
              rw [Option.eq_none_iff_forall_ne_some]
              rintro ⟨flavor, alternatives, rest⟩ hsome
              have hunion := (mem_of_firstUnion? (firstUnion?_of_toDistribute? hsome)).1
              have hmany := hsettled others rfl ⟨flavor, alternatives, hperm.mem_iff.mp hunion⟩
              rw [← pieces_perm hperm] at hmany
              rw [toDistribute?, if_pos hmany] at hsome
              cases hsome
            rw [common, of_compared (by simp) (by simp) hprepare hcompared]
            exact value_reduce_of_perm ha hperm
          · -- there is only one type to keep
            exfalso
            have hself : membersOf a = [a] := by
              cases a with
              | inter others => exact absurd ⟨others, rfl⟩ hinter
              | _ => rfl
            have hsubset : kept ⊆ [a] := fun u hu => by
              rw [← hself]
              exact (hflat u).mp ((hmem u).mp hu).1
            have hle := (List.subperm_of_subset hnodup hsubset).length_le
            simp only [List.length_singleton] at hle
            omega

end Intersection
end GradualTypes
