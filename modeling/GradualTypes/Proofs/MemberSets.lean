import GradualTypes.Proofs.Distributivity
import GradualTypes.Proofs.Expressions

/-!
# Members as a set

The members of a union or an intersection are put in order and each is kept once, before any two of
them are compared.  The flavor of a union depends on which members there are, and so does the height
up to which shapes are merged.  So constructors that are given the same members, in whatever order
and however often, go on in the same way from the start: they ask the same questions, announce the
same types and return the same type.

A single member is returned as it is and is not taken for a list of two equal members, from which a
union loses its flavor.
-/

namespace GradualTypes

open Inquiry
open GradualTypes.Subtype (exact)

variable {xs ys : List Ty} {a : Arrangement} {options : Options}

namespace Ty

theorem heights_le_of_subset (hsubset : ∀ t ∈ xs, t ∈ ys) : heights xs ≤ heights ys :=
  heights_le_iff.mpr fun t ht => height_le_heights (hsubset t ht)

theorem heights_congr (hsame : ∀ t, t ∈ xs ↔ t ∈ ys) : heights xs = heights ys :=
  Nat.le_antisymm (heights_le_of_subset fun t => (hsame t).mp)
    (heights_le_of_subset fun t => (hsame t).mpr)

end Ty

/-- An arrangement for which only the set of types counts. -/
def Arrangement.IsSteady (a : Arrangement) : Prop :=
  ∀ {ts us : List Ty}, (∀ t, t ∈ ts ↔ t ∈ us) -> a.arrange ts = a.arrange us

theorem Arrangement.isSteady_byCode : IsSteady .byCode :=
  Ty.distinct_congr

theorem Arrangement.isSteady_byRank (rank : Ty -> Nat) : IsSteady (.byRank rank) := by
  intro ts us hsame
  exact congrArg (List.mergeSort · fun s t => decide (rank s ≤ rank t)) (Ty.distinct_congr hsame)

theorem mem_flatMap_congr {f : Ty -> List Ty} (hsame : ∀ t, t ∈ xs ↔ t ∈ ys) (u : Ty) :
    u ∈ xs.flatMap f ↔ u ∈ ys.flatMap f := by
  simp only [List.mem_flatMap, hsame]

section Congr

variable (hsteady : a.IsSteady) (hsame : ∀ t, t ∈ xs ↔ t ∈ ys)

theorem Union.flavorOf_congr (hsame : ∀ t, t ∈ xs ↔ t ∈ ys) : flavorOf xs = flavorOf ys := by
  have hall : xs.all keepsBenevolence = ys.all keepsBenevolence := by
    rw [Bool.eq_iff_iff, List.all_eq_true, List.all_eq_true]
    simp only [hsame]
  unfold flavorOf
  rw [hall]

variable (hmany : 2 ≤ xs.length) (hmany' : 2 ≤ ys.length)
include hsteady hsame hmany hmany'

theorem Union.upToBy_congr (limit height : Nat) :
    upToBy a limit height xs = upToBy a limit height ys := by
  match xs, ys, hmany, hmany' with
  | x :: x' :: xs, y :: y' :: ys, _, _ =>
      cases height with
      | zero => rfl
      | succ height =>
          show settle limit _ (flavorOf (x :: x' :: xs)) (a.arrange _) = settle limit _ _ _
          rw [flavorOf_congr hsame, hsteady (mem_flatMap_congr hsame)]

theorem Union.ofBy_congr : ofBy a options xs = ofBy a options ys := by
  unfold ofBy
  rw [Ty.heights_congr hsame, upToBy_congr hsteady hsame hmany hmany']

theorem Intersection.ofBy_congr : ofBy a options xs = ofBy a options ys := by
  have hprepare : prepareBy a xs = prepareBy a ys :=
    congrArg settle (hsteady (mem_flatMap_congr hsame))
  cases hresult : prepareBy a xs with
  | inl t => rw [ofBy_settled hmany hresult, ofBy_settled hmany' (hprepare ▸ hresult)]
  | inr kept => rw [ofBy_prepared hmany hresult, ofBy_prepared hmany' (hprepare ▸ hresult)]

/-- Constructors that are given the same members go on in the same way. -/
theorem Call.inquiryBy_congr {make : List Ty -> Call}
    (hmake : make ∈ [.union, .benevolent, .inter]) :
    (make xs).inquiryBy a options = (make ys).inquiryBy a options := by
  simp only [List.mem_cons, List.not_mem_nil, or_false] at hmake
  rcases hmake with rfl | rfl | rfl
  · exact Union.ofBy_congr hsteady hsame hmany hmany'
  · show Union.benevolentOfBy a options xs = Union.benevolentOfBy a options ys
    unfold Union.benevolentOfBy
    rw [Union.ofBy_congr hsteady hsame hmany hmany']
  · exact Intersection.ofBy_congr hsteady hsame hmany hmany'

end Congr

namespace Session

/-- Two lists of the same members, each of at least two, make the same union, benevolent union and
intersection in the same session and leave it in the same state, whether members are compared in the
order of codes or in that of their handles.  If the two are made one after the other, they are equal
unless a question meets the depth limit. -/
theorem perform_of_same_members (hmany : 2 ≤ xs.length) (hmany' : 2 ≤ ys.length)
    (hsame : ∀ t, t ∈ xs ↔ t ∈ ys) {make : List Ty -> Call}
    (hmake : make ∈ [.union, .benevolent, .inter]) (options : Options) (σ : Session) :
    σ.perform ((make xs).inquiry options) = σ.perform ((make ys).inquiry options) ∧
    (∀ rank : Ty -> Nat, σ.perform ((make xs).inquiryBy (.byRank rank) options) =
      σ.perform ((make ys).inquiryBy (.byRank rank) options)) ∧
    ∀ h made, Reachable h made σ ->
      σ.Within (answer relationDepth) ((make xs).inquiry options) ->
      let σ' := (σ.perform ((make xs).inquiry options)).2
      σ'.Within (answer relationDepth) ((make ys).inquiry options) ->
      (σ.perform ((make xs).inquiry options)).1 = (σ'.perform ((make ys).inquiry options)).1 := by
  have hby : ∀ {a : Arrangement}, a.IsSteady ->
      (make xs).inquiryBy a options = (make ys).inquiryBy a options :=
    fun hsteady => Call.inquiryBy_congr hsteady hsame hmany hmany' hmake
  have hcode : (make xs).inquiry options = (make ys).inquiry options := by
    have hsteady := hby Arrangement.isSteady_byCode
    rwa [Call.inquiryBy_byCode] at hsteady
  refine ⟨by rw [hcode], fun rank => by rw [hby (Arrangement.isSteady_byRank rank)], ?_⟩
  intro h made hσ hwithin σ' hwithin'
  rw [hσ.value_of_within hwithin, (hσ.perform _).value_of_within hwithin', hcode]

/-- Two integers and an interval, in both orders and with the interval given twice. -/
theorem perform_of_same_members_integers :
    let few := Ty.union .plain [.literal (.int 1), .literal (.int 7)]
    let low := Ty.range ⟨some 0, some 5⟩
    let σ := new .empty .default
    let σ' := (σ.perform (Intersection.of .default [few, low])).2
    (σ.perform (Intersection.of .default [few, low])).1 = .literal (.int 1) ∧
      (σ.perform (Intersection.of .default [low, few, low])).1 = .literal (.int 1) ∧
      (σ'.perform (Intersection.of .default [low, few, low])).1 = .literal (.int 1) := by
  intro few low σ σ'
  have hsame : ∀ t, t ∈ [few, low] ↔ t ∈ [low, few, low] := fun t => by simp [or_comm]
  have hmake : Call.inter ∈ [.union, .benevolent, .inter] := by simp
  obtain ⟨hother, -, hagain⟩ := perform_of_same_members (by simp) (by simp) hsame hmake .default σ
  have hfirst : LeadsTo .empty (Intersection.of .default [few, low]) (.literal (.int 1)) := by
    constructor <;> cbv
  have hsecond : isLight .empty (Intersection.of .default [low, few, low]) = true := by
    cbv
  have hlimited : σ'.limited = false := limited_of_within (perform_new hfirst.light).1 rfl
  have hwithin := (Reachable.new.perform (Intersection.of .default [few, low])).perform_light
    hlimited hsecond
  refine ⟨hfirst.perform .default, ?_, ?_⟩
  · exact (congrArg Prod.fst hother).symm.trans (hfirst.perform .default)
  · exact (hagain .empty .default .new (perform_new hfirst.light).1 hwithin.1).symm.trans
      (hfirst.perform .default)

end Session
end GradualTypes
