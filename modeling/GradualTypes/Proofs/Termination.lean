import GradualTypes.Proofs.Founding
import GradualTypes.Proofs.UnionRecursion
import Mathlib.Logic.Function.Iterate
import Mathlib.Tactic.Ring

/-!
# Unions and intersections end

The constructors of unions and of intersections are written here as a recursion that has no bound:
a call does one thing and calls again.  A union calls itself with the values of shapes, an
intersection calls itself with each piece of a distribution and then calls for the union of the
pieces, and a round of reduction calls for the next round, which starts over at the first kept
member if the current member was narrowed.

Such a recursion ends if, from some depth of calls on, it does not matter what a deeper call would
return.  Unions go as deep as shapes are nested.  The rounds of a reduction are bounded by a
measure of the kept and the waiting members.  The pieces of a distribution are smaller in total
size than the members, and shapes are nested no deeper in them.
-/

namespace GradualTypes

open Inquiry

/-- Calls that are nested `n` deep are enough: whatever deeper ones would return, the result is
this one. -/
def ReturnsWithin {α β : Type} (body : (α -> β) -> α -> β) (n : Nat) (a : α) (b : β) : Prop :=
  ∀ deeper, body^[n] deeper a = b

section Depth

variable {α β : Type} {body : (α -> β) -> α -> β} {m n : Nat} {a : α} {b : β}

theorem ReturnsWithin.mono (h : ReturnsWithin body m a b) (hle : m ≤ n) :
    ReturnsWithin body n a b := by
  intro deeper
  obtain ⟨k, rfl⟩ := Nat.exists_eq_add_of_le hle
  rw [Function.iterate_add_apply]
  exact h _

/-- One more call. -/
theorem ReturnsWithin.succ (h : ∀ call, (∀ a' b', ReturnsWithin body n a' b' -> call a' = b') ->
    body call a = b) : ReturnsWithin body (n + 1) a b := by
  intro deeper
  rw [Function.iterate_succ_apply']
  exact h _ fun a' b' hdeep => hdeep deeper

end Depth

/-!
# The recursion
-/

/-- What is called. -/
inductive Combination where
  | union (members : List Ty)
  | inter (members : List Ty)
  /-- A round of a reduction: the current member meets the kept one at a place. -/
  | reduce (kept : List Ty) (place : Nat) (current : Ty) (waiting : List Ty)

namespace Combination

/-- Reduce the first of the members that wait. -/
def reduceNext (call : Combination -> Inquiry Ty) (kept : List Ty) : List Ty -> Inquiry Ty
  | [] => Intersection.close kept
  | t :: waiting => call (.reduce kept 0 t waiting)

/-- What one call does, given what the calls in it do. -/
def body (options : Options) (call : Combination -> Inquiry Ty) : Combination -> Inquiry Ty
  | union [] => pure .error
  | union [t] => pure t
  | union members =>
      Union.normalize options.maxUnionShapeMerge (fun values => call (union values))
        (Union.flavorOf members) (members.flatMap Union.membersOf)
  | inter [] => pure .mixed
  | inter [t] => pure t
  | inter members =>
      match Intersection.prepare members with
      | .inl t => pure t
      | .inr prepared =>
          match Intersection.toDistribute? options.maxIntersectionDistribution prepared with
          | none => do
              fresh
              reduceNext call [] prepared
          | some (flavor, alternatives, rest) => do
              let pieces ← alternatives.mapM fun t => call (inter (rest ++ [t]))
              match flavor with
              | .plain => call (union pieces)
              | .benevolent => do Build.markBenevolent (← call (union pieces))
  | reduce kept place current waiting =>
      match kept[place]? with
      | none => reduceNext call (kept ++ [current]) waiting
      | some t => do
          match ← Intersection.meet t current with
          | .disjoint => return .never
          | .keep => reduceNext call kept waiting
          | .replace => call (reduce (kept.eraseIdx place) place current waiting)
          | .narrowed narrower => call (reduce (kept.eraseIdx place) 0 narrower waiting)
          | .both => call (reduce kept (place + 1) current waiting)

/-- The rest of a reduction. -/
def finish (waiting : List Ty) : Option (List Ty) -> Inquiry Ty
  | none => pure .never
  | some kept => do
      match ← Intersection.narrowAll kept waiting with
      | none => return .never
      | some kept => Intersection.close kept

/-- What a call returns. -/
def result (options : Options) : Combination -> Inquiry Ty
  | union members => Union.of options members
  | inter members => Intersection.of options members
  | reduce kept place current waiting =>
      Intersection.narrow (kept.take place) current (kept.drop place) >>= finish waiting

variable {options : Options} {members kept waiting : List Ty} {place m n : Nat} {current t : Ty}

/-!
# Unions
-/

/-- The union of some types calls as deep as shapes are nested in them. -/
theorem returnsWithin_union (hmembers : ∀ t ∈ members, t.nesting ≤ n) :
    ReturnsWithin (body options) (n + 1) (.union members) (Union.of options members) := by
  induction n using Nat.strong_induction_on generalizing members with
  | _ n ih =>
      refine .succ fun call hcall => ?_
      match members with
      | [] => rfl
      | [t] =>
          rw [← Union.upTo_eq_of (Nat.le_succ _)]
          rfl
      | t :: t' :: rest =>
          rw [Union.of_eq_normalize (by simp)]
          refine Union.normalize_congr fun values hne hvalues => ?_
          have hless : ∀ v ∈ values, v.nesting < n :=
            fun v hv => Union.nesting_lt_of_isValueIn hmembers (hvalues v hv)
          obtain ⟨v, hv⟩ := List.exists_mem_of_ne_nil values hne
          obtain ⟨k, rfl⟩ : ∃ k, n = k + 1 := ⟨n - 1, by have := hless v hv; omega⟩
          exact hcall _ _ (ih k (Nat.lt_succ_self k) fun v hv => Nat.le_of_lt_succ (hless v hv))

/-!
# Reduction
-/

/-- What members that wait and kept ones count for.  Each of them may start the passage over all
kept members anew: a kept one once, when it narrows another one, and one that waits also when it is
kept itself. -/
def potential (waiting kept : Nat) : Nat :=
  (2 * waiting + kept) * (waiting + kept + 1)

theorem potential_waiting (w k : Nat) :
    potential (w + 1) k = potential w k + (4 * w + 3 * k + 4) := by
  unfold potential
  ring

theorem potential_kept (w k : Nat) :
    potential w (k + 1) = potential w k + (3 * w + 2 * k + 2) := by
  unfold potential
  ring

/-- A bound of the rounds of a reduction. -/
def rounds (kept : List Ty) (place : Nat) (waiting : List Ty) : Nat :=
  potential waiting.length kept.length + (kept.length - place) + 1

theorem finish_some (kept waiting : List Ty) :
    finish waiting (some kept) = reduceNext (result options) kept waiting := by
  cases waiting with
  | nil => rfl
  | cons t rest =>
      show (Intersection.narrowAll kept (t :: rest) >>= _) =
        Intersection.narrow [] t kept >>= finish rest
      unfold Intersection.narrowAll
      rw [bind_assoc]
      refine congrArg _ (funext fun narrowed => ?_)
      cases narrowed <;> rfl

theorem exists_split (ht : kept[place]? = some t) :
    ∃ passed rest, kept = passed ++ t :: rest ∧ place = passed.length := by
  obtain ⟨hlt, rfl⟩ := List.getElem?_eq_some_iff.mp ht
  refine ⟨kept.take place, kept.drop (place + 1), ?_, ?_⟩
  · rw [← List.drop_eq_getElem_cons hlt, List.take_append_drop]
  · rw [List.length_take_of_le (Nat.le_of_lt hlt)]

/-- A reduction does what its first round and the rounds after it do. -/
theorem result_reduce : result options (reduce kept place current waiting) =
    body options (result options) (reduce kept place current waiting) := by
  cases hplace : kept[place]? with
  | none =>
      have hend : kept.length ≤ place := List.getElem?_eq_none_iff.mp hplace
      simp only [result, body, hplace, List.drop_eq_nil_of_le hend, List.take_of_length_le hend]
      rw [← finish_some, Intersection.narrow, pure_bind]
  | some t =>
      obtain ⟨passed, rest, rfl, rfl⟩ := exists_split hplace
      have herase : (passed ++ t :: rest).eraseIdx passed.length = passed ++ rest := by
        simp [List.eraseIdx_append_of_length_le]
      have hnext : passed ++ t :: rest = (passed ++ [t]) ++ rest := by simp
      have hlength : passed.length + 1 = (passed ++ [t]).length := by simp
      simp only [result, body, hplace, List.take_left, List.drop_left, herase]
      rw [Intersection.narrow, bind_assoc]
      refine congrArg _ (funext fun meeting => ?_)
      cases meeting with
      | disjoint => rfl
      | keep => exact finish_some _ _
      | replace => rfl
      | narrowed narrower => rfl
      | both =>
          show _ = Intersection.narrow _ _ _ >>= _
          rw [hnext, hlength, List.take_left, List.drop_left]

section Rounds

variable {call call' : Combination -> Inquiry Ty}

/-- Each round calls for rounds of smaller measure only. -/
theorem body_reduce_congr
    (hcall : ∀ left at' narrower rest, rounds left at' rest < rounds kept place waiting ->
      call (reduce left at' narrower rest) = call' (reduce left at' narrower rest)) :
    body options call (reduce kept place current waiting) =
      body options call' (reduce kept place current waiting) := by
  have hnext : ∀ left, (∀ t rest, waiting = t :: rest ->
      rounds left 0 rest < rounds kept place waiting) ->
        reduceNext call left waiting = reduceNext call' left waiting := by
    intro left hless
    cases waiting with
    | nil => rfl
    | cons t rest => exact hcall left 0 t rest (hless t rest rfl)
  cases hplace : kept[place]? with
  | none =>
      simp only [body, hplace]
      refine hnext _ ?_
      rintro t rest rfl
      have hwaiting := potential_waiting rest.length kept.length
      have hkept := potential_kept rest.length kept.length
      simp only [rounds, List.length_append, List.length_cons, List.length_nil, Nat.zero_add]
      omega
  | some t =>
      have hlt := (List.getElem?_eq_some_iff.mp hplace).1
      obtain ⟨k, hk⟩ : ∃ k, kept.length = k + 1 := ⟨kept.length - 1, by omega⟩
      have herase : (kept.eraseIdx place).length = k := by
        rw [List.length_eraseIdx_of_lt hlt, hk, Nat.add_sub_cancel]
      have hkept := potential_kept waiting.length k
      simp only [body, hplace]
      refine congrArg _ (funext fun meeting => ?_)
      cases meeting with
      | disjoint => rfl
      | keep =>
          refine hnext _ ?_
          rintro t rest rfl
          have hwaiting := potential_waiting rest.length kept.length
          simp only [rounds, List.length_cons]
          omega
      | replace =>
          refine hcall _ _ _ _ ?_
          simp only [rounds, herase, hk]
          omega
      | narrowed narrower =>
          refine hcall _ _ _ _ ?_
          simp only [rounds, herase, hk]
          omega
      | both =>
          refine hcall _ _ _ _ ?_
          simp only [rounds]
          omega

end Rounds

/-- A reduction ends after a bounded number of rounds. -/
theorem returnsWithin_reduce (hrounds : rounds kept place waiting ≤ n) :
    ReturnsWithin (body options) n (.reduce kept place current waiting)
      (result options (.reduce kept place current waiting)) := by
  induction n generalizing kept place current waiting with
  | zero => exact absurd hrounds (Nat.not_succ_le_zero _)
  | succ n ih =>
      refine .succ fun call hcall => ?_
      rw [result_reduce]
      refine body_reduce_congr fun left at' narrower rest hless => hcall _ _ (ih ?_)
      exact Nat.le_of_lt_succ (Nat.lt_of_lt_of_le hless hrounds)

/-!
# Intersections
-/

section Nesting

variable {replies : Ty -> Ty -> Tristate -> Prop} {flavor : Flavor} {parts : List Ty}

/-- A member that is left is a given one or a scalar type. -/
theorem nesting_le_of_isFrom {left : List Ty} (hmembers : ∀ t ∈ members, t.nesting ≤ n)
    (hleft : Intersection.IsFrom members left) : ∀ t ∈ left, t.nesting ≤ n := by
  intro t ht
  rcases hleft t ht with hmem | hscalar
  · exact hmembers t hmem
  · cases t <;> first | exact Nat.zero_le n | cases hscalar

theorem meets_reduce_nesting (hmembers : ∀ t ∈ members, t.nesting ≤ n) :
    (Intersection.reduce members).Meets (.free replies) (·.nesting ≤ n) := by
  refine (Intersection.meets_reduce_from replies members).imp fun t ht => ?_
  rcases ht with ht | ⟨left, rfl, hleft⟩
  · exact nesting_le_of_isFrom hmembers (List.forall_mem_singleton.mpr ht) t List.mem_cons_self
  · exact (Ty.nesting_le_iff rfl).mpr (nesting_le_of_isFrom hmembers hleft)

theorem meets_union_nesting (hmembers : ∀ t ∈ members, t.nesting ≤ n) :
    (Union.of options members).Meets (.free replies) (·.nesting ≤ n) := by
  refine (Union.meets_upTo_nested Generalize.isAboutIntersections_true.isCarried _ _ n members
    fun t ht => ⟨hmembers t ht, Ty.everywhere_true t⟩).imp fun t ht => ?_
  exact ht.nesting

theorem meets_gather_nesting (hparts : ∀ t ∈ parts, t.nesting ≤ n) :
    (Intersection.gather options flavor parts).Meets (.free replies) (·.nesting ≤ n) := by
  cases flavor with
  | plain => exact meets_union_nesting hparts
  | benevolent =>
      refine (meets_union_nesting hparts).bind fun t ht => ?_
      unfold Build.markBenevolent
      split
      · exact ⟨trivial, ht⟩
      · exact ht

theorem prepare_nesting (hmembers : ∀ t ∈ members, t.nesting ≤ n) :
    match Intersection.prepare members with
    | .inl t => t.nesting ≤ n
    | .inr prepared => ∀ t ∈ prepared, t.nesting ≤ n := by
  refine Intersection.prepare_all (Q := (·.nesting ≤ n))
    ⟨Nat.zero_le n, Nat.zero_le n, Nat.zero_le n⟩ (Intersection.forall_flatMap fun t ht => ?_)
  cases t with
  | inter members => exact (Ty.nesting_le_iff rfl).mp (hmembers _ ht)
  | _ => exact List.forall_mem_singleton.mpr (hmembers _ ht)

/-- The pieces of a distribution nest shapes no deeper than the members. -/
theorem nesting_le_of_distributed {limit : Nat} {prepared alternatives rest : List Ty}
    (hprepared : ∀ t ∈ prepared, t.nesting ≤ n)
    (hdistribute : Intersection.toDistribute? limit prepared = some (flavor, alternatives, rest))
    (ht : t ∈ alternatives) : ∀ u ∈ rest ++ [t], u.nesting ≤ n := by
  obtain ⟨hmem, hrest⟩ :=
    Intersection.mem_of_firstUnion? (Intersection.firstUnion?_of_toDistribute? hdistribute)
  refine List.forall_mem_append.mpr ⟨fun u hu => hprepared u (hrest u hu), ?_⟩
  have hunion := hprepared _ hmem
  exact List.forall_mem_singleton.mpr ((Ty.nesting_le_iff rfl).mp hunion t ht)

theorem meets_inter_nesting (hmembers : ∀ t ∈ members, t.nesting ≤ n) :
    (Intersection.of options members).Meets (.free replies) (·.nesting ≤ n) := by
  have hintersects := Intersection.intersects_of options members
  generalize Intersection.of options members = q at hintersects ⊢
  induction hintersects with
  | empty => exact Nat.zero_le n
  | single t => exact hmembers t List.mem_cons_self
  | settled hmany hprepare =>
      have hprepared := prepare_nesting hmembers
      rw [hprepare] at hprepared
      exact hprepared
  | compared hmany hprepare hdistribute =>
      have hprepared := prepare_nesting hmembers
      rw [hprepare] at hprepared
      exact meets_reduce_nesting hprepared
  | distributed hmany hprepare hdistribute _ ih =>
      have hprepared := prepare_nesting hmembers
      rw [hprepare] at hprepared
      refine (meets_mapM_all fun t ht => ih t ht ?_).bind fun parts => meets_gather_nesting
      exact nesting_le_of_distributed hprepared hdistribute ht

end Nesting

theorem length_le_sizes (ts : List Ty) : ts.length ≤ Ty.sizes ts := by
  induction ts with
  | nil => exact Nat.le_refl _
  | cons t rest ih =>
      have hpos := t.size_pos
      rw [List.length_cons, Ty.sizes]
      omega

/-- How deep a call goes at most. -/
def depth : Combination -> Nat
  | union members => Ty.nestings members + 1
  | inter members => interDepth (Ty.nestings members) (Ty.sizes members)
  | reduce kept place _ waiting => rounds kept place waiting
where
  interDepth (nesting size : Nat) : Nat := nesting + size + 2 * size ^ 2 + 1

theorem interDepth_lt {s : Nat} (hless : m < s) : depth.interDepth n m < depth.interDepth n s := by
  have hsquare := Nat.pow_le_pow_left (Nat.le_of_lt hless) 2
  unfold depth.interDepth
  omega

/-- The rounds in which members are compared. -/
theorem rounds_lt_interDepth {waiting : List Ty} (hsize : Ty.sizes (t :: waiting) ≤ m) :
    rounds [] 0 waiting < depth.interDepth n m := by
  have hlength := Nat.le_trans (length_le_sizes (t :: waiting)) hsize
  rw [List.length_cons] at hlength
  have hsquare := Nat.mul_le_mul (Nat.le_of_succ_le hlength) hlength
  simp only [rounds, potential, depth.interDepth, List.length_nil, Nat.add_zero, Nat.mul_assoc,
    Nat.zero_sub, Nat.pow_two]
  omega

theorem exists_two (hmany : 2 ≤ members.length) : ∃ t u rest, members = t :: u :: rest := by
  match members, hmany with
  | t :: u :: rest, _ => exact ⟨t, u, rest, rfl⟩

theorem reduce_eq_reduceNext (options : Options) (members : List Ty) :
    Intersection.reduce members = fresh >>= fun _ => reduceNext (result options) [] members := by
  simp only [← finish_some]
  rfl

/-- The intersection of some types calls for smaller ones, for unions that nest no deeper, and for
the rounds of a reduction. -/
theorem returnsWithin_inter (hmembers : ∀ t ∈ members, t.nesting ≤ n) :
    ReturnsWithin (body options) (depth.interDepth n (Ty.sizes members)) (.inter members)
      (Intersection.of options members) := by
  have hintersects := Intersection.intersects_of options members
  generalize Intersection.of options members = q at hintersects ⊢
  induction hintersects with
  | empty => exact .succ fun call hcall => rfl
  | single t => exact .succ fun call hcall => rfl
  | settled hmany hprepare =>
      refine .succ fun call hcall => ?_
      obtain ⟨_, _, _, rfl⟩ := exists_two hmany
      simp only [body, hprepare]
  | @compared members prepared hmany hprepare hdistribute =>
      refine .succ fun call hcall => ?_
      rw [reduce_eq_reduceNext options]
      have hsize := Intersection.sizes_prepare_le hprepare
      obtain ⟨_, _, _, rfl⟩ := exists_two hmany
      simp only [body, hprepare, hdistribute]
      refine congrArg _ (funext fun _ => ?_)
      cases prepared with
      | nil => rfl
      | cons t waiting =>
          exact hcall _ _ (returnsWithin_reduce (Nat.le_of_lt_succ (rounds_lt_interDepth hsize)))
  | @distributed members prepared alternatives rest flavor hmany hprepare hdistribute _ ih =>
      refine .succ fun call hcall => ?_
      have hprepared := prepare_nesting hmembers
      rw [hprepare] at hprepared
      have hpiece : ∀ t ∈ alternatives, ∀ u ∈ rest ++ [t], u.nesting ≤ n :=
        fun t ht => nesting_le_of_distributed hprepared hdistribute ht
      have hpieces : ∀ t ∈ alternatives,
          call (inter (rest ++ [t])) = Intersection.of options (rest ++ [t]) := fun t ht => by
        have hless := Intersection.sizes_piece_lt hprepare hdistribute ht
        refine hcall _ _ ((ih t ht (hpiece t ht)).mono ?_)
        exact Nat.le_of_lt_succ (interDepth_lt hless)
      have hpos : 0 < Ty.sizes members :=
        Nat.lt_of_lt_of_le (Nat.lt_of_lt_of_le Nat.zero_lt_two hmany) (length_le_sizes members)
      have hunion : ∀ parts, (∀ t ∈ parts, t.nesting ≤ n) ->
          call (union parts) = Union.of options parts := fun parts hparts =>
        hcall _ _ ((returnsWithin_union hparts).mono (by omega))
      obtain ⟨_, _, _, rfl⟩ := exists_two hmany
      simp only [body, hprepare, hdistribute]
      rw [mapM_congr hpieces]
      refine bind_congr_of_meets (meets_mapM_all fun t ht => meets_inter_nesting (hpiece t ht))
        fun parts hparts => ?_
      cases flavor with
      | plain => exact hunion parts hparts
      | benevolent =>
          dsimp only
          rw [hunion parts hparts]
          rfl

/-- Whatever is called, there is a depth of calls that is enough: unions and intersections of all
lists of types end, under all options and whatever is answered on the way. -/
theorem returnsWithin_depth (options : Options) (c : Combination) :
    ReturnsWithin (body options) c.depth c (c.result options) := by
  cases c with
  | union members => exact returnsWithin_union (Ty.nestings_le_iff.mp (Nat.le_refl _))
  | inter members => exact returnsWithin_inter (Ty.nestings_le_iff.mp (Nat.le_refl _))
  | reduce kept place current waiting => exact returnsWithin_reduce (Nat.le_refl _)

end Combination

end GradualTypes
