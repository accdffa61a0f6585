import GradualTypes.Proofs.Registries
import GradualTypes.Proofs.Storage
import GradualTypes.Proofs.Supplies

/-!
# Constructors and founded types

A stock of types has all types with a fixed handle, and with each type its children.
If the arguments of a constructor are in stock, then everything that it announces is
built of types in stock, where the announced types come into stock one after another;
in the end the result is in stock.

So the types that a run has announced are founded: each one comes after its children.
-/

namespace GradualTypes

open Inquiry

/-- A set of types that has the fixed ones, and the children of all its types. -/
structure IsStock (S : Ty -> Prop) : Prop where
  fixed : ∀ t, t.isFixed = true -> S t
  children : ∀ t, S t -> ∀ c ∈ t.children, S c

/-- A type needs a node of its own and children in stock, and then it is in stock too. -/
def stockSupply (S : Ty -> Prop) : Supply where
  needs t := t.layer?.isSome = true ∧ t.isFixed = false ∧ ∀ c ∈ t.children, S c
  has := S

section Stock

variable {S : Ty -> Prop} (hS : IsStock S)

theorem gives_of_children {t : Ty} (hnode : t.layer?.isSome = true) (hfree : t.isFixed = false)
    (hchildren : ∀ c ∈ t.children, S c) : (stockSupply S).Gives S t :=
  ⟨⟨hnode, hfree, hchildren⟩, id⟩

theorem draws_leaf {t : Ty} (hnode : t.layer?.isSome = true) (hfree : t.isFixed = false)
    (hleaf : t.children = []) : (built t).Draws (stockSupply S) S :=
  draws_built (gives_of_children hnode hfree (by simp [hleaf]))

include hS

theorem draws_range (r : IntRange) : (Build.range r).Draws (stockSupply S) S :=
  Build.draws_range (fun _ => hS.fixed _ rfl)
    (fun _ => gives_of_children rfl rfl (by simp [Ty.children]))
    (gives_of_children rfl rfl (by simp [Ty.children]))

theorem carries_stock : (stockSupply S).Carries fun _ => S where
  error := fun _ => hS.fixed _ rfl
  keyword := fun _ _ => hS.fixed _ rfl
  bool := fun _ => ⟨rfl, rfl, by simp [Ty.children]⟩
  joined := fun _ r _ => draws_range hS r
  member := fun hunion m hm => hS.children _ hunion m hm
  union := fun hmembers => gives_of_children rfl rfl hmembers
  value := fun hshape e he => hS.children _ hshape _ (List.mem_map_of_mem he)
  shape := fun _ _ hentries => gives_of_children rfl rfl (List.forall_mem_map.mpr hentries)

/-!
# Unions
-/

theorem Union.draws_of (options : Options) {ts : List Ty} (hts : ∀ t ∈ ts, S t) :
    (Union.of options ts).Draws (stockSupply S) S :=
  draws_upTo (carries_stock hS) _ _ 0 ts hts

theorem Build.draws_markBenevolent {t : Ty} (ht : S t) :
    (markBenevolent t).Draws (stockSupply S) S := by
  unfold markBenevolent
  split
  · rename_i members
    exact draws_built (gives_of_children rfl rfl (hS.children (.union .plain members) ht))
  · exact ht

theorem Union.draws_benevolentOf (options : Options) {ts : List Ty} (hts : ∀ t ∈ ts, S t) :
    (Union.benevolentOf options ts).Draws (stockSupply S) S :=
  (draws_of hS options hts).bind fun _ ht => Build.draws_markBenevolent hS ht

/-!
# Intersections
-/

namespace Intersection

theorem draws_meetRanges (s t : Ty) :
    (meetRanges s t).Draws (stockSupply S) fun meeting => ∀ u, meeting = .narrowed u -> S u := by
  unfold meetRanges
  split
  · dsimp only
    split
    · intro u hu
      cases hu
    · refine (draws_range hS _).bind fun t ht => ?_
      rintro u ⟨⟩
      exact ht
  · intro u hu
    cases hu

theorem draws_meet (earlier later : Ty) :
    (meet earlier later).Draws (stockSupply S) fun meeting =>
      ∀ u, meeting = .narrowed u -> S u := by
  intro r
  show Draws _ _ (if r = .yes then pure Meeting.keep else _)
  split
  · intro u hu
    cases hu
  · intro r'
    show Draws _ _ (if r' = .yes then pure Meeting.replace
      else if r = .no ∧ r' = .no then pure Meeting.disjoint else meetRanges earlier later)
    split
    · intro u hu
      cases hu
    · split
      · intro u hu
        cases hu
      · exact draws_meetRanges hS earlier later

/-- What is left of some types, if anything is, is in stock. -/
def IsLeftInStock (S : Ty -> Prop) (result : Option (List Ty)) : Prop :=
  ∀ left, result = some left -> ∀ m ∈ left, S m

omit hS in
theorem isLeftInStock_some {left : List Ty} (hleft : ∀ m ∈ left, S m) :
    IsLeftInStock S (some left) := by
  rintro _ ⟨⟩
  exact hleft

omit hS in
theorem isLeftInStock_none : IsLeftInStock S none := by
  rintro _ ⟨⟩

theorem draws_narrow {passed kept : List Ty} {current : Ty} (hpassed : ∀ m ∈ passed, S m)
    (hcurrent : S current) (hkept : ∀ m ∈ kept, S m) :
    (narrow passed current kept).Draws (stockSupply S) (IsLeftInStock S) := by
  have happend : ∀ {ts us : List Ty}, (∀ m ∈ ts, S m) -> (∀ m ∈ us, S m) ->
      ∀ m ∈ ts ++ us, S m := fun hts hus => List.forall_mem_append.mpr ⟨hts, hus⟩
  have hone : ∀ {t : Ty}, S t -> ∀ m ∈ [t], S m := List.forall_mem_singleton.mpr
  induction passed, current, kept using narrow.induct with
  | case1 passed current =>
      unfold narrow
      exact isLeftInStock_some (happend hpassed (hone hcurrent))
  | case2 passed current t rest ihreplace ihnarrowed ihboth =>
      rw [List.forall_mem_cons] at hkept
      unfold narrow
      refine (draws_meet hS t current).bind fun meeting hmeeting => ?_
      cases meeting with
      | disjoint => exact isLeftInStock_none
      | keep =>
          exact isLeftInStock_some (happend hpassed (List.forall_mem_cons.mpr hkept))
      | replace => exact ihreplace hpassed hcurrent hkept.2
      | narrowed u =>
          exact ihnarrowed u (by simp) (hmeeting u rfl) (happend hpassed hkept.2)
      | both => exact ihboth (happend hpassed (hone hkept.1)) hcurrent hkept.2

theorem draws_narrowAll {kept incoming : List Ty} (hkept : ∀ m ∈ kept, S m)
    (hincoming : ∀ m ∈ incoming, S m) :
    (narrowAll kept incoming).Draws (stockSupply S) (IsLeftInStock S) := by
  induction incoming generalizing kept with
  | nil => exact isLeftInStock_some hkept
  | cons t rest ih =>
      rw [List.forall_mem_cons] at hincoming
      refine (draws_narrow hS (by simp) hincoming.1 hkept).bind fun result hresult => ?_
      cases result with
      | none => exact isLeftInStock_none
      | some next => exact ih (hresult next rfl) hincoming.2

theorem draws_reduce {members : List Ty} (hmembers : ∀ m ∈ members, S m) :
    (reduce members).Draws (stockSupply S) S := by
  refine (draws_narrowAll hS (by simp) hmembers).bind fun result hresult => ?_
  cases result with
  | none => exact hS.fixed _ rfl
  | some left =>
      have hleft := hresult left rfl
      show (close left).Draws _ _
      unfold close
      split
      · exact hleft _ List.mem_cons_self
      · have hperm := Ty.perm_sortCanonical left
        exact draws_built (gives_of_children rfl rfl fun m hm => hleft m (hperm.mem_iff.mp hm))

theorem draws_gather (options : Options) (flavor : Flavor) {parts : List Ty}
    (hparts : ∀ t ∈ parts, S t) : (gather options flavor parts).Draws (stockSupply S) S := by
  cases flavor with
  | plain => exact Union.draws_of hS options hparts
  | benevolent => exact Union.draws_benevolentOf hS options hparts

theorem inStock_of_mem_membersOf {t : Ty} (ht : S t) : ∀ m ∈ membersOf t, S m := by
  cases t with
  | inter members => exact hS.children _ ht
  | _ => exact List.forall_mem_singleton.mpr ht

omit hS in
theorem prepare_all {Q : Ty -> Prop} {members : List Ty}
    (hbasic : Q .error ∧ Q .never ∧ Q .mixed) (hflat : ∀ m ∈ members.flatMap membersOf, Q m) :
    match prepare members with
    | .inl t => Q t
    | .inr kept => ∀ m ∈ kept, Q m := by
  have hprepares := prepares_prepare members
  generalize prepare members = result at hprepares
  cases hprepares with
  | error herror => exact hbasic.1
  | never herror hnever => exact hbasic.2.1
  | mixed hmixed => exact hbasic.2.2
  | single ht hopen hothers => exact hflat _ ht
  | several htwo hnodup hopen hmem => exact fun m hm => hflat m ((hmem m).mp hm).1

theorem prepare_inStock {members : List Ty} (hmembers : ∀ m ∈ members, S m) :
    match prepare members with
    | .inl t => S t
    | .inr kept => ∀ m ∈ kept, S m :=
  prepare_all ⟨hS.fixed _ rfl, hS.fixed _ rfl, hS.fixed _ rfl⟩
    (forall_flatMap fun m hm => inStock_of_mem_membersOf hS (hmembers m hm))

theorem draws_of (options : Options) {members : List Ty} (hmembers : ∀ m ∈ members, S m) :
    (of options members).Draws (stockSupply S) S := by
  have hintersects := intersects_of options members
  generalize of options members = q at hintersects ⊢
  induction hintersects with
  | empty => exact hS.fixed _ rfl
  | single t => exact hmembers t List.mem_cons_self
  | settled hmany hprepare =>
      have hprepared := prepare_inStock hS hmembers
      rw [hprepare] at hprepared
      exact hprepared
  | compared hmany hprepare hdistribute =>
      have hprepared := prepare_inStock hS hmembers
      rw [hprepare] at hprepared
      exact draws_reduce hS hprepared
  | @distributed members kept alternatives rest flavor hmany hprepare hdistribute _ ih =>
      have hprepared := prepare_inStock hS hmembers
      rw [hprepare] at hprepared
      rcases mem_of_firstUnion? (firstUnion?_of_toDistribute? hdistribute) with ⟨hmem, hrest⟩
      have hparts : ∀ t ∈ alternatives, (of options (rest ++ [t])).Draws (stockSupply S) S := by
        intro t ht
        refine ih t ht (List.forall_mem_append.mpr ⟨fun m hm => hprepared m (hrest m hm), ?_⟩)
        exact List.forall_mem_singleton.mpr (hS.children _ (hprepared _ hmem) t ht)
      exact (draws_mapM hparts).bind fun parts hall => draws_gather hS options flavor hall

end Intersection

/-!
# Calls
-/

theorem Call.draws_inquiry (options : Options) {c : Call} (harguments : ∀ t ∈ c.arguments, S t) :
    (c.inquiry options).Draws (stockSupply S) S := by
  cases c with
  | error => exact hS.fixed _ rfl
  | placeholder => exact hS.fixed _ rfl
  | keyword k => exact hS.fixed _ rfl
  | int n => exact draws_leaf rfl rfl rfl
  | float x => exact draws_leaf rfl rfl rfl
  | text s => exact draws_leaf rfl rfl rfl
  | bool b => exact draws_leaf rfl rfl rfl
  | range r => exact draws_range hS r
  | object cls arguments => exact draws_built (gives_of_children rfl rfl harguments)
  | this cls => exact draws_leaf rfl rfl rfl
  | array key value =>
      simp only [inquiry, Build.array]
      split
      · exact hS.fixed _ rfl
      · exact draws_built (gives_of_children rfl rfl harguments)
  | shape entries =>
      simp only [inquiry, Build.shape]
      split
      · exact hS.fixed _ rfl
      · refine draws_built (gives_of_children rfl rfl (List.forall_mem_map.mpr fun e he => ?_))
        exact harguments _ (List.mem_map_of_mem (Shape.mem_of_mem_ofList he))
  | accessory a => exact draws_leaf rfl rfl rfl
  | hasProperty name => exact draws_leaf rfl rfl rfl
  | union members => exact Union.draws_of hS options harguments
  | benevolent members => exact Union.draws_benevolentOf hS options harguments
  | markBenevolent t => exact Build.draws_markBenevolent hS (harguments t List.mem_cons_self)
  | inter members => exact Intersection.draws_of hS options harguments

end Stock

/-!
# Sessions
-/

namespace Session

variable {α : Type} {σ σ' : Session}

/-- The types of the session are numbered consistently, and each comes after its
children. -/
structure IsFounded (σ : Session) : Prop where
  numbering : σ.types.IsConsistent
  types : GradualTypes.IsFounded σ.types.items.toList

/-- A type that the session stores, or whose handle is fixed. -/
def Has (σ : Session) (t : Ty) : Prop :=
  t.isFixed = true ∨ t ∈ σ.types.items.toList

theorem children_of_isFixed {t : Ty} (ht : t.isFixed = true) : t.children = [] := by
  cases t <;> first | rfl | cases ht

theorem IsFounded.isStock (hσ : σ.IsFounded) : IsStock σ.Has where
  fixed := fun _ ht => .inl ht
  children := by
    rintro t (ht | ht) c hc
    · rw [children_of_isFixed ht] at hc
      cases hc
    · rcases List.append_of_mem ht with ⟨before, after, hsplit⟩
      refine (hσ.types.child_before hsplit c hc).imp_right fun hbefore => ?_
      rw [hsplit]
      exact List.mem_append_left _ hbefore

theorem Retains.has (h : Retains σ σ') {t : Ty} (ht : σ.Has t) : σ'.Has t :=
  ht.imp_right fun ht => Array.mem_toList_iff.mpr (h.types t (Array.mem_toList_iff.mp ht))

theorem IsFounded.enter (hσ : σ.IsFounded) {t : Ty} (ht : (stockSupply σ.Has).needs t) :
    IsFounded { σ with types := σ.types.enter t } := by
  rcases ht with ⟨hnode, hfree, hchildren⟩
  refine ⟨hσ.numbering.enter t, ?_⟩
  show GradualTypes.IsFounded (σ.types.enter t).items.toList
  cases hnumber : σ.types.number? t with
  | some n =>
      rw [Numbering.enter_eq_self hnumber]
      exact hσ.types
  | none =>
      have hnew : t ∉ σ.types.items.toList := by
        rw [Array.mem_toList_iff, hσ.numbering.mem_items_iff, hnumber]
        simp
      rw [Numbering.items_enter hnumber, Array.toList_push]
      exact hσ.types.concat hnew hnode hfree hchildren

/-- An inquiry that draws on every stock with the types of a founded session leaves the
session founded, and its result is as it would be in the stock of that session. -/
theorem run_founded {answer : Ty -> Ty -> Session -> Tristate × Session}
    (hretains : ∀ s t σ, Retains σ (answer s t σ).2)
    (hanswer : ∀ s t σ, σ.IsFounded -> (answer s t σ).2.IsFounded)
    {post : (Ty -> Prop) -> α -> Prop} {q : Inquiry α} (hσ : σ.IsFounded)
    (hq : ∀ S, IsStock S -> (∀ t, σ.Has t -> S t) -> q.Draws (stockSupply S) (post S)) :
    (run answer q σ).2.IsFounded ∧ post (run answer q σ).2.Has (run answer q σ).1 := by
  induction q generalizing σ with
  | done a => exact ⟨hσ, hq σ.Has hσ.isStock fun _ => id⟩
  | ask s t next ih =>
      refine ih (answer s t σ).1 (hanswer s t σ hσ) fun S hS hhas => ?_
      exact hq S hS (fun u hu => hhas u ((hretains s t σ).has hu)) (answer s t σ).1
  | announce t next ih =>
      have hentered := hσ.enter (hq σ.Has hσ.isStock fun _ => id).1
      have hself : Has { σ with types := σ.types.enter t } t :=
        .inr (Array.mem_toList_iff.mpr (hσ.numbering.mem_items_enter_self t))
      refine ih () hentered fun S hS hhas => ?_
      exact (hq S hS fun u hu => hhas u ((Retains.enter σ t).has hu)).2 (hhas t hself)
  | announceText s next ih => exact ih () (σ := { σ with texts := σ.texts.enter s }) ⟨hσ.1, hσ.2⟩ hq
  | restart next ih => exact ih () (σ := { σ with limited := false }) ⟨hσ.1, hσ.2⟩ hq

/-- A step of a question announces literals only. -/
theorem draws_check (h : Hierarchy) (s t : Ty) (S : Ty -> Prop) :
    (Subtype.check h s t).Draws (stockSupply S) fun _ => True := by
  refine (Subtype.meets_check_free h s t).draws (fun _ _ _ => trivial) fun u hu => ?_
  cases u with
  | literal v => exact ⟨rfl, rfl, by simp [Ty.children]⟩
  | _ => cases hu

theorem answer_founded (n : Nat) (s t : Ty) (σ : Session) (hσ : σ.IsFounded) :
    (answer n s t σ).2.IsFounded := by
  induction n generalizing s t σ with
  | zero =>
      unfold answer
      split
      · exact hσ
      · split
        · exact hσ
        · exact ⟨hσ.1, hσ.2⟩
  | succ n ih =>
      unfold answer
      split
      · exact hσ
      · split
        · exact hσ
        · have hdraws : ∀ S, IsStock S -> (∀ t, σ.Has t -> S t) ->
              (Subtype.check σ.hierarchy s t).Draws (stockSupply S) fun _ => True :=
            fun S _ _ => draws_check σ.hierarchy s t S
          have hrun := (run_founded (answer_retains n) ih hσ hdraws).1
          dsimp only
          unfold settle
          split
          · exact hrun
          · exact ⟨hrun.1, hrun.2⟩

theorem isFounded_new (h : Hierarchy) (options : Options) : (new h options).IsFounded :=
  ⟨Numbering.isConsistent_empty, .nil⟩

end Session

namespace Run

variable {h : Hierarchy} {options : Options} {allowed : Session -> Call -> Prop} {σ : Session}
  {ts : List Ty}

/-- The types that a run has announced are founded, and those that it has returned are
among them or fixed. -/
theorem founded (hrun : Run h options allowed σ ts) : σ.IsFounded ∧ ∀ t ∈ ts, σ.Has t := by
  have hretains := Session.answer_retains relationDepth
  induction hrun with
  | new => exact ⟨Session.isFounded_new h options, by simp⟩
  | @call σ ts c _ harguments _ ih =>
      have hdraws : ∀ S, IsStock S -> (∀ t, σ.Has t -> S t) ->
          (c.inquiry options).Draws (stockSupply S) S := fun S hS hhas =>
        Call.draws_inquiry hS options fun t ht => hhas t (ih.2 t (harguments t ht))
      have hcall := Session.run_founded hretains (Session.answer_founded relationDepth) ih.1 hdraws
      refine ⟨hcall.1, List.forall_mem_cons.mpr ⟨hcall.2, fun t ht => ?_⟩⟩
      exact (Session.run_retains hretains (c.inquiry options) σ).has (ih.2 t ht)
  | @ask σ ts s t _ ih =>
      refine ⟨Session.answer_founded relationDepth s t { σ with limited := false } ⟨ih.1.1, ih.1.2⟩,
        fun u hu => ?_⟩
      exact (Session.run_retains hretains (isSubtype s t) σ).has (ih.2 u hu)

end Run
end GradualTypes
