import Mathlib.Data.Finset.Card
import Mathlib.Order.Interval.Finset.Nat
import GradualTypes.Proofs.Layers

/-!
# Types and their handles

A list of types is founded if each of them comes after its children.  When the types
of such a list are entered into a registry one after another, each gets a handle of
its own, and every handle that is not fixed belongs to one of them.  So types are
equal exactly if their handles are.
-/

namespace GradualTypes

/-- A type whose handle is fixed. -/
def Ty.isFixed (t : Ty) : Bool :=
  t.fixedHandle?.isSome

/-- Each type is new, has a node, and comes after those of its children whose handles
are not fixed. -/
inductive IsFounded : List Ty -> Prop where
  | nil : IsFounded []
  | concat {ts : List Ty} {t : Ty} : IsFounded ts -> t ∉ ts -> t.layer?.isSome = true ->
      t.isFixed = false -> (∀ c ∈ t.children, c.isFixed = true ∨ c ∈ ts) -> IsFounded (ts ++ [t])

theorem IsFounded.nodup {ts : List Ty} (h : IsFounded ts) : ts.Nodup := by
  induction h with
  | nil => exact List.nodup_nil
  | concat _ hnew _ _ _ ih =>
      rw [List.nodup_append]
      refine ⟨ih, by simp, fun t ht u hu => ?_⟩
      rw [List.mem_singleton] at hu
      rintro rfl
      exact hnew (hu ▸ ht)

theorem IsFounded.child_before {ts before after : List Ty} {t : Ty} (h : IsFounded ts)
    (hsplit : ts = before ++ t :: after) : ∀ c ∈ t.children, c.isFixed = true ∨ c ∈ before := by
  induction h generalizing after with
  | nil => simp at hsplit
  | @concat ts u _ hnew _ _ hchildren ih =>
      rcases List.eq_nil_or_concat after with rfl | ⟨rest, v, rfl⟩
      · obtain ⟨rfl, hu⟩ := List.append_inj' hsplit rfl
        obtain rfl : u = t := List.singleton_inj.mp hu
        exact hchildren
      · have hsplit' : ts ++ [u] = (before ++ t :: rest) ++ [v] := by simpa using hsplit
        exact ih (List.append_inj' hsplit' rfl).1

theorem Ty.fixedHandle?_inj {t u : Ty} {x : Handle} (ht : t.fixedHandle? = some x)
    (hu : u.fixedHandle? = some x) : t = u := by
  have hnode : ∀ k, (Handle.keyword k).fixedNode? = some (.keyword k) ∧
      Handle.keyword k ≠ .placeholder := fun k =>
    have hfixed := Handle.fixedNode?_of_fixedHandle? (d := .keyword k) rfl
    ⟨hfixed.1, hfixed.2.2⟩
  have herror : ∀ k, Handle.keyword k ≠ .error := by
    intro k heq
    have hk := (hnode k).1
    rw [heq] at hk
    cases hk
  cases t <;> cases u <;>
    simp only [fixedHandle?, Option.some.injEq, reduceCtorEq] at ht hu <;> subst ht
  case keyword.keyword k l =>
    have hl := (hnode l).1
    rw [hu, (hnode k).1] at hl
    cases hl
    rfl
  case keyword.error k => exact absurd hu.symm (herror k)
  case keyword.placeholder k => exact absurd hu.symm (hnode k).2
  case error.keyword k => exact absurd hu (herror k)
  case placeholder.keyword k => exact absurd hu (hnode k).2
  case error.placeholder => exact absurd hu (by decide)
  case placeholder.error => exact absurd hu (by decide)
  all_goals rfl

theorem Ty.lt_of_fixedHandle? {t : Ty} {x : Handle} (ht : t.fixedHandle? = some x) :
    x.number < Handle.firstFree := by
  cases t <;> simp only [fixedHandle?, Option.some.injEq, reduceCtorEq] at ht <;> subst ht
  case keyword k => cases k <;> decide
  all_goals decide

namespace Registry

variable {hash : Node -> UInt64} {r : Registry} {ts : List Ty} {t u c : Ty} {x y : Handle}

theorem handle?_of_fixed (ht : t.fixedHandle? = some x) : r.handle? t = some x := by
  simp [handle?, ht]

theorem handle?_of_free (ht : t.isFixed = false) : r.handle? t = r.entries.lookup t := by
  have hnone : t.fixedHandle? = none := by simpa [Ty.isFixed] using ht
  simp [handle?, hnone]

theorem mem_entries_of_handle? (ht : t.isFixed = false) (hx : r.handle? t = some x) :
    (t, x) ∈ r.entries := by
  rw [handle?_of_free ht, List.lookup_eq_some_iff] at hx
  rcases hx with ⟨before, after, heq, -⟩
  rw [heq]
  exact List.mem_append_right _ List.mem_cons_self

theorem handle_of_handle? (ht : r.handle? t = some x) : r.handle t = x := by
  simp [handle, ht]

/-!
# Invariants
-/

/-- What entering the types of a founded list leads to. -/
structure IsSound (hash : Node -> UInt64) (r : Registry) (ts : List Ty) : Prop where
  store : r.store.IsSound hash
  types : r.entries.map Prod.fst = ts
  /-- An entered type has a free handle, which shows its root over the handles of its
  children. -/
  shows : ∀ t x, (t, x) ∈ r.entries -> t.isFixed = false ∧ ¬ x.number < Handle.firstFree ∧
    ∃ L, t.layer? = some L ∧ (∀ c ∈ L.parts, r.knows c) ∧ r.store.Shows x (L.map r.handle)
  /-- A free handle that has a node is that of an entered type. -/
  owned : ∀ x, ¬ x.number < Handle.firstFree -> (r.store.lookup x).isSome = true ->
    ∃ t, (t, x) ∈ r.entries
  lists_le : r.store.lists.size ≤ 1 + r.entries.length
  shapes_le : r.store.shapes.size ≤ r.entries.length

theorem isSound_new : new.IsSound hash [] where
  store := Store.isSound_new
  types := rfl
  shows := by simp [new]
  owned := by
    intro x hx hlookup
    simp [new, Store.lookup, hx, Store.new, Shards.item?, Shards.part_empty, Numbering.item?,
      Numbering.empty] at hlookup
  lists_le := Numbering.size_enter_le _ _
  shapes_le := Nat.le_refl _

namespace IsSound

variable (h : r.IsSound hash ts)
include h

theorem knows_iff : r.knows t = true ↔ t.isFixed = true ∨ t ∈ ts := by
  cases ht : t.fixedHandle? with
  | some x => simp [knows, handle?, Ty.isFixed, ht]
  | none =>
      rw [← h.types]
      simp [knows, handle?, Ty.isFixed, ht, List.lookup_isSome_iff]

/-- Known types with one handle are equal. -/
theorem eq_of_handle?_eq {t u : Ty} {x : Handle} (ht : r.handle? t = some x)
    (hu : r.handle? u = some x) : t = u := by
  cases hfixed : t.fixedHandle? with
  | some y =>
      cases (handle?_of_fixed hfixed).symm.trans ht
      cases hfixed' : u.fixedHandle? with
      | some y =>
          cases (handle?_of_fixed hfixed').symm.trans hu
          exact Ty.fixedHandle?_inj hfixed hfixed'
      | none =>
          have hmem := mem_entries_of_handle? (by simp [Ty.isFixed, hfixed']) hu
          exact absurd (Ty.lt_of_fixedHandle? hfixed) (h.shows u x hmem).2.1
  | none =>
      have hmem := mem_entries_of_handle? (by simp [Ty.isFixed, hfixed]) ht
      rcases h.shows t x hmem with ⟨-, hfree, L, hL, hknown, hshows⟩
      cases hfixed' : u.fixedHandle? with
      | some y =>
          cases (handle?_of_fixed hfixed').symm.trans hu
          exact absurd (Ty.lt_of_fixedHandle? hfixed') hfree
      | none =>
          have hmem' := mem_entries_of_handle? (by simp [Ty.isFixed, hfixed']) hu
          rcases h.shows u x hmem' with ⟨-, -, L', hL', hknown', hshows'⟩
          have hparts : ∀ a ∈ L.parts, ∀ b ∈ L'.parts, r.handle a = r.handle b -> a = b := by
            intro a ha b hb heq
            obtain ⟨y, hy⟩ := Option.isSome_iff_exists.mp (hknown a ha)
            obtain ⟨z, hz⟩ := Option.isSome_iff_exists.mp (hknown' b hb)
            rw [handle_of_handle? hy, handle_of_handle? hz] at heq
            subst heq
            have hsize : a.size < t.size :=
              Ty.size_lt_of_mem_children (Ty.parts_of_layer? hL ▸ ha)
            exact eq_of_handle?_eq hy hz
          have hlayer := Layer.map_inj hparts (hshows.layer_inj hshows')
          exact Ty.layer?_inj hL (hlayer ▸ hL')
termination_by t.size

theorem handle?_of_mem (hnodup : ts.Nodup) (hx : (t, x) ∈ r.entries) : r.handle? t = some x := by
  rw [handle?_of_free (h.shows t x hx).1, List.lookup_eq_some_iff]
  rcases List.append_of_mem hx with ⟨before, after, heq⟩
  refine ⟨before, after, heq, fun p hp => ?_⟩
  rw [← h.types, heq, List.map_append, List.map_cons, List.nodup_append] at hnodup
  rw [bne_iff_ne]
  exact (hnodup.2.2 _ (List.mem_map_of_mem hp) t List.mem_cons_self).symm

/-- There are fewer entries than numbers of 32 bits. -/
theorem length_entries_le (hnodup : ts.Nodup) : r.entries.length + 100 ≤ 2 ^ 32 := by
  have hhandle : ∀ t ∈ ts, ∃ x, r.handle? t = some x ∧ ¬ x.number < Handle.firstFree := by
    intro t ht
    obtain ⟨x, hx⟩ := Option.isSome_iff_exists.mp (h.knows_iff.mpr (.inr ht))
    rw [← h.types, List.mem_map] at ht
    rcases ht with ⟨⟨t, y⟩, hmem, rfl⟩
    exact ⟨x, hx, (h.shows t x (mem_entries_of_handle? (h.shows t y hmem).1 hx)).2.1⟩
  have hnumbers : (ts.map fun t => (r.handle t).number.toNat).Nodup := by
    refine hnodup.map_on fun t ht u hu heq => ?_
    rcases hhandle t ht with ⟨x, hx, -⟩
    rcases hhandle u hu with ⟨y, hy, -⟩
    rw [handle_of_handle? hx, handle_of_handle? hy, UInt32.toNat_inj] at heq
    have hxy : x = y := congrArg Handle.mk heq
    exact h.eq_of_handle?_eq hx (hxy ▸ hy)
  have hrange : (ts.map fun t => (r.handle t).number.toNat).toFinset ⊆ Finset.Ico 100 (2 ^ 32) := by
    intro n hn
    rw [List.mem_toFinset, List.mem_map] at hn
    rcases hn with ⟨t, ht, rfl⟩
    rcases hhandle t ht with ⟨x, hx, hfree⟩
    rw [handle_of_handle? hx, Finset.mem_Ico]
    rw [UInt32.lt_iff_toNat_lt] at hfree
    exact ⟨Nat.le_of_not_lt hfree, x.number.toNat_lt⟩
  have hcard := Finset.card_le_card hrange
  rw [List.toFinset_card_of_nodup hnumbers, List.length_map, Nat.card_Ico, ← h.types,
    List.length_map] at hcard
  omega

theorem hasRoomForParts (hnodup : ts.Nodup) : r.store.HasRoomForParts := by
  have hlength := h.length_entries_le hnodup
  have hlists := h.lists_le
  have hshapes := h.shapes_le
  exact ⟨by omega, by omega⟩

end IsSound

/-!
# Entering a type
-/

theorem later_enter (hash : Node -> UInt64) (r : Registry) (t : Ty) :
    Store.Later hash r.store (r.enter hash t).store := by
  unfold enter
  split
  · exact .refl
  · split
    · exact Store.later_internLayer hash r.store _
    · exact .refl

theorem later_enterAll (hash : Node -> UInt64) (r : Registry) (ts : List Ty) :
    Store.Later hash r.store (r.enterAll hash ts).store := by
  induction ts generalizing r with
  | nil => exact .refl
  | cons t rest ih => exact (later_enter hash r t).trans (ih (r.enter hash t))

theorem size_enter_le (h : r.store.IsSound hash) (t : Ty) (s : Shard) :
    ((r.enter hash t).store.nodes.part s).size ≤ (r.store.nodes.part s).size + 1 := by
  unfold enter
  split
  · exact Nat.le_succ _
  · split
    · exact h.size_internLayer_le _ s
    · exact Nat.le_succ _

theorem size_enterAll_le (h : r.store.IsSound hash) (ts : List Ty) (s : Shard) :
    ((r.enterAll hash ts).store.nodes.part s).size ≤ (r.store.nodes.part s).size + ts.length := by
  induction ts generalizing r with
  | nil => exact Nat.le_refl _
  | cons t rest ih =>
      have hfirst := size_enter_le h t s
      have hrest := ih (h.later (later_enter hash r t)).1
      rw [List.length_cons]
      exact Nat.le_trans hrest (by omega)

/-- However nodes are hashed, there is room for this many types. -/
theorem isBelowCapacity_enterAll (hash : Node -> UInt64) (hfew : ts.length + 2 < 2 ^ 26) :
    (new.enterAll hash ts).store.IsBelowCapacity := by
  intro s
  have hsound : new.store.IsSound hash := Store.isSound_new
  have hsize := size_enterAll_le hsound ts s
  have hnew : (new.store.nodes.part s).size = 0 := by
    simp [new, Store.new, Shards.part_empty, Numbering.empty, Numbering.size]
  have hshard := s.isLt
  omega

/-- The node of a type that has no fixed handle has none either. -/
theorem fixedHandle?_of_layer? {st : Store} {d : Node} {L : Layer Ty} {f : Ty -> Handle}
    (hL : t.layer? = some L) (hfree : t.isFixed = false) (hd : st.layer? d = some (L.map f)) :
    d.fixedHandle? = none := by
  cases d <;> try rfl
  all_goals
    simp only [Store.layer?, Store.layer, Option.some.injEq] at hd
    cases L <;> simp only [Layer.map, reduceCtorEq] at hd
    cases t <;> simp only [Ty.layer?, Option.some.injEq, reduceCtorEq] at hL
    simp [Ty.isFixed, Ty.fixedHandle?] at hfree

/-- The registry after a new type has been entered. -/
theorem enter_of_known {L : Layer Ty} (hL : t.layer? = some L)
    (hknown : ∀ c ∈ L.parts, r.knows c = true) :
    r.enter hash t =
      ⟨(r.store.internLayer hash (L.map r.handle)).2,
        r.entries ++ [(t, (r.store.internLayer hash (L.map r.handle)).1)]⟩ := by
  simp only [enter, hL, List.all_eq_true.mpr hknown, if_true]

theorem handle?_append {store : Store} (hc : r.handle? c = some y) :
    handle? ⟨store, r.entries ++ [(t, x)]⟩ c = some y := by
  unfold handle? at hc ⊢
  split
  · simp_all
  · simp_all [List.lookup_append]

/-- What a new handle has to say for the registry to stay sound. -/
theorem IsSound.append {store : Store} {L : Layer Ty} (h : r.IsSound hash ts)
    (hstore : store.IsSound hash) (hextends : Store.Extends r.store store)
    (hlists : store.lists.size ≤ r.store.lists.size + 1)
    (hshapes : store.shapes.size ≤ r.store.shapes.size + 1) (hfree : t.isFixed = false)
    (hL : t.layer? = some L) (hknown : ∀ c ∈ L.parts, r.knows c = true)
    (hx : ¬ x.number < Handle.firstFree) (hshows : store.Shows x (L.map r.handle))
    (hothers : ∀ y, y ≠ x -> store.lookup y = r.store.lookup y) :
    IsSound hash ⟨store, r.entries ++ [(t, x)]⟩ (ts ++ [t]) := by
  have hhandle : ∀ c, r.knows c = true ->
      handle? ⟨store, r.entries ++ [(t, x)]⟩ c = some (r.handle c) := by
    intro c hc
    obtain ⟨y, hy⟩ := Option.isSome_iff_exists.mp hc
    rw [handle?_append hy, handle_of_handle? hy]
  have hknows : ∀ c, r.knows c = true -> knows ⟨store, r.entries ++ [(t, x)]⟩ c = true :=
    fun c hc => Option.isSome_of_eq_some (hhandle c hc)
  have hlayer : ∀ K : Layer Ty, (∀ c ∈ K.parts, r.knows c = true) ->
      K.map (handle ⟨store, r.entries ++ [(t, x)]⟩) = K.map r.handle :=
    fun K hK => Layer.map_congr fun c hc => handle_of_handle? (hhandle c (hK c hc))
  constructor
  case store => exact hstore
  case types => rw [List.map_append, h.types, List.map_singleton]
  case shows =>
    intro u y hmem
    rcases List.mem_append.mp hmem with hmem | hmem
    · rcases h.shows u y hmem with ⟨hufree, hyfree, K, hK, hKknown, hKshows⟩
      refine ⟨hufree, hyfree, K, hK, fun c hc => hknows c (hKknown c hc), ?_⟩
      rw [hlayer K hKknown]
      exact hextends.shows hKshows
    · cases List.mem_singleton.mp hmem
      refine ⟨hfree, hx, L, hL, fun c hc => hknows c (hknown c hc), ?_⟩
      rwa [hlayer L hknown]
  case owned =>
    intro y hyfree hy
    by_cases hne : y = x
    · exact ⟨t, List.mem_append_right _ (List.mem_singleton.mpr (by rw [hne]))⟩
    · rw [hothers y hne] at hy
      rcases h.owned y hyfree hy with ⟨u, hu⟩
      exact ⟨u, List.mem_append_left _ hu⟩
  case lists_le =>
    have hold := h.lists_le
    show store.lists.size ≤ 1 + (r.entries ++ [(t, x)]).length
    rw [List.length_append, List.length_singleton]
    omega
  case shapes_le =>
    have hold := h.shapes_le
    show store.shapes.size ≤ (r.entries ++ [(t, x)]).length
    rw [List.length_append, List.length_singleton]
    omega

theorem IsSound.enter (h : r.IsSound hash ts) (hnodup : ts.Nodup)
    (hnode : t.layer?.isSome = true) (hfree : t.isFixed = false)
    (hchildren : ∀ c ∈ t.children, c.isFixed = true ∨ c ∈ ts)
    (hroom : (r.enter hash t).store.IsBelowCapacity) :
    (r.enter hash t).IsSound hash (ts ++ [t]) := by
  obtain ⟨L, hL⟩ := Option.isSome_iff_exists.mp hnode
  have hknown : ∀ c ∈ L.parts, r.knows c = true := fun c hc =>
    h.knows_iff.mpr (hchildren c (Ty.parts_of_layer? hL ▸ hc))
  have hextends := (h.store.later (later_enter hash r t)).2
  rw [enter_of_known hL hknown] at hroom hextends ⊢
  rcases h.store.internLayer_eq (L.map r.handle) with ⟨d, st, hadds, hlayer, heq⟩
  have hd := hlayer (h.hasRoomForParts hnodup)
  rw [heq] at hroom hextends ⊢
  have hst := (h.store.later hadds.later).1
  have hstep := hst.intern_step d
  have hbelow := hroom.anti hstep.2
  have hparts : (st.intern hash d).2.lists = st.lists ∧ (st.intern hash d).2.shapes = st.shapes :=
    Store.intern_parts st d
  rcases hst.intern_eq hbelow (fixedHandle?_of_layer? hL hfree hd) with ⟨ticket, hticket, hfits, -⟩
  refine h.append hstep.1 hextends (hparts.1 ▸ hadds.lists) (hparts.2 ▸ hadds.shapes) hfree hL hknown
    ?_ ⟨d, hst.lookup_intern hbelow d, hstep.2.layer? hd⟩ fun y hy => ?_
  · rw [hticket]
    exact Handle.not_ofTicket_lt hfits
  · rw [hst.lookup_intern_of_ne hy, Store.lookup_congr hadds.nodes]

/-- The types of a founded list have handles of their own. -/
theorem isSound_enterAll (hts : IsFounded ts)
    (hroom : (new.enterAll hash ts).store.IsBelowCapacity) :
    (new.enterAll hash ts).IsSound hash ts := by
  induction hts with
  | nil => exact isSound_new
  | @concat ts t hts hnew hnode hfree hchildren ih =>
      have henter : new.enterAll hash (ts ++ [t]) = (new.enterAll hash ts).enter hash t := by
        simp [enterAll, List.foldl_append]
      rw [henter] at hroom ⊢
      have hsound := Store.isSound_new.later (later_enterAll hash new ts)
      have hextends := (hsound.1.later (later_enter hash _ t)).2
      exact (ih (hroom.anti hextends)).enter hts.nodup hnode hfree hchildren hroom

/-!
# The order of handles
-/

/-- The children of a stored node had their handles before it. -/
def IsOrdered (r : Registry) : Prop :=
  ∀ before t x after, r.entries = before ++ (t, x) :: after ->
    ∃ d, r.store.lookup x = some d ∧ ∀ y ∈ r.store.children d,
      y.number < Handle.firstFree ∨ ∃ c, (c, y) ∈ before

/-- A handle is a child of another one. -/
def IsChild (r : Registry) (y x : Handle) : Prop :=
  ∃ d, r.store.lookup x = some d ∧ y ∈ r.store.children d

theorem IsSound.isOrdered (h : r.IsSound hash ts) (hts : IsFounded ts) : r.IsOrdered := by
  intro before t x after heq
  have hmem : (t, x) ∈ r.entries := by
    rw [heq]
    exact List.mem_append_right _ List.mem_cons_self
  have hsplit : ts = before.map Prod.fst ++ t :: after.map Prod.fst := by
    rw [← h.types, heq, List.map_append, List.map_cons]
  rcases h.shows t x hmem with ⟨-, -, L, hL, hknown, d, hd, hdL⟩
  refine ⟨d, hd, fun y hy => ?_⟩
  rw [Store.children, Store.layer_of_layer? hdL, Layer.parts_map, List.mem_map] at hy
  rcases hy with ⟨c, hc, rfl⟩
  obtain ⟨y, hy⟩ := Option.isSome_iff_exists.mp (hknown c hc)
  rw [handle_of_handle? hy]
  rcases hts.child_before hsplit c (Ty.parts_of_layer? hL ▸ hc) with hfixed | hbefore
  · obtain ⟨z, hz⟩ := Option.isSome_iff_exists.mp hfixed
    cases (handle?_of_fixed hz).symm.trans hy
    exact .inl (Ty.lt_of_fixedHandle? hz)
  · rw [List.mem_map] at hbefore
    rcases hbefore with ⟨⟨c, z⟩, hz, rfl⟩
    have hentry : (c, z) ∈ r.entries := by
      rw [heq]
      exact List.mem_append_left _ hz
    cases (h.handle?_of_mem hts.nodup hentry).symm.trans hy
    exact .inr ⟨c, hz⟩

theorem children_of_fixed {st : Store} {d : Node} (hx : x.fixedNode? = some d) :
    st.children d = [] := by
  have hd : d = .error ∨ ∃ k, d = .keyword k := by
    unfold Handle.fixedNode? at hx
    split at hx <;> cases hx <;> simp
  rcases hd with rfl | ⟨k, rfl⟩ <;> rfl

theorem acc_of_fixed (hx : x.number < Handle.firstFree) : Acc r.IsChild x := by
  refine Acc.intro x fun y hy => ?_
  rcases hy with ⟨d, hd, hmem⟩
  rw [Store.lookup, if_pos hx] at hd
  rw [children_of_fixed hd] at hmem
  cases hmem

theorem IsOrdered.acc_of_mem (h : r.IsOrdered) {before after : List (Ty × Handle)}
    (hsplit : r.entries = before ++ after) : ∀ p ∈ before, Acc r.IsChild p.2 := by
  induction before using List.reverseRecOn generalizing after with
  | nil => simp
  | append_singleton before p ih =>
      rw [List.append_assoc, List.singleton_append] at hsplit
      intro q hq
      rcases List.mem_append.mp hq with hq | hq
      · exact ih hsplit q hq
      · obtain rfl : q = p := List.mem_singleton.mp hq
        rcases h before q.1 q.2 after hsplit with ⟨d, hd, hchildren⟩
        refine Acc.intro q.2 fun y hy => ?_
        rcases hy with ⟨d', hd', hmem⟩
        cases hd.symm.trans hd'
        rcases hchildren y hmem with hfixed | ⟨c, hc⟩
        · exact acc_of_fixed hfixed
        · exact ih hsplit (c, y) hc

/-- Nothing is below itself. -/
theorem IsSound.wellFounded_isChild (h : r.IsSound hash ts) (hordered : r.IsOrdered) :
    WellFounded r.IsChild := by
  refine ⟨fun x => ?_⟩
  by_cases hx : x.number < Handle.firstFree
  · exact acc_of_fixed hx
  · cases hlookup : r.store.lookup x with
    | none =>
        refine Acc.intro x fun y hy => ?_
        rcases hy with ⟨d, hd, -⟩
        cases hlookup.symm.trans hd
    | some d =>
        rcases h.owned x hx (Option.isSome_of_eq_some hlookup) with ⟨t, ht⟩
        exact hordered.acc_of_mem (List.append_nil _).symm (t, x) ht

end Registry
end GradualTypes
