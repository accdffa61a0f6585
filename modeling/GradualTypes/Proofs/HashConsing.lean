import GradualTypes.Proofs.Founding

/-!
# Hash consing

Types are compared by their handles.  This is right because the store of a session
corresponds to its types: every node, list and shape has one handle, a handle means
the same through all later operations, two types of the session have one handle only
if they are equal, and the children of a type had their handles before it.
-/

namespace GradualTypes

/-- Handles and contents correspond, now and after any later operations that leave
room for what is interned next. -/
structure Store.IsConsed (hash : Node -> UInt64) (st : Store) : Prop where
  /-- A node can be looked up as soon as it is interned, and from then on. -/
  lookup_intern : ∀ {d later}, Later hash (st.intern hash d).2 later ->
    later.lookup (st.intern hash d).1 = some d
  intern_iff : ∀ {d e later}, Later hash (st.intern hash d).2 later -> later.IsBelowCapacity ->
    ((later.intern hash e).1 = (st.intern hash d).1 ↔ e = d)
  /-- A handle keeps its node. -/
  lookup_later : ∀ {x d later}, Later hash st later -> st.lookup x = some d ->
    later.lookup x = some d
  list_internList : ∀ {xs later}, Later hash (st.internList xs).2 later ->
    later.list (st.internList xs).1 = xs
  internList_iff : ∀ {xs ys later}, Later hash (st.internList xs).2 later ->
    later.HasRoomForParts -> ((later.internList ys).1 = (st.internList xs).1 ↔ ys = xs)
  shape_internShape : ∀ {entries later}, Later hash (st.internShape entries).2 later ->
    later.shape (st.internShape entries).1 = entries
  internShape_iff : ∀ {entries entries' later}, Later hash (st.internShape entries).2 later ->
    later.HasRoomForParts ->
    ((later.internShape entries').1 = (st.internShape entries).1 ↔ entries' = entries)

theorem Store.IsSound.isConsed {hash : Node -> UInt64} {st : Store} (h : st.IsSound hash)
    (hroom : st.IsBelowCapacity) (hparts : st.HasRoomForParts) : st.IsConsed hash where
  lookup_intern := fun hlater =>
    ((h.intern_step _).1.later hlater).2.lookup (h.lookup_intern hroom _)
  intern_iff := h.intern_eq_iff hroom
  lookup_later := fun hlater => (h.later hlater).2.lookup
  list_internList := h.list_internList hparts
  internList_iff := h.internList_eq_iff hparts
  shape_internShape := h.shape_internShape hparts
  internShape_iff := h.internShape_eq_iff hparts

/-- Types and their handles correspond, and the children of a type come before it. -/
structure Registry.IsFaithful (hash : Node -> UInt64) (r : Registry) (announced returned : List Ty) :
    Prop where
  /-- Each announced type is entered once, in the order of the announcements. -/
  entered : r.entries.map Prod.fst = announced ∧ announced.Nodup
  /-- Each type that was returned has a handle, and two of them have one only if they are
  equal. -/
  knows : ∀ t ∈ returned, ∃ x, r.handle? t = some x
  injective : ∀ {t u x}, r.handle? t = some x -> r.handle? u = some x -> t = u
  /-- A handle with a node is fixed or that of an entered type. -/
  owned : ∀ {x d}, r.store.lookup x = some d ->
    x.number < Handle.firstFree ∨ ∃ t, (t, x) ∈ r.entries
  /-- The handle of an entered type shows the same layer from then on. -/
  layer_later : ∀ {t x later}, (t, x) ∈ r.entries -> Store.Later hash r.store later ->
    ∃ d L, t.layer? = some L ∧ later.lookup x = some d ∧ later.layer d = L.map r.handle
  ordered : r.IsOrdered
  acyclic : WellFounded r.IsChild

theorem Registry.IsSound.isFaithful {hash : Node -> UInt64} {r : Registry} {types ts : List Ty}
    (h : r.IsSound hash types) (htypes : GradualTypes.IsFounded types)
    (hts : ∀ t ∈ ts, t.isFixed = true ∨ t ∈ types) : r.IsFaithful hash types ts where
  entered := ⟨h.types, htypes.nodup⟩
  knows := fun t ht => Option.isSome_iff_exists.mp (h.knows_iff.mpr (hts t ht))
  injective := h.eq_of_handle?_eq
  owned := fun {x d} hx => by
    by_cases hfixed : x.number < Handle.firstFree
    · exact .inl hfixed
    · exact .inr (h.owned x hfixed (Option.isSome_of_eq_some hx))
  layer_later := fun {t x later} hmem hlater => by
    rcases h.shows t x hmem with ⟨-, -, L, hL, -, hshows⟩
    rcases (h.store.later hlater).2.shows hshows with ⟨d, hd, hdL⟩
    exact ⟨d, L, hL, hd, Store.layer_of_layer? hdL⟩
  ordered := h.isOrdered htypes
  acyclic := h.wellFounded_isChild (h.isOrdered htypes)

/-- Whatever a session does, it does to its store by a sequence of operations. -/
theorem Session.later_perform {α : Type} (hash : Node -> UInt64) (σ : Session) (q : Inquiry α) :
    Store.Later hash (σ.registry hash).store ((σ.perform q).2.registry hash).store := by
  have hretains : Retains σ (σ.perform q).2 := run_retains (answer_retains relationDepth) q σ
  rcases hretains.added with ⟨added, hadded⟩
  have happend : (σ.perform q).2.registry hash = (σ.registry hash).enterAll hash added := by
    rw [registry, registry, hadded, Registry.enterAll, List.foldl_append]
    rfl
  rw [happend]
  exact Registry.later_enterAll hash _ added

end GradualTypes
