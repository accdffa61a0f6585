import GradualTypes.Proofs.Stores
import GradualTypes.Registry

/-!
# Layers in a store

A handle shows a layer if its node, with the list or the shape in it, says so.  An
interned layer is shown by its handle from then on, and different layers are shown
by different handles.
-/

namespace GradualTypes

namespace Layer

variable {α β : Type} {f : α -> β}

theorem parts_map (f : α -> β) (L : Layer α) : (L.map f).parts = L.parts.map f := by
  cases L <;> simp [map, parts, Entry.mapValue]

theorem map_congr {g : α -> β} {L : Layer α} (h : ∀ a ∈ L.parts, f a = g a) : L.map f = L.map g := by
  cases L <;> simp_all [map, parts, Entry.mapValue]

theorem list_map_inj {γ δ : Type} {g : γ -> δ} {as bs : List γ}
    (h : ∀ a ∈ as, ∀ b ∈ bs, g a = g b -> a = b) (heq : as.map g = bs.map g) : as = bs := by
  induction as generalizing bs with
  | nil => simpa [eq_comm] using heq
  | cons a rest ih =>
      cases bs with
      | nil => simp at heq
      | cons b rest' =>
          simp only [List.map_cons, List.cons.injEq] at heq
          have hhead : a = b := h a List.mem_cons_self b List.mem_cons_self heq.1
          have hrest : rest = rest' :=
            ih (fun c hc d hd => h c (List.mem_cons_of_mem _ hc) d (List.mem_cons_of_mem _ hd)) heq.2
          rw [hhead, hrest]

theorem entries_map_inj {es es' : List (Entry α)}
    (h : ∀ a ∈ es.map (·.value), ∀ b ∈ es'.map (·.value), f a = f b -> a = b)
    (heq : es.map (·.mapValue f) = es'.map (·.mapValue f)) : es = es' := by
  refine list_map_inj (fun e he e' he' hmap => ?_) heq
  have hvalue := h _ (List.mem_map_of_mem he) _ (List.mem_map_of_mem he')
  cases e
  cases e'
  simp only [Entry.mapValue, Entry.mk.injEq] at hmap ⊢
  exact ⟨hmap.1, hvalue hmap.2.1, hmap.2.2⟩

/-- A layer is known by its image if the parts are known by theirs. -/
theorem map_inj {L L' : Layer α} (h : ∀ a ∈ L.parts, ∀ b ∈ L'.parts, f a = f b -> a = b)
    (heq : L.map f = L'.map f) : L = L' := by
  cases L <;> cases L' <;> simp only [map, reduceCtorEq, keyword.injEq, literal.injEq, range.injEq,
    object.injEq, this.injEq, array.injEq, shape.injEq, union.injEq, inter.injEq,
    accessory.injEq] at heq
  case object cls as cls' bs =>
    have hparts : as = bs := list_map_inj h heq.2
    rw [heq.1, hparts]
  case array k v k' v' =>
    have hkey : k = k' := h k List.mem_cons_self k' List.mem_cons_self heq.1
    have hvalue : v = v' :=
      h v (List.mem_cons_of_mem _ List.mem_cons_self) v' (List.mem_cons_of_mem _ List.mem_cons_self)
        heq.2
    rw [hkey, hvalue]
  case shape es es' =>
    have hparts : es = es' := entries_map_inj h heq
    rw [hparts]
  case union flavor as flavor' bs =>
    have hparts : as = bs := list_map_inj h heq.2
    rw [heq.1, hparts]
  case inter as bs =>
    have hparts : as = bs := list_map_inj h heq
    rw [hparts]
  all_goals first | rw [heq] | rfl

end Layer

theorem Ty.parts_of_layer? {t : Ty} {L : Layer Ty} (hL : t.layer? = some L) :
    L.parts = t.children := by
  cases t <;> simp only [layer?, Option.some.injEq, reduceCtorEq] at hL <;> subst hL <;> rfl

theorem Ty.layer?_inj {t u : Ty} {L : Layer Ty} (ht : t.layer? = some L)
    (hu : u.layer? = some L) : t = u := by
  cases t <;> simp only [layer?, Option.some.injEq, reduceCtorEq] at ht <;> subst ht <;>
    cases u <;> simp_all [layer?]

namespace Store

variable {hash : Node -> UInt64} {st st' : Store} {x y : Handle} {d e : Node}
  {L L' : Layer Handle}

/-- A node with its list or its shape, if this is stored. -/
def layer? (st : Store) : Node -> Option (Layer Handle)
  | .object cls l => (st.lists.item? l.number.toNat).map (.object cls)
  | .shape s => (st.shapes.item? s.number.toNat).map .shape
  | .union flavor l => (st.lists.item? l.number.toNat).map (.union flavor)
  | .inter l => (st.lists.item? l.number.toNat).map .inter
  | d => some (st.layer d)

theorem layer_of_layer? (hd : st.layer? d = some L) : st.layer d = L := by
  cases d <;> simp only [layer?, Option.map_eq_some_iff, Option.some.injEq] at hd
  case object cls l | union flavor l | inter l =>
    rcases hd with ⟨xs, hxs, rfl⟩
    simp [layer, list_of_item? hxs]
  case shape s =>
    rcases hd with ⟨entries, hentries, rfl⟩
    simp [layer, shape_of_item? hentries]
  all_goals exact hd

theorem Extends.layer? (hextends : Extends st st') (hd : st.layer? d = some L) :
    st'.layer? d = some L := by
  cases d <;> simp only [Store.layer?, Option.map_eq_some_iff] at hd ⊢
  case object cls l | union flavor l | inter l =>
    rcases hd with ⟨xs, hxs, rfl⟩
    exact ⟨xs, hextends.lists _ _ hxs, rfl⟩
  case shape s =>
    rcases hd with ⟨entries, hentries, rfl⟩
    exact ⟨entries, hextends.shapes _ _ hentries, rfl⟩
  all_goals exact hd

theorem IsSound.listHandle_inj (h : st.IsSound hash) {l l' : ListHandle} {xs : List Handle}
    (hl : st.lists.item? l.number.toNat = some xs) (hl' : st.lists.item? l'.number.toNat = some xs) :
    l = l' :=
  congrArg ListHandle.mk (UInt32.toNat_inj.mp (h.lists.number_inj hl hl'))

theorem IsSound.shapeHandle_inj (h : st.IsSound hash) {s s' : ShapeHandle}
    {entries : List (Entry Handle)} (hs : st.shapes.item? s.number.toNat = some entries)
    (hs' : st.shapes.item? s'.number.toNat = some entries) : s = s' :=
  congrArg ShapeHandle.mk (UInt32.toNat_inj.mp (h.shapes.number_inj hs hs'))

/-- A layer has one node. -/
theorem IsSound.layer?_inj (h : st.IsSound hash) (hd : st.layer? d = some L)
    (he : st.layer? e = some L) : d = e := by
  cases d <;> cases e <;>
    simp only [layer?, layer, Option.map_eq_some_iff, Option.some.injEq] at hd he
  case object.object cls l cls' l' =>
    rcases hd with ⟨xs, hxs, rfl⟩
    rcases he with ⟨ys, hys, heq⟩
    cases heq
    rw [h.listHandle_inj hxs hys]
  case union.union flavor l flavor' l' =>
    rcases hd with ⟨xs, hxs, rfl⟩
    rcases he with ⟨ys, hys, heq⟩
    cases heq
    rw [h.listHandle_inj hxs hys]
  case inter.inter l l' =>
    rcases hd with ⟨xs, hxs, rfl⟩
    rcases he with ⟨ys, hys, heq⟩
    cases heq
    rw [h.listHandle_inj hxs hys]
  case shape.shape s s' =>
    rcases hd with ⟨entries, hs, rfl⟩
    rcases he with ⟨entries', hs', heq⟩
    cases heq
    rw [h.shapeHandle_inj hs hs']
  all_goals grind

/-- The handle is that of a node that says the layer. -/
def Shows (st : Store) (x : Handle) (L : Layer Handle) : Prop :=
  ∃ d, st.lookup x = some d ∧ st.layer? d = some L

theorem Extends.shows (hextends : Extends st st') (hx : st.Shows x L) : st'.Shows x L := by
  rcases hx with ⟨d, hd, hL⟩
  exact ⟨d, hextends.lookup hd, hextends.layer? hL⟩

theorem Shows.layer_inj (hL : st.Shows x L) (hL' : st.Shows x L') : L = L' := by
  rcases hL with ⟨d, hd, hdL⟩
  rcases hL' with ⟨d', hd', hdL'⟩
  cases hd.symm.trans hd'
  exact Option.some.inj (hdL.symm.trans hdL')

theorem later_internLayer (hash : Node -> UInt64) (st : Store) (L : Layer Handle) :
    Later hash st (st.internLayer hash L).2 := by
  cases L with
  | object cls xs => exact (Later.refl.internList xs).intern _
  | shape entries => exact (Later.refl.internShape entries).intern _
  | union flavor xs => exact (Later.refl.internList xs).intern _
  | inter xs => exact (Later.refl.internList xs).intern _
  | _ => exact Later.refl.intern _

/-- A store that differs from another one by one more list or shape at most. -/
structure AddsParts (hash : Node -> UInt64) (st st' : Store) : Prop where
  later : Later hash st st'
  nodes : st'.nodes = st.nodes
  lists : st'.lists.size ≤ st.lists.size + 1
  shapes : st'.shapes.size ≤ st.shapes.size + 1

theorem addsParts_refl (hash : Node -> UInt64) (st : Store) : AddsParts hash st st :=
  ⟨.refl, rfl, Nat.le_succ _, Nat.le_succ _⟩

theorem addsParts_internList (hash : Node -> UInt64) (st : Store) (xs : List Handle) :
    AddsParts hash st (st.internList xs).2 := by
  refine ⟨Later.refl.internList xs, ?_, ?_, ?_⟩ <;> unfold internList <;> split
  · rfl
  · rfl
  · exact Nat.le_succ _
  · exact Numbering.size_enter_le _ _
  · exact Nat.le_succ _
  · exact Nat.le_succ _

theorem addsParts_internShape (hash : Node -> UInt64) (st : Store)
    (entries : List (Entry Handle)) : AddsParts hash st (st.internShape entries).2 :=
  ⟨Later.refl.internShape entries, rfl, Nat.le_succ _, Numbering.size_enter_le _ _⟩

/-- Interning a layer means to intern its list or shape, and then a node for it. -/
theorem IsSound.internLayer_eq (h : st.IsSound hash) (L : Layer Handle) :
    ∃ d st', AddsParts hash st st' ∧ (st.HasRoomForParts -> st'.layer? d = some L) ∧
      st.internLayer hash L = st'.intern hash d := by
  have hrefl := addsParts_refl hash st
  cases L with
  | object cls xs =>
      exact ⟨.object cls (st.internList xs).1, _, addsParts_internList hash st xs,
        fun hroom => by simp [layer?, h.item?_internList hroom xs], rfl⟩
  | union flavor xs =>
      exact ⟨.union flavor (st.internList xs).1, _, addsParts_internList hash st xs,
        fun hroom => by simp [layer?, h.item?_internList hroom xs], rfl⟩
  | inter xs =>
      exact ⟨.inter (st.internList xs).1, _, addsParts_internList hash st xs,
        fun hroom => by simp [layer?, h.item?_internList hroom xs], rfl⟩
  | shape entries =>
      exact ⟨.shape (st.internShape entries).1, _, addsParts_internShape hash st entries,
        fun hroom => by simp [layer?, h.item?_internShape hroom entries], rfl⟩
  | keyword k => exact ⟨.keyword k, st, hrefl, fun _ => rfl, rfl⟩
  | error => exact ⟨.error, st, hrefl, fun _ => rfl, rfl⟩
  | literal v => exact ⟨.literal v, st, hrefl, fun _ => rfl, rfl⟩
  | range r => exact ⟨.range r, st, hrefl, fun _ => rfl, rfl⟩
  | this cls => exact ⟨.this cls, st, hrefl, fun _ => rfl, rfl⟩
  | array key value => exact ⟨.array key value, st, hrefl, fun _ => rfl, rfl⟩
  | accessory a => exact ⟨.accessory a, st, hrefl, fun _ => rfl, rfl⟩

theorem IsSound.size_internLayer_le (h : st.IsSound hash) (L : Layer Handle) (s : Shard) :
    ((st.internLayer hash L).2.nodes.part s).size ≤ (st.nodes.part s).size + 1 := by
  rcases h.internLayer_eq L with ⟨d, st', hadds, -, heq⟩
  rw [heq, ← hadds.nodes]
  exact (h.later hadds.later).1.size_intern_le d s

end Store
end GradualTypes
