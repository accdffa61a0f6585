import GradualTypes.Proofs.CommonParts
import GradualTypes.Proofs.Recursion

/-!
# Generalization widens

A type is contained in what it is generalized to.  Literals and intervals are contained in their
bases, and the types that are made of other types are covariant; the key and the value of an array
that takes the place of a shape are unions, which are above all keys and values.

Intersections need a condition.  Wider members may be found to share no value, although the
members themselves overlap: then nothing is left.  And an intersection that was not distributed
may be distributed when it is made of wider members.
-/

namespace GradualTypes

open Inquiry
open GradualTypes.Intersection (Encloses IsEnclosure IsPartedAmong)
open GradualTypes.Subtype (Certain Contained exact)
open GradualTypes.Ty (Formed IsAlternative)

variable {h : Hierarchy} {options : Options} {precision : Precision} {members ts : List Ty}
  {entries : List (Entry Ty)} {r s t u z : Ty}

/-!
# Wider types
-/

/-- A type takes the place of another one and contains it.  In place of a type that is neither a
union nor an intersection there is no union. -/
structure Widens (h : Hierarchy) (t r : Ty) : Prop where
  formed : Formed (Session.exactly h) r
  complete : r.IsComplete
  error : r = .error -> t = .error
  above : Contained h t r
  flat : t.isSimple = true -> r.unionMembers? = none ∧ r.isDistributed = true

theorem Ty.IsProper.isMissing (ht : t.IsProper h) : t.isMissing = false := by
  have herror := ht.noError
  have hplaceholder := ht.complete.here
  cases t <;> simp_all [Ty.isMissing]

theorem Widens.of_simple (hformed : Formed (Session.exactly h) r) (hcomplete : r.IsComplete)
    (hsimple : r.isSimple = true) (herror : r ≠ .error) (habove : Contained h t r) :
    Widens h t r where
  formed := hformed
  complete := hcomplete
  error := fun heq => absurd heq herror
  above := habove
  flat := fun _ => ⟨Ty.unionMembers?_of_isSimple hsimple, Intersection.isDistributed_of_isSimple hsimple⟩

theorem Widens.refl (hformed : Formed (Session.exactly h) t) (hcomplete : t.IsComplete) :
    Widens h t t where
  formed := hformed
  complete := hcomplete
  error := id
  above := .refl t
  flat := fun hsimple =>
    ⟨Ty.unionMembers?_of_isSimple hsimple, Intersection.isDistributed_of_isSimple hsimple⟩

theorem isAlternative_accessory (a : Accessory) : (Ty.accessory a).IsAlternative h :=
  ⟨⟨.leaf trivial rfl, .leaf (by simp) rfl, by simp⟩, rfl,
    rfl⟩

theorem Widens.isProper (hr : Widens h t r) (herror : t ≠ .error) : r.IsProper h :=
  ⟨hr.formed, hr.complete, fun heq => herror (hr.error heq)⟩

theorem Widens.isAlternative (hr : Widens h t r) (herror : t ≠ .error)
    (hsimple : t.isSimple = true) : r.IsAlternative h :=
  ⟨hr.isProper herror, (hr.flat hsimple).1, (hr.flat hsimple).2⟩

/-!
# Intersections of wider types
-/

/-- Only an error and `never` are below an error. -/
theorem Subtype.eq_error_of_contained (ht : Contained h t .error) (hne : t ≠ .never) :
    t = .error := by
  rcases contained_iff.mp ht with rfl | hcertain
  · rfl
  · cases hcertain.isOrdinary_target hne (by simp)

namespace Intersection

/-- An intersection of alternatives above a type that is not below any interval is above that
type as well, unless two of the members that come together are found to share no value. -/
theorem widens_of (hfinal : h.LeavesClosureFinal) (hz : z.IsAlternative h) (hne : z ≠ .never)
    (hdiscrete : ¬ z.IsDiscrete) (hts : ∀ t ∈ ts, t.IsAlternative h) (htwo : 2 ≤ ts.length)
    (habove : ∀ t ∈ ts, Contained h z t)
    (htogether : ¬ IsPartedAmong h (· ∈ ts.flatMap membersOf)) :
    Widens h z ((of options ts).value (exact h)) := by
  have hE : IsEnclosure h z fun m => m ∈ ts.flatMap membersOf ∧ Encloses h m z :=
    ⟨fun m hm => hm.2, fun q _ _ hq => absurd (hz.isDiscrete hne (.range q) hq.2.above).1 hdiscrete⟩
  have hbelow : ∀ m ∈ membersOf ((of options ts).value (exact h)), Contained h z m := by
    refine (below_of_alternatives hts htwo hfinal hz hne hE habove fun m hm hm' =>
      ⟨hm, hm'⟩).resolve_left ?_
    rintro ⟨-, s, t, hs, ht, hno⟩
    exact htogether ⟨s, t, hs.1, ht.1, hno⟩
  have hformed : Formed (Session.exactly h) ((of options ts).value (exact h)) :=
    (meets_of fun t ht => (hts t ht).proper.formed).value fun _ _ _ => rfl
  have hcomplete : Ty.IsComplete ((of options ts).value (exact h)) :=
    (meets_of_complete h (fun t ht => (hts t ht).proper.formed)
      fun t ht => (hts t ht).proper.complete).value fun _ _ (_ : True) => rfl
  have hflat : ((of options ts).value (exact h)).unionMembers? = none ∧
      ((of options ts).value (exact h)).isDistributed = true := flat_of_alternatives hts htwo
  generalize (of options ts).value (exact h) = r at hbelow hformed hcomplete hflat
  have herror : r ≠ .error := by
    rintro rfl
    exact hz.proper.noError (Subtype.eq_error_of_contained (hbelow _ List.mem_cons_self) hne)
  have hr : r.IsAlternative h := ⟨⟨hformed, hcomplete, herror⟩, hflat.1, hflat.2⟩
  refine ⟨hformed, hcomplete, fun heq => absurd heq herror, ?_, fun _ => hflat⟩
  exact (hz.contained_iff_members hfinal hr).mpr hbelow

/-- Two overlapping types, neither of them an intersection, come together. -/
theorem not_isPartedAmong_pair (hs : membersOf s = [s]) (ht : membersOf t = [t])
    (hst : exact h s t = .maybe) : ¬ IsPartedAmong h (· ∈ [s, t].flatMap membersOf) := by
  have hself : ∀ u, exact h u u ≠ .no := fun u => by simp
  have hst' : exact h s t ≠ .no := by simp [hst]
  rintro ⟨a, b, ha, hb, hab, hba⟩
  simp only [List.flatMap_cons, hs, ht, List.flatMap_nil, List.append_nil, List.singleton_append,
    List.mem_pair] at ha hb
  rcases ha with rfl | rfl <;> rcases hb with rfl | rfl
  · exact hself _ hab
  · exact hst' hab
  · exact hst' hba
  · exact hself _ hab

end Intersection

/-!
# Literals
-/

namespace Generalize

theorem contains_signRange (n : Int) : (signRange n).contains n = true := by
  rw [IntRange.contains_iff]
  unfold signRange
  split
  · simp; omega
  · split <;> simp <;> omega

theorem value_range_signRange (n : Int) :
    (Build.range (signRange n)).value (exact h) = .range (signRange n) := by
  unfold signRange
  split
  · rfl
  · split <;> rfl

theorem widens_literal (hfinal : h.LeavesClosureFinal) (v : Literal) :
    Widens h (.literal v) ((literal options precision v).value (exact h)) := by
  have hbase : Widens h (.literal v) (.keyword v.base) := by
    refine .of_simple (Ty.formed_keyword _) (Ty.isComplete_keyword _) rfl (by simp) ?_
    exact (Certain.fits rfl (by cases v <;> rfl) (.literal_base v)).contained
  unfold literal
  split
  · rename_i n
    rw [value_range_signRange]
    have hne : (signRange n).lo ≠ (signRange n).hi := by
      unfold signRange
      split <;> [skip; split] <;> simp
    have hopen := IntRange.isEmpty_of_contains (contains_signRange n)
    refine .of_simple (Ty.formed_range hopen hne) (Ty.isComplete_range _) rfl (by simp) ?_
    exact (Certain.fits rfl rfl (.literal_range (contains_signRange n))).contained
  · rename_i s
    split
    · exact hbase
    · rename_i hs
      have hz : IsAlternative h (.literal (.text s)) := Ty.isAlternative_literal _
      have hnonEmpty : Contained h (.literal (.text s)) (.accessory .nonEmptyString) :=
        (Certain.fits rfl rfl (.text_nonEmpty hs)).contained
      have hoverlap : exact h .string (.accessory .nonEmptyString) = .maybe := by
        rw [Subtype.exact_of_ne (by simp)]
        rfl
      refine Intersection.widens_of hfinal hz (by simp) (by rintro ⟨⟩)
        (Intersection.isAlternative_pair (Ty.isAlternative_keyword _) (isAlternative_accessory _))
        (Nat.le_refl 2) ?_ (Intersection.not_isPartedAmong_pair rfl rfl hoverlap)
      rw [List.forall_mem_cons, List.forall_mem_singleton]
      exact ⟨hbase.above, hnonEmpty⟩
  · exact hbase

end Generalize

/-!
# Shapes
-/

/-- A union of proper types is proper and above them. -/
theorem Union.above_of (options : Options) (hfinal : h.LeavesClosureFinal) (hne : ts ≠ [])
    (hts : ∀ t ∈ ts, t.IsProper h) :
    ((of options ts).value (exact h)).IsProper h ∧
      ∀ t ∈ ts, Contained h t ((of options ts).value (exact h)) := by
  have hformed := (combines_upTo options.maxUnionShapeMerge (Ty.heights ts) ts hne fun t ht =>
    ⟨(hts t ht).formed, (hts t ht).noError, Ty.height_le_heights ht⟩).value fun _ _ _ => rfl
  have habove : IsAbove (Contained h) ts ((of options ts).value (exact h)) :=
    (meets_of_above (Subtype.isContainment_contained hfinal) (fun _ _ hr => hr.symm)
      (fun t ht => (hts t ht).formed) fun t ht => (hts t ht).complete).value fun _ _ _ => rfl
  exact ⟨⟨hformed.1, habove.complete, hformed.2⟩, habove.above fun t ht => (hts t ht).noError⟩

namespace Generalize

theorem value_key (key : Key) : (Build.key key).value (exact h) = Ty.ofKey key := by
  cases key <;> rfl

/-- The keys and the values of a shape are below the types that stand for all of them. -/
theorem above_keyAndValue (options : Options) (hfinal : h.LeavesClosureFinal) (hne : entries ≠ [])
    (ht : (Ty.shape entries).IsProper h) :
    let pair := (keyAndValue options entries).value (exact h)
    (pair.1.IsProper h ∧ ∀ e ∈ entries, Contained h (Ty.ofKey e.key) pair.1) ∧
      (pair.2.IsProper h ∧ ∀ e ∈ entries, Contained h e.value pair.2) := by
  have hkeys : ∀ t ∈ entries.map fun e => Ty.ofKey e.key, t.IsProper h := by
    rw [List.forall_mem_map]
    intro e he
    cases e.key <;> exact ⟨Ty.formed_literal _, Ty.isComplete_literal _, by simp [Ty.ofKey]⟩
  have hvalues : ∀ t ∈ Ty.entryValues entries, t.IsProper h := by
    refine List.forall_mem_map.mpr fun e he => ?_
    exact ⟨ht.formed.value he, ht.complete.value he, ht.formed.here.2 e he⟩
  have hkey := Union.above_of options hfinal (by simpa using hne) hkeys
  have hvalue := Union.above_of options hfinal (by simpa [Ty.entryValues] using hne) hvalues
  rw [List.forall_mem_map] at hkey
  have hpair : (keyAndValue options entries).value (exact h) =
      ((Union.of options (entries.map fun e => Ty.ofKey e.key)).value (exact h),
        (Union.of options (Ty.entryValues entries)).value (exact h)) := by
    rw [keyAndValue, if_neg (by simpa using hne), value_bind, value_mapM]
    simp only [value_key, value_bind, value_pure]
  rw [hpair]
  exact ⟨hkey, hvalue.1, List.forall_mem_map.mp hvalue.2⟩

end Generalize

theorem isProper_array {key value : Ty} (hkey : key.IsProper h) (hvalue : value.IsProper h) :
    (Ty.array key value).IsProper h := by
  refine ⟨.intro ⟨hkey.noError, hvalue.noError⟩ ?_, .intro (by simp) ?_, by simp⟩
  · rw [Ty.children, List.forall_mem_cons, List.forall_mem_singleton]
    exact ⟨hkey.formed, hvalue.formed⟩
  · rw [Ty.children, List.forall_mem_cons, List.forall_mem_singleton]
    exact ⟨hkey.complete, hvalue.complete⟩

theorem value_array {key value : Ty} (hkey : key ≠ .error) (hvalue : value ≠ .error) :
    (Build.array key value).value (exact h) = .array key value := by
  rw [Build.array, if_neg (by simp [hkey, hvalue])]
  rfl

/-- A shape that has to have some entry is not empty, and so may the array be that takes its
place. -/
theorem widens_nonEmpty (hfinal : h.LeavesClosureFinal) (ht : (Ty.shape entries).IsProper h)
    (hrequired : Shape.hasRequired entries = true) {key value : Ty}
    (harray : Widens h (.shape entries) (.array key value)) :
    Widens h (.shape entries)
      ((Intersection.of options [.array key value, .accessory .nonEmptyArray]).value (exact h)) := by
  have hz : IsAlternative h (.shape entries) := ⟨ht, rfl, rfl⟩
  have hnonEmpty : Contained h (.shape entries) (.accessory .nonEmptyArray) :=
    (Certain.fits rfl rfl (.shape_nonEmpty hrequired)).contained
  have hoverlap : exact h (.array key value) (.accessory .nonEmptyArray) = .maybe := by
    rw [Subtype.exact_of_ne (by simp)]
    rfl
  refine Intersection.widens_of hfinal hz (by simp) (by rintro ⟨⟩)
    (Intersection.isAlternative_pair (harray.isAlternative (by simp) rfl) (isAlternative_accessory _))
    (Nat.le_refl 2) ?_ (Intersection.not_isPartedAmong_pair rfl rfl hoverlap)
  rw [List.forall_mem_cons, List.forall_mem_singleton]
  exact ⟨harray.above, hnonEmpty⟩

/-- A shape goes over to an array type that is above its entries, and that may be required not
to be empty. -/
theorem Generalize.widens_shape (hfinal : h.LeavesClosureFinal) {go : Ty -> Inquiry Ty}
    (hne : entries ≠ []) (ht : (Ty.shape entries).IsProper h)
    (hgo : ∀ u ∈ [((keyAndValue options entries).value (exact h)).1,
      ((keyAndValue options entries).value (exact h)).2], Widens h u ((go u).value (exact h))) :
    Widens h (.shape entries) ((shape options precision go entries).value (exact h)) := by
  obtain ⟨⟨hkey, hkeys⟩, hvalue, hvalues⟩ := above_keyAndValue options hfinal hne ht
  rw [shape, value_bind]
  generalize (keyAndValue options entries).value (exact h) = pair at hgo hkey hkeys hvalue hvalues ⊢
  obtain ⟨key, value⟩ := pair
  rw [List.forall_mem_cons, List.forall_mem_singleton] at hgo
  dsimp only at hgo hkey hkeys hvalue hvalues ⊢
  rw [value_bind, value_bind]
  generalize (go key).value (exact h) = key' at hgo ⊢
  generalize (go value).value (exact h) = value' at hgo ⊢
  have hkey' := hgo.1.isProper hkey.noError
  have hvalue' := hgo.2.isProper hvalue.noError
  have hproper := isProper_array hkey' hvalue'
  have harray : Widens h (.shape entries) (.array key' value') := by
    refine .of_simple hproper.formed hproper.complete rfl (by simp) ?_
    refine (Certain.fits rfl rfl (.shape_array fun e he => ⟨?_, ?_⟩)).contained
    · have hdistinct : (Ty.ofKey e.key).Everywhere Ty.HasDistinctKeys := by
        cases e.key <;> exact .leaf trivial rfl
      exact (hkeys e he).trans hfinal hdistinct hgo.1.above
    · exact (hvalues e he).trans hfinal (Formed.hasDistinctKeys (ht.formed.value he)) hgo.2.above
  rw [value_bind, value_array hkey'.noError hvalue'.noError]
  split
  · rename_i hrequired
    exact widens_nonEmpty hfinal ht hrequired.2 harray
  · exact harray

/-!
# Nodes with wider children
-/

/-- If the type is an intersection, its members are no unions, and of what they bring in when they
are mapped no two types are found to share no value. -/
def StaysTogether (h : Hierarchy) (g : Ty -> Ty) (t : Ty) : Prop :=
  ∀ members, t = .inter members -> (∀ m ∈ members, m.unionMembers? = none) ∧
    ¬ IsPartedAmong h (· ∈ (members.map g).flatMap Intersection.membersOf)

namespace Traversal

variable {g : Ty -> Ty}

theorem widens_object {cls : String} (hargs : ∀ a ∈ ts, Widens h a (g a)) :
    Widens h (.object cls ts) (.object cls (ts.map g)) := by
  refine .of_simple (.intro trivial ?_) (.intro (by simp) ?_) rfl (by simp) ?_
  · exact List.forall_mem_map.mpr fun a ha => (hargs a ha).formed
  · exact List.forall_mem_map.mpr fun a ha => (hargs a ha).complete
  · refine (Certain.fits rfl rfl (.object_arguments rfl (by simp) ?_)).contained
    have hzip : (ts.map id).zip (ts.map g) = ts.map fun a => (a, g a) := List.zip_map'
    rw [List.map_id] at hzip
    rw [hzip]
    exact List.forall_mem_map.mpr fun a ha => (hargs a ha).above

theorem withValues_map (entries : List (Entry Ty)) (g : Ty -> Ty) :
    withValues entries ((Ty.entryValues entries).map g) = entries.map (Entry.mapValue g) := by
  induction entries with
  | nil => rfl
  | cons e rest ih => exact congrArg _ ih

theorem widens_shape (hfinal : h.LeavesClosureFinal) (ht : Formed (Session.exactly h) (.shape entries))
    (hvalues : ∀ e ∈ entries, Widens h e.value (g e.value)) :
    Widens h (.shape entries)
      ((Build.shape (entries.map (Entry.mapValue g))).value (exact h)) := by
  have hkeys : Shape.keys (entries.map (Entry.mapValue g)) = Shape.keys entries := by
    simp [Shape.keys, Entry.mapValue]
  have hformed : ∀ e ∈ entries.map (Entry.mapValue g),
      Formed (Session.exactly h) e.value ∧ e.value ≠ .error :=
    List.forall_mem_map.mpr fun e he =>
      ⟨(hvalues e he).formed, fun heq => ht.here.2 e he ((hvalues e he).error heq)⟩
  have hvalue := (Build.meets_shape (hkeys ▸ ht.here.1) hformed).value fun _ _ _ => rfl
  rw [hvalue]
  refine .of_simple (Ty.formed_shape (hkeys ▸ ht.here.1) hformed) (Ty.isComplete_shape ?_) rfl
    (by simp) ?_
  · exact List.forall_mem_map.mpr fun e he => (hvalues e he).complete
  · refine Union.shape_below_merged (Subtype.isContainment_contained hfinal) (hkeys ▸ .refl _) ?_
    refine List.forall_mem_map.mpr fun e he d hd => ?_
    obtain rfl : e = d := Option.some.inj ((Shape.entry?_eq_self ht.here.1 he).symm.trans hd)
    exact ⟨(hvalues e he).above, id⟩

/-- The marker makes no difference to what a union contains. -/
theorem widens_markBenevolent (hfinal : h.LeavesClosureFinal)
    (ht : t.Everywhere Ty.HasDistinctKeys) (hr : Widens h t r) :
    Widens h t ((Build.markBenevolent r).value (exact h)) := by
  unfold Build.markBenevolent
  split
  · rename_i alternatives
    have hR := Subtype.isContainment_contained hfinal
    refine ⟨.intro hr.formed.here fun c hc => hr.formed.inside hc,
      Ty.isComplete_union.mpr (Ty.isComplete_union.mp hr.complete), by rintro ⟨⟩, ?_, ?_⟩
    · exact hr.above.trans hfinal ht (Union.union_below_union hR hr.formed hr.complete)
    · exact fun hsimple => by cases (hr.flat hsimple).1
  · exact hr

theorem widens_union (hfinal : h.LeavesClosureFinal) {flavor : Flavor}
    (ht : Formed (Session.exactly h) (.union flavor members))
    (hmembers : ∀ m ∈ members, Widens h m (g m)) :
    Widens h (.union flavor members)
      ((rebuild options (.union flavor members) (members.map g)).value (exact h)) := by
  have hne : members ≠ [] := List.ne_nil_of_length_pos (Nat.lt_of_lt_of_le Nat.two_pos ht.here.1.two)
  have hproper : ∀ m ∈ members.map g, m.IsProper h :=
    List.forall_mem_map.mpr fun m hm => (hmembers m hm).isProper (ht.here.1.isMember m hm).1
  obtain ⟨hunion, habove⟩ := Union.above_of options hfinal (by simpa using hne) hproper
  have hbelow : ∀ m ∈ members, Contained h m ((Union.of options (members.map g)).value (exact h)) :=
    fun m hm => (hmembers m hm).above.trans hfinal (Formed.hasDistinctKeys (ht.inside hm))
      (habove _ (List.mem_map_of_mem hm))
  have hplain : Widens h (.union flavor members)
      ((Union.of options (members.map g)).value (exact h)) := by
    generalize (Union.of options (members.map g)).value (exact h) = u at hunion hbelow
    refine ⟨hunion.formed, hunion.complete, fun heq => absurd heq hunion.noError, ?_, by rintro ⟨⟩⟩
    refine (Subtype.isContainment_contained hfinal).union_left hunion.formed.isUnknown
      hunion.isMissing ?_ hne hbelow
    · rintro rfl
      obtain ⟨m, hm⟩ := List.exists_mem_of_ne_nil members hne
      exact (ht.here.1.isMember m hm).2.2.1 (Subtype.eq_never_of_contained (hbelow m hm))
  cases flavor with
  | plain => exact hplain
  | benevolent =>
      show Widens h _ ((Union.benevolentOf options (members.map g)).value (exact h))
      rw [Union.benevolentOf, value_bind]
      exact widens_markBenevolent hfinal (Formed.hasDistinctKeys ht) hplain

theorem widens_inter (hfinal : h.LeavesClosureFinal)
    (ht : Formed (Session.exactly h) (.inter members)) (hcomplete : (Ty.inter members).IsComplete)
    (hmembers : ∀ m ∈ members, Widens h m (g m)) (htogether : StaysTogether h g (.inter members)) :
    Widens h (.inter members) ((Intersection.of options (members.map g)).value (exact h)) := by
  obtain ⟨hflat, hparted⟩ := htogether members rfl
  have hz : IsAlternative h (.inter members) := by
    refine ⟨⟨ht, hcomplete, by simp⟩, rfl, List.all_eq_true.mpr fun m hm => ?_⟩
    rw [hflat m hm]
    rfl
  have hsimple : ∀ m ∈ members, m.isSimple = true := fun m hm => (hz.member hm).2
  refine Intersection.widens_of hfinal hz (by simp) (by rintro ⟨⟩) ?_ (by simpa using ht.here.two)
    ?_ hparted
  · exact List.forall_mem_map.mpr fun m hm =>
      (hmembers m hm).isAlternative (ht.here.isMember m hm).1 (hsimple m hm)
  · refine List.forall_mem_map.mpr fun m hm => ?_
    have hbelow : Contained h (.inter members) m :=
      (Certain.inter_left (hz.isOrdinary_member hm) (hsimple m hm) hm (.refl m)).contained
    exact hbelow.trans hfinal (Formed.hasDistinctKeys ht) (hmembers m hm).above

/-- A node that is made of wider children is wider, unless it is an intersection of types that do
not stay together. -/
theorem widens_update (hfinal : h.LeavesClosureFinal) (ht : Formed (Session.exactly h) t)
    (hcomplete : t.IsComplete) (hg : ∀ c ∈ t.children, Widens h c (g c))
    (htogether : StaysTogether h g t) :
    Widens h t ((update options t (t.children.map g)).value (exact h)) := by
  unfold update
  split
  · exact .refl ht hcomplete
  · rename_i hchanged
    cases t with
    | object cls arguments => exact widens_object hg
    | array key value =>
        rw [Ty.children, List.forall_mem_cons, List.forall_mem_singleton] at hg
        have hkey := hg.1.isProper ht.here.1
        have hvalue := hg.2.isProper ht.here.2
        have hproper := isProper_array hkey hvalue
        show Widens h _ ((Build.array (g key) (g value)).value (exact h))
        rw [value_array hkey.noError hvalue.noError]
        exact .of_simple hproper.formed hproper.complete rfl (by simp)
          (Certain.fits rfl rfl (.array_array hg.1.above hg.2.above)).contained
    | shape entries =>
        show Widens h _ ((Build.shape (withValues entries ((Ty.entryValues entries).map g))).value
          (exact h))
        rw [withValues_map]
        exact widens_shape hfinal ht (List.forall_mem_map.mp hg)
    | union flavor members => exact widens_union hfinal ht hg
    | inter members => exact widens_inter hfinal ht hcomplete hg htogether
    | _ => exact absurd rfl hchanged

end Traversal

/-!
# All types
-/

/-- What a type is generalized to if all questions are followed to their end. -/
def generalized (h : Hierarchy) (options : Options) (precision : Precision) (t : Ty) : Ty :=
  (generalize options precision t).value (exact h)

/-- The members of each intersection inside stay together when they are generalized. -/
def KeepsTogether (h : Hierarchy) (options : Options) (precision : Precision) (t : Ty) : Prop :=
  t.Everywhere (StaysTogether h (generalized h options precision))

theorem isAboutIntersections_staysTogether (g : Ty -> Ty) :
    Ty.IsAboutIntersections (StaysTogether h g) :=
  fun _ ht members heq => absurd heq (ht members)

theorem Generalize.value_node_congr {go : Ty -> Inquiry Ty} {descend descend' : Unit -> Inquiry Ty}
    (hdescend : (descend ()).value (exact h) = (descend' ()).value (exact h)) :
    (node options precision go t descend).value (exact h) =
      (node options precision go t descend').value (exact h) := by
  unfold node
  split
  · rfl
  · split
    · rfl
    · exact hdescend
  · split
    · rfl
    · split
      · exact hdescend
      · rfl
  · exact hdescend

theorem generalized_eq (t : Ty) :
    generalized h options precision t =
      (Generalize.node options precision (generalize options precision) t fun _ =>
        Traversal.update options t (t.children.map (generalized h options precision))).value
          (exact h) := by
  rw [generalized, generalize_eq]
  refine Generalize.value_node_congr ?_
  rw [value_bind, value_mapM]
  rfl

/-- A type is contained in what it is generalized to, if the members of the intersections inside
stay together. -/
theorem widens_generalized (hfinal : h.LeavesClosureFinal) (ht : Formed (Session.exactly h) t)
    (hcomplete : t.IsComplete) (htogether : KeepsTogether h options precision t) :
    Widens h t (generalized h options precision t) := by
  induction t using Ty.nesting_induction with
  | step t hless hchildren =>
      have hdescend : Widens h t ((Traversal.update options t
          (t.children.map (generalized h options precision))).value (exact h)) :=
        Traversal.widens_update hfinal ht hcomplete (fun c hc => hchildren c hc (ht.inside hc)
          (hcomplete.inside hc) (htogether.inside hc)) htogether.here
      rw [generalized_eq]
      cases t with
      | literal v => exact Generalize.widens_literal hfinal v
      | range r =>
          rw [Generalize.node]
          split
          · exact .of_simple (Ty.formed_keyword _) (Ty.isComplete_keyword _) rfl (by simp)
              (Certain.fits rfl rfl (.range_int r)).contained
          · exact hdescend
      | shape entries =>
          rw [Generalize.node]
          split
          · exact .refl ht hcomplete
          · rename_i hne
            rw [List.isEmpty_iff] at hne
            split
            · exact hdescend
            · have hproper : (Ty.shape entries).IsProper h := ⟨ht, hcomplete, by simp⟩
              obtain ⟨k, hk, hvalues⟩ := (Ty.IsNested.mk (Nat.le_refl _) htogether).values
              have hstays : Ty.IsAboutIntersections
                  (StaysTogether h (generalized h options precision)) :=
                isAboutIntersections_staysTogether _
              have hpair := (Generalize.meets_keyAndValue_nested (Session.exactly h) options
                hstays.isCarried (fun _ => hstays _ (by simp)) hvalues).value fun _ _ _ => rfl
              have habove := Generalize.above_keyAndValue options hfinal hne hproper
              have hinside : ∀ {u : Ty},
                  Ty.IsNested (StaysTogether h (generalized h options precision)) k u ->
                  u.IsProper h -> Widens h u (generalized h options precision u) := fun hu hu' =>
                hless _ (hk ▸ Nat.lt_succ_of_le hu.nesting) hu'.formed hu'.complete hu.everywhere
              refine Generalize.widens_shape hfinal hne hproper ?_
              rw [List.forall_mem_cons, List.forall_mem_singleton]
              exact ⟨hinside hpair.1 habove.1.1, hinside hpair.2 habove.2.1⟩
      | _ => exact hdescend

end GradualTypes
