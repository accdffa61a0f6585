import GradualTypes.Config.Load
import Mathlib.Data.List.Basic
import Mathlib.Data.List.Induction

/-!
# Loading from base to base

A configuration may name a base, and that one another base.  The way from base to base ends with a
configuration that names none; with a file that cannot be read or parsed; or with a file that was
on the way before.  Loading goes along this way, and takes each option from the first file that
sets it.
-/

namespace GradualTypes
namespace Config
namespace Path

variable {path directory name part : String} {kept rest : List String}

/-!
# Parts of paths
-/

theorem not_mem_of_mem_splitOn {cs l : List Char} (hl : l ∈ cs.splitOn '/') : '/' ∉ l := by
  induction cs generalizing l with
  | nil => simp_all
  | cons c cs ih =>
      rw [List.splitOn_cons_eq_if_modifyHead] at hl
      split at hl
      · rcases List.mem_cons.mp hl with rfl | hl
        · simp
        · exact ih hl
      · rename_i hc
        obtain ⟨m, ms, heq⟩ := List.exists_cons_of_ne_nil (List.splitOn_ne_nil '/' cs)
        rw [heq, List.modifyHead_cons] at hl
        rcases List.mem_cons.mp hl with rfl | hl
        · have hm := ih (heq ▸ List.mem_cons_self)
          exact fun hmem => (List.mem_cons.mp hmem).elim (fun h => hc (beq_iff_eq.mpr h.symm)) hm
        · exact ih (heq ▸ List.mem_cons_of_mem m hl)

theorem not_slash_of_mem_parts (hpart : part ∈ parts path) : '/' ∉ part.toList := by
  obtain ⟨l, hl, rfl⟩ := List.mem_map.mp hpart
  rw [String.toList_ofList]
  exact not_mem_of_mem_splitOn hl

theorem toList_ofParts (ps : List String) :
    (ofParts ps).toList = ['/'].intercalate (ps.map String.toList) := by
  rw [ofParts, String.toList_intercalate]
  rfl

theorem ofParts_parts (path : String) : ofParts (parts path) = path := by
  rw [← String.toList_inj, toList_ofParts, parts, List.map_map]
  have hid : String.toList ∘ String.ofList = id := funext fun _ => String.toList_ofList
  rw [hid, List.map_id, List.intercalate_splitOn]

theorem parts_ofParts (hne : kept ≠ []) (hkept : ∀ part ∈ kept, '/' ∉ part.toList) :
    parts (ofParts kept) = kept := by
  have hsplit : ∀ l ∈ kept.map String.toList, '/' ∉ l := by simpa using hkept
  rw [parts, toList_ofParts, List.splitOn_intercalate '/' hsplit (by simpa using hne), List.map_map]
  have hid : String.ofList ∘ String.toList = id := funext fun _ => String.ofList_toList
  rw [hid, List.map_id]

theorem ofParts_append (hkept : kept ≠ []) (hrest : rest ≠ []) :
    ofParts (kept ++ rest) = ofParts kept ++ "/" ++ ofParts rest :=
  String.intercalate_append_of_ne_nil hkept hrest

theorem ofParts_concat_append (kept : List String) (part suffix : String) :
    ofParts (kept ++ [part]) ++ suffix = ofParts (kept ++ [part ++ suffix]) := by
  cases kept with
  | nil => rw [List.nil_append, List.nil_append, ofParts, ofParts, String.intercalate_singleton,
      String.intercalate_singleton]
  | cons k kept =>
      rw [ofParts_append (by simp) (by simp), ofParts_append (by simp) (by simp), ofParts, ofParts,
        ofParts, String.intercalate_singleton, String.intercalate_singleton, String.append_assoc]

theorem names_eq (path : String) : names path = (parts path).filter fun part => !isIdle part :=
  rfl

/-- The parts up to the last one that leads somewhere. -/
theorem trimEnd_cases (ps : List String) :
    (trimEnd ps = [] ∧ ps.filter (fun part => !isIdle part) = []) ∨
      ∃ kept part rest, trimEnd ps = kept ++ [part] ∧ isIdle part = false ∧
        ps = kept ++ [part] ++ rest ∧ ps.filter (fun part => !isIdle part) =
          kept.filter (fun part => !isIdle part) ++ [part] := by
  induction ps using List.reverseRecOn with
  | nil => exact .inl ⟨rfl, rfl⟩
  | append_singleton ps part ih =>
      cases hidle : isIdle part with
      | false =>
          refine .inr ⟨ps, part, [], ?_, hidle, (List.append_nil _).symm, ?_⟩
          · simp [trimEnd, hidle]
          · simp [hidle]
      | true =>
          have htrim : trimEnd (ps ++ [part]) = trimEnd ps := by simp [trimEnd, hidle]
          have hfilter : (ps ++ [part]).filter (fun part => !isIdle part) =
              ps.filter fun part => !isIdle part := by simp [hidle]
          rw [htrim, hfilter]
          rcases ih with hnone | ⟨kept, last, rest, heq, hlast, hps, hnames⟩
          · exact .inl hnone
          · exact .inr ⟨kept, last, rest ++ [part], heq, hlast, by simp [hps], hnames⟩

theorem toList_ne_nil_of_not_idle (hpart : isIdle part = false) : part.toList ≠ [] := by
  rintro hnil
  rw [String.toList_eq_nil_iff.mp hnil] at hpart
  exact absurd hpart (by decide)

/-- The parts up to one that leads somewhere begin like the whole path. -/
theorem isAbsolute_ofParts (hpart : isIdle part = false)
    (hparts : parts path = kept ++ [part] ++ rest) (suffix : String) :
    isAbsolute (ofParts (kept ++ [part]) ++ suffix) = isAbsolute path := by
  have hpath : ∃ suffix', path = ofParts (kept ++ [part]) ++ suffix' := by
    rw [← ofParts_parts path, hparts]
    cases rest with
    | nil => exact ⟨"", by simp⟩
    | cons r rest =>
        exact ⟨"/" ++ ofParts (r :: rest), by
          rw [ofParts_append (by simp) (by simp), String.append_assoc]⟩
  have hne : (ofParts (kept ++ [part])).toList ≠ [] := by
    have hlast := toList_ne_nil_of_not_idle hpart
    cases kept with
    | nil => rwa [List.nil_append, ofParts, String.intercalate_singleton]
    | cons k kept =>
        rw [ofParts_append (by simp) (by simp)]
        simp
  obtain ⟨suffix', hpath⟩ := hpath
  obtain ⟨c, cs, hcs⟩ := List.exists_cons_of_ne_nil hne
  rw [hpath, isAbsolute, isAbsolute, String.toList_append, String.toList_append, hcs]
  rfl

theorem names_start (path : String) : names (start path) = [] := by
  unfold start
  split
  · decide
  · split <;> decide

theorem isAbsolute_start (path : String) : isAbsolute (start path) = isAbsolute path := by
  unfold start
  split
  · rename_i habsolute
    rw [habsolute]
    decide
  · rename_i hrelative
    rw [Bool.not_eq_true] at hrelative
    rw [hrelative]
    split <;> decide

theorem names_ofParts (hne : kept ≠ []) (hkept : ∀ part ∈ kept, '/' ∉ part.toList) :
    names (ofParts kept) = kept.filter fun part => !isIdle part := by
  rw [names, parts_ofParts hne hkept]

theorem names_concat (hpart : isIdle part = false) (hkept : ∀ k ∈ kept ++ [part], '/' ∉ k.toList) :
    names (ofParts (kept ++ [part])) = kept.filter (fun part => !isIdle part) ++ [part] := by
  rw [names_ofParts (by simp) hkept, List.filter_append,
    List.filter_cons_of_pos (by simpa using hpart), List.filter_nil]

/-- The directory of a path leads to where all names but the last one lead. -/
theorem names_parent (path : String) : names (parent path) = (names path).dropLast := by
  have hslash : ∀ {ps : List String}, ps ⊆ parts path -> ∀ k ∈ ps, '/' ∉ k.toList :=
    fun hps k hk => not_slash_of_mem_parts (hps hk)
  rw [parent, names_eq path]
  rcases trimEnd_cases (parts path) with
    ⟨htrim, hnames⟩ | ⟨kept, last, rest, htrim, -, hparts, hnames⟩
  · rw [htrim, hnames]
    exact names_start path
  · rw [htrim, hnames, List.dropLast_concat, List.dropLast_concat]
    rcases trimEnd_cases kept with
      ⟨hnone, hempty⟩ | ⟨before, part, after, hsome, hpart, rfl, hbefore⟩
    · rw [hnone, hempty]
      exact names_start path
    · rw [hsome, hbefore]
      split
      · simp_all
      · exact names_concat hpart (hslash (by rw [hparts]; simp))

theorem isAbsolute_parent (path : String) : isAbsolute (parent path) = isAbsolute path := by
  rw [parent]
  rcases trimEnd_cases (parts path) with ⟨htrim, -⟩ | ⟨kept, last, rest, htrim, -, hparts, -⟩
  · rw [htrim]
    exact isAbsolute_start path
  · rw [htrim, List.dropLast_concat]
    rcases trimEnd_cases kept with ⟨hnone, -⟩ | ⟨before, part, after, hsome, hpart, rfl, -⟩
    · rw [hnone]
      exact isAbsolute_start path
    · rw [hsome]
      split
      · simp_all
      · have hparts' : parts path = before ++ [part] ++ (after ++ [last] ++ rest) := by
          rw [hparts]
          simp only [List.append_assoc]
        simpa using isAbsolute_ofParts hpart hparts' ""

/-!
# The paths of bases
-/

/-- Names of which the last one has an extension, unless it leads upwards. -/
def extended (names : List String) : List String :=
  match names.getLast? with
  | none => names
  | some name =>
      if name = ".." ∨ hasExtension name then names else names.dropLast ++ [name ++ ".json"]

theorem isIdle_json (name : String) : isIdle (name ++ ".json") = false := by
  have hlength : 5 ≤ (name ++ ".json").length := by
    rw [String.length_append]
    exact Nat.le_add_left 5 name.length
  rw [isIdle, Bool.or_eq_false_iff, beq_eq_false_iff_ne, beq_eq_false_iff_ne]
  constructor <;> intro heq <;> rw [heq] at hlength <;> exact absurd hlength (by decide)

theorem names_withExtension (path : String) :
    names (withExtension path) = extended (names path) := by
  rw [withExtension, fileName?, extended, names_eq path]
  rcases trimEnd_cases (parts path) with
    ⟨htrim, hnames⟩ | ⟨kept, last, rest, htrim, hlast, hparts, hnames⟩
  · rw [htrim, hnames]
    exact hnames
  · rw [htrim, hnames, List.getLast?_concat, List.getLast?_concat, List.dropLast_concat]
    by_cases hup : last = ".."
    · subst hup
      exact hnames
    · have hname : (some last).filter (· != "..") = some last := by simp [hup]
      rw [hname]
      by_cases hextension : hasExtension last = true
      · simp only [hup, hextension, if_true, or_true]
        exact hnames
      · have hslash : ∀ k ∈ kept ++ [last], '/' ∉ k.toList := fun k hk =>
          not_slash_of_mem_parts (hparts ▸ List.mem_append_left rest hk)
        obtain ⟨hkept, hends⟩ := List.forall_mem_append.mp hslash
        simp only [hup, hextension]
        rw [ofParts_concat_append]
        refine names_concat (isIdle_json last) (List.forall_mem_append.mpr ⟨hkept, ?_⟩)
        simpa using hends

theorem isAbsolute_withExtension (path : String) :
    isAbsolute (withExtension path) = isAbsolute path := by
  rw [withExtension, fileName?]
  rcases trimEnd_cases (parts path) with ⟨htrim, -⟩ | ⟨kept, last, rest, htrim, hlast, hparts, -⟩
  · rw [htrim]
    rfl
  · rw [htrim, List.getLast?_concat]
    split
    · rfl
    · split
      · rfl
      · exact isAbsolute_ofParts hlast hparts ".json"

theorem names_append_slash (directory path : String) :
    names (directory ++ "/" ++ path) = names directory ++ names path := by
  have hsplit : (directory ++ "/" ++ path).toList.splitOn '/' =
      directory.toList.splitOn '/' ++ path.toList.splitOn '/' := by
    rw [String.toList_append, String.toList_append, List.append_assoc]
    exact List.splitOn_append_cons_self _ _
  rw [names, names, names, parts, hsplit, List.map_append, List.filter_append]
  rfl

theorem names_append_of_closed (hend : directory.toList.getLast?.all (· == '/') = true)
    (path : String) : names (directory ++ path) = names directory ++ names path := by
  rcases List.eq_nil_or_concat directory.toList with hnil | ⟨cs, c, hcs⟩
  · rw [String.toList_eq_nil_iff.mp hnil, String.empty_append]
    rfl
  · rw [List.concat_eq_append] at hcs
    rw [hcs, List.getLast?_concat, Option.all_some, beq_iff_eq] at hend
    subst hend
    have hdirectory : directory = String.ofList cs ++ "/" := by
      rw [← String.toList_inj, hcs, String.toList_append, String.toList_ofList]
      rfl
    have hempty := names_append_slash (String.ofList cs) ""
    rw [String.append_empty] at hempty
    rw [hdirectory, names_append_slash, hempty]
    simp [names, parts, isIdle]

/-- A path leads on from a directory, unless it starts at the root. -/
theorem names_join (directory path : String) :
    names (join directory path) =
      if isAbsolute path then names path else names directory ++ names path := by
  rw [join]
  split
  · rfl
  · split
    · rename_i hend
      exact names_append_of_closed hend path
    · exact names_append_slash directory path

theorem isAbsolute_join (directory path : String) :
    isAbsolute (join directory path) = (isAbsolute path || isAbsolute directory) := by
  rw [join]
  split
  · rename_i habsolute
    rw [habsolute, Bool.true_or]
  · rename_i hrelative
    rw [Bool.not_eq_true] at hrelative
    rw [hrelative, Bool.false_or]
    cases hdirectory : directory.toList with
    | nil =>
        rw [String.toList_eq_nil_iff.mp hdirectory]
        simpa using hrelative.trans (by decide : false = isAbsolute "")
    | cons c cs => split <;> simp [isAbsolute, hdirectory]

/-- A base is named by a path from the directory of the file that names it, or from the root, with
the extension `json` if it has none. -/
theorem ofBase_leads (current name : String) :
    names (ofBase current name) =
        (if isAbsolute name then [] else (names current).dropLast) ++ extended (names name) ∧
      isAbsolute (ofBase current name) = (isAbsolute name || isAbsolute current) := by
  rw [ofBase, names_join, isAbsolute_join, isAbsolute_withExtension, names_withExtension,
    names_parent, isAbsolute_parent]
  refine ⟨?_, rfl⟩
  split <;> rfl

end Path

/-!
# Ways from base to base
-/

/-- A file that can be read and parsed. -/
def FileSystem.Holds (fs : FileSystem) (path : String) (config : Config) : Prop :=
  ∃ source, fs.read path = .ok source ∧ parse source = .ok config

/-- Files from a path up to another one, each of them read and parsed, and based on the next. -/
inductive Way (fs : FileSystem) : String -> List (String × Config) -> String -> Prop where
  | here (path : String) : Way fs path [] path
  | base {path name last : String} {config : Config} {files : List (String × Config)}
      (hfile : fs.Holds path config) (hname : config.base = some name)
      (hway : Way fs (Path.ofBase path name) files last) :
      Way fs path ((path, config) :: files) last

def FileSystem.places (fs : FileSystem) (files : List (String × Config)) : List (List String) :=
  files.map fun file => fs.place file.1

/-- The configuration with each option as in the first one that sets it. -/
def ofFirst (configs : List Config) : Config where
  base := none
  strictTypes := configs.findSome? (·.strictTypes)
  maxShapeExpansion := configs.findSome? (·.maxShapeExpansion)
  maxUnionShapeMerge := configs.findSome? (·.maxUnionShapeMerge)
  maxIntersectionDistribution := configs.findSome? (·.maxIntersectionDistribution)
  benevolentAcceptance := configs.findSome? (·.benevolentAcceptance)

variable {fs : FileSystem} {path last : String} {config : Config} {files : List (String × Config)}
  {visited : List (List String)}

theorem inherit_ofFirst (config : Config) (configs : List Config) :
    config.inherit (ofFirst configs) = ofFirst (config :: configs) := by
  have hfirst : ∀ {α : Type} (f : Config -> Option α),
      (f config).or (configs.findSome? f) = (config :: configs).findSome? f := by
    intro α f
    rw [List.findSome?_cons]
    cases f config <;> rfl
  simp only [inherit, ofFirst, hfirst]

theorem ofFirst_singleton (hbase : config.base = none) : ofFirst [config] = config := by
  cases config
  simp_all [ofFirst]

theorem loadFrom_visited (hvisited : fs.place path ∈ visited) :
    loadFrom fs visited path = .error (.cycle (fs.canonical path)) := by
  rw [loadFrom, dif_pos hvisited]

theorem loadFrom_unreadable {fault : ReadFault} (hnew : fs.place path ∉ visited)
    (hread : fs.read path = .error fault) :
    loadFrom fs visited path = .error (.unreadable path fault) := by
  rw [loadFrom, dif_neg hnew]
  split <;> simp_all

theorem loadFrom_unparsable {source : String} {fault : Json.Fault}
    (hnew : fs.place path ∉ visited) (hread : fs.read path = .ok source)
    (hparse : parse source = .error fault) :
    loadFrom fs visited path = .error (.unparsable path fault) := by
  rw [loadFrom, dif_neg hnew]
  split <;> simp_all

theorem loadFrom_end (hnew : fs.place path ∉ visited) (hfile : fs.Holds path config)
    (hbase : config.base = none) : loadFrom fs visited path = .ok config := by
  obtain ⟨source, hread, hparse⟩ := hfile
  rw [loadFrom, dif_neg hnew]
  split <;> simp_all

theorem loadFrom_base {name : String} (hnew : fs.place path ∉ visited)
    (hfile : fs.Holds path config) (hname : config.base = some name) :
    loadFrom fs visited path =
      (loadFrom fs (fs.place path :: visited) (Path.ofBase path name)).map config.inherit := by
  obtain ⟨source, hread, hparse⟩ := hfile
  rw [loadFrom, dif_neg hnew]
  split <;> simp_all
  cases loadFrom fs (fs.place path :: visited) (Path.ofBase path name) <;> rfl

/-- What loading comes to at the end of a way. -/
inductive Ends (fs : FileSystem) (visited : List (List String)) (path : String) :
    Except LoadError Config -> Prop where
  | visited (hvisited : fs.place path ∈ visited) :
      Ends fs visited path (.error (.cycle (fs.canonical path)))
  | unreadable {fault : ReadFault} (hnew : fs.place path ∉ visited)
      (hread : fs.read path = .error fault) :
      Ends fs visited path (.error (.unreadable path fault))
  | unparsable {source : String} {fault : Json.Fault} (hnew : fs.place path ∉ visited)
      (hread : fs.read path = .ok source) (hparse : parse source = .error fault) :
      Ends fs visited path (.error (.unparsable path fault))
  | loaded {config : Config} (hnew : fs.place path ∉ visited) (hfile : fs.Holds path config)
      (hbase : config.base = none) : Ends fs visited path (.ok config)

theorem Ends.loadFrom_eq {result : Except LoadError Config} (hend : Ends fs visited path result) :
    loadFrom fs visited path = result := by
  cases hend with
  | visited hvisited => exact loadFrom_visited hvisited
  | unreadable hnew hread => exact loadFrom_unreadable hnew hread
  | unparsable hnew hread hparse => exact loadFrom_unparsable hnew hread hparse
  | loaded hnew hfile hbase => exact loadFrom_end hnew hfile hbase

/-- Loading goes along a way of places that are not visited yet. -/
theorem loadFrom_along (hway : Way fs path files last) (hnew : (fs.places files).Nodup)
    (hvisited : (fs.places files).Disjoint visited) :
    loadFrom fs visited path =
      (loadFrom fs ((fs.places files).reverse ++ visited) last).map fun config =>
        (files.map (·.2)).foldr inherit config := by
  induction hway generalizing visited with
  | here path =>
      change _ = (loadFrom fs visited path).map id
      cases loadFrom fs visited path <;> rfl
  | @base path name last config files hfile hname _ ih =>
      obtain ⟨hpath, hfiles⟩ := List.nodup_cons.mp hnew
      obtain ⟨hfresh, hapart⟩ := List.disjoint_cons_left.mp hvisited
      have hapart' : (fs.places files).Disjoint (fs.place path :: visited) :=
        List.disjoint_cons_right.mpr ⟨hpath, hapart⟩
      have hvisits : (fs.places ((path, config) :: files)).reverse ++ visited =
          (fs.places files).reverse ++ fs.place path :: visited := by
        simp [FileSystem.places]
      rw [loadFrom_base hfresh hfile hname, ih hfiles hapart', hvisits]
      cases loadFrom fs ((fs.places files).reverse ++ fs.place path :: visited) last <;> rfl

/-- Every load goes along a way up to its end. -/
theorem exists_way (fs : FileSystem) (visited : List (List String)) (path : String) :
    ∃ files last result, Way fs path files last ∧ (fs.places files).Nodup ∧
      (fs.places files).Disjoint visited ∧
        Ends fs ((fs.places files).reverse ++ visited) last result := by
  have hends : ∀ {result}, Ends fs visited path result ->
      ∃ files last result, Way fs path files last ∧ (fs.places files).Nodup ∧
        (fs.places files).Disjoint visited ∧
          Ends fs ((fs.places files).reverse ++ visited) last result := fun hend =>
    ⟨[], path, _, Way.here path, List.nodup_nil, List.disjoint_nil_left visited, hend⟩
  by_cases hvisited : fs.place path ∈ visited
  · exact hends (.visited hvisited)
  · cases hread : fs.read path with
    | error fault => exact hends (.unreadable hvisited hread)
    | ok source =>
        cases hparse : parse source with
        | error fault => exact hends (.unparsable hvisited hread hparse)
        | ok config =>
            cases hname : config.base with
            | none => exact hends (.loaded hvisited ⟨source, hread, hparse⟩ hname)
            | some name =>
                obtain ⟨files, last, result, hway, hnew, hapart, hend⟩ :=
                  exists_way fs (fs.place path :: visited) (Path.ofBase path name)
                obtain ⟨hpath, hrest⟩ := List.disjoint_cons_right.mp hapart
                refine ⟨(path, config) :: files, last, result,
                  .base ⟨source, hread, hparse⟩ hname hway, List.nodup_cons.mpr ⟨hpath, hnew⟩,
                  List.disjoint_cons_left.mpr ⟨hvisited, hrest⟩, ?_⟩
                simpa [FileSystem.places] using hend
termination_by (fs.files.filter (· ∉ visited)).length
decreasing_by exact length_unvisited_lt (fs.mem_files hread) hvisited

theorem foldr_inherit (configs : List Config) (hbase : config.base = none) :
    configs.foldr inherit config = ofFirst (configs ++ [config]) := by
  induction configs with
  | nil => exact (ofFirst_singleton hbase).symm
  | cons first configs ih => rw [List.foldr_cons, ih, inherit_ofFirst, List.cons_append]

theorem load_along (hway : Way fs path files last) (hnew : (fs.places files).Nodup)
    {result : Except LoadError Config} (hend : Ends fs (fs.places files).reverse last result) :
    load fs path = result.map fun config => (files.map (·.2)).foldr inherit config := by
  have hload := loadFrom_along hway hnew (List.disjoint_nil_right _)
  rwa [List.append_nil, hend.loadFrom_eq] at hload

theorem exists_way_of_load (fs : FileSystem) (path : String) :
    ∃ files last result, Way fs path files last ∧ (fs.places files).Nodup ∧
      Ends fs (fs.places files).reverse last result ∧
        load fs path = result.map fun config => (files.map (·.2)).foldr inherit config := by
  obtain ⟨files, last, result, hway, hnew, -, hend⟩ := exists_way fs [] path
  rw [List.append_nil] at hend
  exact ⟨files, last, result, hway, hnew, hend, load_along hway hnew hend⟩

theorem load_eq_ok_iff {result : Config} : load fs path = .ok result ↔
    ∃ files last config, Way fs path files last ∧ fs.Holds last config ∧ config.base = none ∧
      (fs.places (files ++ [(last, config)])).Nodup ∧
        result = ofFirst ((files ++ [(last, config)]).map (·.2)) := by
  have hplaces : ∀ {files last config}, (fs.places (files ++ [(last, config)])).Nodup ↔
      (fs.places files).Nodup ∧ fs.place last ∉ (fs.places files).reverse := by
    intro files last config
    rw [FileSystem.places, List.map_append, List.nodup_append, List.mem_reverse]
    simp only [List.map_singleton, List.forall_mem_singleton]
    exact and_congr_right fun _ =>
      (and_iff_right (List.pairwise_singleton _ _)).trans List.forall_mem_ne'
  constructor
  · intro hload
    obtain ⟨files, last, end', hway, hnew, hend, heq⟩ := exists_way_of_load fs path
    cases hend with
    | visited | unreadable | unparsable => cases hload.symm.trans heq
    | @loaded config hfresh hfile hbase =>
        refine ⟨files, last, config, hway, hfile, hbase, hplaces.mpr ⟨hnew, hfresh⟩, ?_⟩
        rw [List.map_append, List.map_singleton, ← foldr_inherit _ hbase]
        exact Except.ok.inj (hload.symm.trans heq)
  · rintro ⟨files, last, config, hway, hfile, hbase, hnodup, rfl⟩
    obtain ⟨hnew, hfresh⟩ := hplaces.mp hnodup
    rw [load_along hway hnew (.loaded hfresh hfile hbase), List.map_append, List.map_singleton,
      ← foldr_inherit _ hbase]
    rfl

theorem load_eq_error_iff {error : LoadError} : load fs path = .error error ↔
    ∃ files last, Way fs path files last ∧ (fs.places files).Nodup ∧
      (fs.place last ∈ fs.places files ∧ error = .cycle (fs.canonical last) ∨
        fs.place last ∉ fs.places files ∧
          ((∃ fault, fs.read last = .error fault ∧ error = .unreadable last fault) ∨
            ∃ source fault, fs.read last = .ok source ∧ parse source = .error fault ∧
              error = .unparsable last fault)) := by
  constructor
  · intro hload
    obtain ⟨files, last, end', hway, hnew, hend, heq⟩ := exists_way_of_load fs path
    refine ⟨files, last, hway, hnew, ?_⟩
    rw [← List.mem_reverse]
    cases hend with
    | visited hvisited =>
        exact .inl ⟨hvisited, Except.error.inj (hload.symm.trans heq)⟩
    | unreadable hfresh hread =>
        exact .inr ⟨hfresh, .inl ⟨_, hread, Except.error.inj (hload.symm.trans heq)⟩⟩
    | unparsable hfresh hread hparse =>
        exact .inr ⟨hfresh, .inr ⟨_, _, hread, hparse, Except.error.inj (hload.symm.trans heq)⟩⟩
    | loaded => cases hload.symm.trans heq
  · rintro ⟨files, last, hway, hnew, hends⟩
    rw [← List.mem_reverse] at hends
    rcases hends with ⟨hvisited, rfl⟩ |
      ⟨hfresh, ⟨fault, hread, rfl⟩ | ⟨source, fault, hread, hparse, rfl⟩⟩
    · exact load_along hway hnew (.visited hvisited)
    · exact load_along hway hnew (.unreadable hfresh hread)
    · exact load_along hway hnew (.unparsable hfresh hread hparse)

/-- Loading follows the way from base to base.  It ends with a configuration if and only if all
files on the way can be read and parsed, up to one without a base, and no place occurs twice; and
then each option is as in the first file that sets it.  Otherwise it fails at the first file that
cannot be read or parsed, or at the first one that was on the way before.  The way leads on from the
directory of a file, or from the root, to the base that the file names, with the extension `json`
if the name has none. -/
theorem load_follows_way (fs : FileSystem) (path : String) :
    (∀ result, load fs path = .ok result ↔
      ∃ files last config, Way fs path files last ∧ fs.Holds last config ∧ config.base = none ∧
        (fs.places (files ++ [(last, config)])).Nodup ∧
          result = ofFirst ((files ++ [(last, config)]).map (·.2))) ∧
      (∀ error, load fs path = .error error ↔
        ∃ files last, Way fs path files last ∧ (fs.places files).Nodup ∧
          (fs.place last ∈ fs.places files ∧ error = .cycle (fs.canonical last) ∨
            fs.place last ∉ fs.places files ∧
              ((∃ fault, fs.read last = .error fault ∧ error = .unreadable last fault) ∨
                ∃ source fault, fs.read last = .ok source ∧ parse source = .error fault ∧
                  error = .unparsable last fault))) ∧
        ∀ current name,
          Path.names (Path.ofBase current name) =
              (if Path.isAbsolute name then [] else (Path.names current).dropLast) ++
                Path.extended (Path.names name) ∧
            Path.isAbsolute (Path.ofBase current name) =
              (Path.isAbsolute name || Path.isAbsolute current) :=
  ⟨fun _ => load_eq_ok_iff, fun _ => load_eq_error_iff, Path.ofBase_leads⟩

end Config
end GradualTypes
