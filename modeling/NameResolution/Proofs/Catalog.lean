import Mathlib.Data.List.Nodup
import NameResolution.Program.Catalog
import NameResolution.Proofs.Sweep

/-!
# Catalogues over their requests

The index of a store and the list of its units are changed separately. `UnitMap.Sound` says how they
belong together: the index leads from each path to the place of the unit that has the path. In a
catalogue, no path is in both stores (`Catalog.Sound`).

The layers are

* one store (`UnitMap.get?_push`, `UnitMap.get?_set`);
* a unit that is taken from its place and put back (`Catalog.place?_cases`);
* one request (`Catalog.follows_perform`): the catalogue stays sound, at most one path is added, and
  `Request.change` says what becomes of the unit at a path;
* a list of requests, by induction (`Catalog.paths_run`, `Catalog.unit?_run_eq_some_iff`).

Main statements: `Catalog.records_run`, for any requests to an empty catalogue, and
`Catalog.sweep_program`, for a pass over the program of a catalogue.
-/

namespace NameResolution

/-! ## one store -/

namespace UnitMap

/-- The index leads from each path to the place of the unit that has it, and nowhere else. -/
structure Sound (m : UnitMap) : Prop where
  lookup_index : ∀ path i, m.index.lookup path = some i ↔ m.paths[i]? = some path

theorem sound_empty : Sound {} := ⟨fun _ _ => by simp [paths]⟩

/-- What the index says depends on the paths of the units only. -/
theorem Sound.of_paths {m m' : UnitMap} (h : m.Sound) (hindex : m'.index = m.index)
    (hpaths : m'.paths = m.paths) : m'.Sound := by
  refine ⟨fun path i => ?_⟩
  rw [hindex, hpaths]
  exact h.lookup_index path i

variable {m : UnitMap} {path : String} {u : SourceUnit}

/-- A sound store contains just the paths of its units. -/
theorem Sound.contains_iff (h : m.Sound) : m.contains path = true ↔ path ∈ m.paths := by
  rw [contains, Option.isSome_iff_exists, List.mem_iff_getElem?]
  simp only [h.lookup_index]

/-- The index leads to places that exist. -/
theorem Sound.lt_length (h : m.Sound) {i : Nat} (hi : m.index.lookup path = some i) :
    i < m.units.length := by
  have hlt := (List.getElem?_eq_some_iff.mp ((h.lookup_index path i).mp hi)).1
  rwa [paths, List.length_map] at hlt

/-- A sound store has a path only once. -/
theorem Sound.nodup_paths (h : m.Sound) : m.paths.Nodup := by
  rw [List.nodup_iff_getElem?_ne_getElem?]
  intro i j hij hj heq
  have hlast : m.paths[j]? = some m.paths[j] := List.getElem?_eq_getElem hj
  have hi := (h.lookup_index _ i).mpr (heq.trans hlast)
  have hj := (h.lookup_index _ j).mpr hlast
  rw [hi] at hj
  exact absurd (Option.some.inj hj) (by omega)

/-- The unit at the place of a path is the one that has the path. -/
theorem Sound.get?_eq_some_iff (h : m.Sound) :
    m.get? path = some u ↔ u ∈ m.units ∧ u.path = path := by
  have hplace : ∀ i, m.index.lookup path = some i ↔ (m.units[i]?).map (·.path) = some path := by
    intro i
    rw [h.lookup_index, paths, List.getElem?_map]
  rw [get?, Option.bind_eq_some_iff, List.mem_iff_getElem?]
  constructor
  · rintro ⟨i, hi, hu⟩
    rw [hplace, hu, Option.map_some] at hi
    exact ⟨⟨i, hu⟩, Option.some.inj hi⟩
  · rintro ⟨⟨i, hu⟩, hpath⟩
    exact ⟨i, by rw [hplace, hu, Option.map_some, hpath], hu⟩

/-- A sound store finds a unit at each path that it contains. -/
theorem Sound.isSome_get? (h : m.Sound) : (m.get? path).isSome = m.contains path := by
  rw [Bool.eq_iff_iff, h.contains_iff, Option.isSome_iff_exists, paths, List.mem_map]
  simp only [h.get?_eq_some_iff]

/-- A sound store finds nothing at a path that it does not contain. -/
theorem Sound.get?_eq_none (h : m.Sound) (hnot : m.contains path = false) :
    m.get? path = none := by
  rw [← Option.isNone_iff_eq_none, ← Option.not_isSome, h.isSome_get?, hnot]
  rfl

theorem paths_push (m : UnitMap) (u : SourceUnit) : (m.push u).paths = m.paths ++ [u.path] := by
  simp [paths, push]

/-- A sound store stays sound when a unit with a new path is appended. -/
theorem Sound.push (h : m.Sound) (hnew : m.contains u.path = false) : (m.push u).Sound := by
  have hnot : u.path ∉ m.paths := by rw [← h.contains_iff, hnew]; exact Bool.false_ne_true
  have hlength : m.units.length = m.paths.length := by simp [paths]
  refine ⟨fun path i => ?_⟩
  rw [paths_push, UnitMap.push, List.lookup_cons, hlength, List.getElem?_append]
  by_cases hpath : path = u.path
  · subst hpath
    rw [beq_self_eq_true]
    by_cases hi : i < m.paths.length
    · have hne : m.paths[i] ≠ u.path := fun heq => hnot (heq ▸ List.getElem_mem hi)
      simp [hi, hne, Nat.ne_of_gt hi]
    · simp only [hi, if_false, Option.some.injEq]
      grind
  · rw [beq_false_of_ne hpath]
    by_cases hi : i < m.paths.length
    · simp [hi, h.lookup_index]
    · have hnone : m.index.lookup path ≠ some i := by
        rw [Ne, h.lookup_index, List.getElem?_eq_none (by omega)]
        exact nofun
      grind

/-- A new unit is found at its path; the other look-ups do not change. -/
theorem get?_push (h : m.Sound) (u : SourceUnit) (path : String) :
    (m.push u).get? path = if path = u.path then some u else m.get? path := by
  rw [get?, get?, UnitMap.push, List.lookup_cons]
  by_cases hpath : path = u.path
  · simp [hpath]
  · rw [beq_false_of_ne hpath, if_neg hpath]
    cases hi : m.index.lookup path with
    | none => rfl
    | some i =>
        simp [List.getElem?_append_left (h.lt_length hi)]

/-- A unit that takes the place of one with the same path changes no path. -/
theorem paths_set (h : m.Sound) (hpath : u.path = path) : (m.set path u).paths = m.paths := by
  unfold set
  split
  · rfl
  · next i hi =>
    obtain ⟨hlt, hplace⟩ := List.getElem?_eq_some_iff.mp ((h.lookup_index path i).mp hi)
    have hself := List.set_getElem_self hlt
    rw [hplace] at hself
    rw [paths, List.map_set, hpath]
    exact hself

theorem index_set (m : UnitMap) (path : String) (u : SourceUnit) :
    (m.set path u).index = m.index := by
  unfold set
  split <;> rfl

/-- A sound store stays sound when a unit is exchanged for one with the same path. -/
theorem Sound.set (h : m.Sound) (hpath : u.path = path) : (m.set path u).Sound :=
  h.of_paths (index_set m path u) (paths_set h hpath)

/-- A unit that is put in the place of another is found there; the other look-ups do not change. -/
theorem get?_set (h : m.Sound) (hmem : m.contains path = true) (u : SourceUnit) (other : String) :
    (m.set path u).get? other = if other = path then some u else m.get? other := by
  obtain ⟨i, hi⟩ := Option.isSome_iff_exists.mp hmem
  have hplace := (h.lookup_index path i).mp hi
  have hset : m.set path u = { m with units := m.units.set i u } := by rw [UnitMap.set, hi]
  have hlt := h.lt_length hi
  rw [hset, get?, get?]
  by_cases hother : other = path
  · simp [hother, hi, hlt]
  · rw [if_neg hother]
    cases hj : m.index.lookup other with
    | none => rfl
    | some j =>
        have hne : i ≠ j := by
          rintro rfl
          have hplace' := (h.lookup_index other i).mp hj
          exact hother (Option.some.inj (hplace'.symm.trans hplace))
        simp [List.getElem?_set_ne hne]

end UnitMap

/-! ## two stores -/

namespace Catalog

/-- A store of a catalogue. -/
def storeAt (c : Catalog) : Store → UnitMap
  | .values => c.values
  | .sources => c.sources

/-- Both stores are sound, and no path is in both. -/
structure Sound (c : Catalog) : Prop where
  values : c.values.Sound
  sources : c.sources.Sound
  apart : ∀ path ∈ c.values.paths, path ∉ c.sources.paths

variable {c : Catalog} {path : String} {u : SourceUnit}

/-- A sound catalog contains just the paths of its units. -/
theorem Sound.contains_iff (h : c.Sound) : c.contains path = true ↔ path ∈ c.paths := by
  rw [contains, Bool.or_eq_true, h.values.contains_iff, h.sources.contains_iff, paths,
    List.mem_append]

/-- A sound catalog has a path only once, be it in one store or the other. -/
theorem Sound.nodup_paths (h : c.Sound) : c.paths.Nodup :=
  List.nodup_append.mpr ⟨h.values.nodup_paths, h.sources.nodup_paths,
    fun path hmem _ hmem' heq => h.apart path hmem (heq ▸ hmem')⟩

/-- A sound catalog finds a unit at each path that it contains. -/
theorem Sound.isSome_unit? (h : c.Sound) : (c.unit? path).isSome = c.contains path := by
  rw [unit?, Option.isSome_or, h.values.isSome_get?, h.sources.isSome_get?, contains]

/-- A unit that is found at a path has this path. -/
theorem Sound.path_of_unit? (h : c.Sound) (hu : c.unit? path = some u) : u.path = path := by
  rcases Option.or_eq_some_iff.mp hu with hvalue | ⟨-, hsource⟩
  · exact (h.values.get?_eq_some_iff.mp hvalue).2
  · exact (h.sources.get?_eq_some_iff.mp hsource).2

/-- What a unit that was taken from its place does there: it can be exchanged for one with the same
path, and all other units stay as they are. -/
structure Place.Exchanges (place : Place) (c : Catalog) (path : String) : Prop where
  unit_eq : c.unit? path = some place.unit
  sound : ∀ v : SourceUnit, v.path = path → (place.put v).Sound
  paths : ∀ v : SourceUnit, v.path = path → ∀ store,
    ((place.put v).storeAt store).paths = (c.storeAt store).paths
  unit? : ∀ (v : SourceUnit) (other : String),
    (place.put v).unit? other = if other = path then some v else c.unit? other

/-- A unit in the first store can be exchanged there. -/
theorem exchanges_values (h : c.Sound) (hu : c.values.get? path = some u) :
    Place.Exchanges ⟨u, fun v => { c with values := c.values.set path v }⟩ c path := by
  have hmem : c.values.contains path = true := by rw [← h.values.isSome_get?, hu]; rfl
  refine ⟨by rw [unit?, hu]; rfl, fun v hv => ?_, fun v hv store => ?_, fun v other => ?_⟩
  · refine ⟨h.values.set hv, h.sources, ?_⟩
    rw [UnitMap.paths_set h.values hv]
    exact h.apart
  · cases store with
    | values => exact UnitMap.paths_set h.values hv
    | sources => rfl
  · rw [unit?, UnitMap.get?_set h.values hmem]
    by_cases hother : other = path
    · simp [hother]
    · simp [hother, unit?]

/-- A unit that only the second store has can be exchanged there. -/
theorem exchanges_sources (h : c.Sound) (hnot : c.values.contains path = false)
    (hu : c.sources.get? path = some u) :
    Place.Exchanges ⟨u, fun v => { c with sources := c.sources.set path v }⟩ c path := by
  have hmem : c.sources.contains path = true := by rw [← h.sources.isSome_get?, hu]; rfl
  have hvalue := h.values.get?_eq_none hnot
  refine ⟨by rw [unit?, hvalue, hu]; rfl, fun v hv => ?_, fun v hv store => ?_, fun v other => ?_⟩
  · refine ⟨h.values, h.sources.set hv, ?_⟩
    rw [UnitMap.paths_set h.sources hv]
    exact h.apart
  · cases store with
    | values => rfl
    | sources => exact UnitMap.paths_set h.sources hv
  · rw [unit?, UnitMap.get?_set h.sources hmem]
    by_cases hother : other = path
    · simp [hother, hvalue]
    · simp [hother, unit?]

/-- **Places**: a place is found if and only if a unit is, and it is the place of that unit. -/
theorem place?_cases (h : c.Sound) (path : String) :
    (c.place? path = none ∧ c.unit? path = none) ∨
      ∃ place, c.place? path = some place ∧ place.Exchanges c path := by
  unfold place?
  cases hvalue : c.values.contains path with
  | true =>
      obtain ⟨u, hu⟩ := Option.isSome_iff_exists.mp (h.values.isSome_get?.trans hvalue)
      rw [if_pos rfl, hu]
      exact .inr ⟨_, rfl, exchanges_values h hu⟩
  | false =>
      rw [if_neg Bool.false_ne_true]
      cases hu : c.sources.get? path with
      | none => exact .inl ⟨rfl, by rw [unit?, h.values.get?_eq_none hvalue, hu]; rfl⟩
      | some u => exact .inr ⟨_, rfl, exchanges_sources h hvalue hu⟩

/-- The unit that can be changed is the unit that is looked up. -/
theorem map_unit_place? (h : c.Sound) (path : String) :
    (c.place? path).map (·.unit) = c.unit? path := by
  rcases place?_cases h path with ⟨hplace, hunit⟩ | ⟨place, hplace, hexchanges⟩
  · rw [hplace, hunit]
    rfl
  · rw [hplace, hexchanges.unit_eq]
    rfl

end Catalog

/-! ## one request -/

namespace Request

/-- The unit that a request is to add, and the store. -/
def inserts? : Request → Option (Store × SourceUnit)
  | insert u => some (u.store, u)
  | insertInto store u => some (store, u)
  | _ => none

/-- What a request does to the unit at a path, if there is one. -/
def change (path : String) : Request → SourceUnit → SourceUnit
  | markResolved other, u => if other = path then { u with isResolved := true } else u
  | pushUnitDiagnostic other d, u => if other = path then u.pushDiagnostic d else u
  | _, u => u

/-- The unit that was added by a request with an answer. -/
def added? (request : Request) (reply : Reply) : Option (Store × SourceUnit) :=
  if reply = .done then request.inserts? else none

/-- The unit that was added to a store by a request with an answer. -/
def addedTo? (store : Store) (request : Request) (reply : Reply) : Option SourceUnit :=
  (request.added? reply).bind fun added => if added.1 = store then some added.2 else none

end Request

namespace Catalog

variable {c : Catalog} {path : String} {u : SourceUnit}

/-- What holds after a request: the catalogue is sound, a path was added only if it is new, and the
unit at a path is the one before, with the change that the request makes, or else the one that was
added. -/
structure Follows (c : Catalog) (request : Request) (reply : Reply) (after : Catalog) : Prop where
  sound : after.Sound
  isNew : ∀ store u, request.added? reply = some (store, u) → c.unit? u.path = none
  paths : ∀ store, (after.storeAt store).paths =
    (c.storeAt store).paths ++ ((request.addedTo? store reply).map (·.path)).toList
  unit? : ∀ path, after.unit? path =
    ((c.unit? path).map (request.change path)).or
      ((request.added? reply).bind fun added => if added.2.path = path then some added.2 else none)

/-- **Insertion**: a unit with a new path is added; any other is refused and nothing changes. -/
theorem insertInto_cases (c : Catalog) (store : Store) (u : SourceUnit) :
    (c.contains u.path = true ∧
        c.insertInto store u = (.refused (.duplicateUnit u.path), c)) ∨
      (c.contains u.path = false ∧ (c.insertInto store u).1 = .done) := by
  cases h : c.contains u.path with
  | true => simp [insertInto, h]
  | false => cases store <;> simp [insertInto, h]

/-- A request that adds nothing and changes no unit. -/
theorem follows_of_same {after : Catalog} {request : Request} {reply : Reply} (h : c.Sound)
    (hvalues : after.values = c.values) (hsources : after.sources = c.sources)
    (hadded : request.added? reply = none)
    (hchange : ∀ path v, c.unit? path = some v → request.change path v = v) :
    c.Follows request reply after := by
  have hstores : after.storeAt = c.storeAt := by
    funext store
    cases store <;> assumption
  refine ⟨⟨hvalues ▸ h.values, hsources ▸ h.sources, ?_⟩, ?_, fun store => ?_, fun path => ?_⟩
  · rw [hvalues, hsources]
    exact h.apart
  · simp [hadded]
  · simp [hstores, Request.addedTo?, hadded]
  · have hunit : after.unit? path = c.unit? path := by rw [unit?, unit?, hvalues, hsources]
    rw [hunit, hadded]
    cases hu : c.unit? path with
    | none => rfl
    | some v => simp [hchange path v hu]

theorem insertInto_values (hnew : c.contains u.path = false) :
    c.insertInto .values u = (.done, { c with values := c.values.push u }) := by
  simp [insertInto, hnew]

theorem insertInto_sources (hnew : c.contains u.path = false) :
    c.insertInto .sources u = (.done, { c with sources := c.sources.push u }) := by
  simp [insertInto, hnew]

/-- Inserting a unit with a new path keeps a catalog sound. -/
theorem sound_insertInto (h : c.Sound) (hnew : c.contains u.path = false) (store : Store) :
    (c.insertInto store u).2.Sound := by
  have hnot : u.path ∉ c.paths := by rw [← h.contains_iff, hnew]; exact Bool.false_ne_true
  rw [paths, List.mem_append, not_or] at hnot
  obtain ⟨hvalue, hsource⟩ := Bool.or_eq_false_iff.mp hnew
  cases store with
  | values =>
      rw [insertInto_values hnew]
      refine ⟨h.values.push hvalue, h.sources, fun path hmem => ?_⟩
      rw [UnitMap.paths_push, List.mem_append, List.mem_singleton] at hmem
      rcases hmem with hmem | rfl
      · exact h.apart path hmem
      · exact hnot.2
  | sources =>
      rw [insertInto_sources hnew]
      refine ⟨h.values, h.sources.push hsource, fun path hmem hmem' => ?_⟩
      rw [UnitMap.paths_push, List.mem_append, List.mem_singleton] at hmem'
      rcases hmem' with hmem' | rfl
      · exact h.apart path hmem hmem'
      · exact hnot.1 hmem

/-- The path of an inserted unit comes last in its store, and the other store is unchanged. -/
theorem paths_insertInto (hnew : c.contains u.path = false) (store other : Store) :
    ((c.insertInto store u).2.storeAt other).paths =
      (c.storeAt other).paths ++ if store = other then [u.path] else [] := by
  cases store with
  | values =>
      rw [insertInto_values hnew]
      cases other <;> simp [storeAt, UnitMap.paths_push]
  | sources =>
      rw [insertInto_sources hnew]
      cases other <;> simp [storeAt, UnitMap.paths_push]

/-- After inserting a unit, it is found at its path, and elsewhere what was found before. -/
theorem unit?_insertInto (h : c.Sound) (hnew : c.contains u.path = false) (store : Store)
    (path : String) :
    (c.insertInto store u).2.unit? path = if u.path = path then some u else c.unit? path := by
  obtain ⟨hvalue, hsource⟩ := Bool.or_eq_false_iff.mp hnew
  have hnone := h.values.get?_eq_none hvalue
  cases store with
  | values =>
      rw [insertInto_values hnew, unit?, UnitMap.get?_push h.values]
      by_cases hpath : u.path = path
      · simp [hpath]
      · simp [hpath, Ne.symm hpath, unit?]
  | sources =>
      rw [insertInto_sources hnew, unit?, UnitMap.get?_push h.sources]
      by_cases hpath : u.path = path
      · simp [← hpath, hnone]
      · simp [hpath, Ne.symm hpath, unit?]

/-- A request to add a unit. -/
theorem follows_insertInto (h : c.Sound) {request : Request} {store : Store}
    (hrequest : request.inserts? = some (store, u))
    (hchange : ∀ path v, request.change path v = v) :
    c.Follows request (c.insertInto store u).1 (c.insertInto store u).2 := by
  rcases insertInto_cases c store u with ⟨-, hrefused⟩ | ⟨hnew, hdone⟩
  · rw [hrefused]
    exact follows_of_same h rfl rfl rfl fun path v _ => hchange path v
  · have hadded : request.added? (c.insertInto store u).1 = some (store, u) := by
      rw [Request.added?, hdone, if_pos rfl, hrequest]
    have hnone : c.unit? u.path = none := by
      rw [← Option.isNone_iff_eq_none, ← Option.not_isSome, h.isSome_unit?, hnew]
      rfl
    refine ⟨sound_insertInto h hnew store, fun _ v hv => ?_, fun other => ?_, fun path => ?_⟩
    · obtain rfl : u = v := congrArg Prod.snd (Option.some.inj (hadded.symm.trans hv))
      exact hnone
    · rw [paths_insertInto hnew, Request.addedTo?, hadded]
      by_cases hstore : store = other <;> simp [hstore]
    · rw [unit?_insertInto h hnew, hadded]
      by_cases hpath : u.path = path
      · subst hpath
        simp [hnone]
      · simp [hpath, Option.map_congr fun v _ => hchange path v]

/-- A request to change the unit at a path, where `g` says what becomes of the unit. -/
theorem follows_change (h : c.Sound) {request : Request}
    {f : SourceUnit → Except TreeError SourceUnit} {g : SourceUnit → SourceUnit}
    (hrequest : request.inserts? = none)
    (hchange : ∀ other v, request.change other v = if path = other then g v else v)
    (hf : ∀ v, f v = .ok (g v) ∨ (∃ e, f v = .error e) ∧ g v = v)
    (hg : ∀ v, (g v).path = v.path) :
    c.Follows request (c.change path f).1 (c.change path f).2 := by
  have hadded : ∀ reply, request.added? reply = none := by
    intro reply
    rw [Request.added?, hrequest, ite_self]
  unfold change
  rcases place?_cases h path with ⟨hplace, hunit⟩ | ⟨place, hplace, hexchanges⟩
  · rw [hplace]
    refine follows_of_same h rfl rfl (hadded _) fun other v hv => ?_
    have hne : path ≠ other := fun heq => by simp [← heq, hunit] at hv
    rw [hchange, if_neg hne]
  · rw [hplace]
    dsimp only
    rcases hf place.unit with hok | ⟨⟨e, herror⟩, hsame⟩
    · have hpath : (g place.unit).path = path :=
        (hg place.unit).trans (h.path_of_unit? hexchanges.unit_eq)
      rw [hok]
      refine ⟨hexchanges.sound _ hpath, ?_, fun store => ?_, fun other => ?_⟩
      · simp [hadded]
      · rw [hexchanges.paths _ hpath, Request.addedTo?, hadded]
        simp
      · rw [hexchanges.unit?, hadded]
        by_cases hother : other = path
        · subst hother
          simp [hexchanges.unit_eq, hchange]
        · simp [hother, Option.map_congr fun v _ => (hchange other v).trans
            (if_neg (Ne.symm hother))]
    · rw [herror]
      refine follows_of_same h rfl rfl (hadded _) fun other v hv => ?_
      rw [hchange]
      by_cases hother : path = other
      · subst hother
        rw [hexchanges.unit_eq] at hv
        rw [if_pos rfl, ← Option.some.inj hv, hsame]
      · rw [if_neg hother]

/-- **One request.** -/
theorem follows_perform (h : c.Sound) (request : Request) :
    c.Follows request (c.perform request).1 (c.perform request).2 := by
  cases request with
  | insert u => exact follows_insertInto h rfl fun _ _ => rfl
  | insertInto store u => exact follows_insertInto h rfl fun _ _ => rfl
  | pushDiagnostic d => exact follows_of_same h rfl rfl rfl fun _ _ _ => rfl
  | checkEntry =>
      rw [perform, checkEntry]
      split
      · exact follows_of_same h rfl rfl rfl fun _ _ _ => rfl
      · exact follows_of_same h rfl rfl rfl fun _ _ _ => rfl
  | markResolved path =>
      refine follows_change (g := fun v => { v with isResolved := true }) h rfl
        (fun _ _ => rfl) (fun v => ?_) fun _ => rfl
      cases hv : v.isResolved with
      | true =>
          right
          exact ⟨⟨_, by rw [SourceUnit.markResolved, hv, if_pos rfl]⟩, by rw [← hv]⟩
      | false =>
          left
          rw [SourceUnit.markResolved, hv, if_neg Bool.false_ne_true]
  | pushUnitDiagnostic path d =>
      exact follows_change (g := (·.pushDiagnostic d)) h rfl (fun _ _ => rfl)
        (fun _ => .inl rfl) fun _ => rfl

/-! ## a list of requests -/

/-- The units that were added to a store, by requests and the answers to them. -/
def insertedInto (store : Store) (log : List (Request × Reply)) : List SourceUnit :=
  log.filterMap fun entry => entry.1.addedTo? store entry.2

/-- What requests do to the unit at a path, one after another. -/
def changeAll (path : String) (log : List (Request × Reply)) (u : SourceUnit) : SourceUnit :=
  log.foldl (fun u entry => entry.1.change path u) u

/-- A run of requests keeps a catalog sound. -/
theorem sound_run (h : c.Sound) (requests : List Request) : (c.run requests).Sound := by
  induction requests generalizing c with
  | nil => exact h
  | cons request requests ih => exact ih (follows_perform h request).sound

/-- **Paths, a list of requests**: to the paths of a store, those of the units that were added to it
have been appended. -/
theorem paths_run (h : c.Sound) (requests : List Request) (store : Store) :
    ((c.run requests).storeAt store).paths =
      (c.storeAt store).paths ++ (insertedInto store (c.log requests)).map (·.path) := by
  induction requests generalizing c with
  | nil => simp [run, log, insertedInto]
  | cons request requests ih =>
      have hstep := follows_perform h request
      have hrun : c.run (request :: requests) = (c.perform request).2.run requests := rfl
      have hinserted : insertedInto store (c.log (request :: requests)) =
          (request.addedTo? store (c.perform request).1).toList ++
            insertedInto store ((c.perform request).2.log requests) := by
        rw [insertedInto, log, List.filterMap_cons]
        cases request.addedTo? store (c.perform request).1 <;> rfl
      rw [hrun, ih hstep.sound, hstep.paths, hinserted, List.map_append, List.append_assoc]
      cases request.addedTo? store (c.perform request).1 <;> rfl

/-- **Units, a list of requests**: a unit that is there stays, with the changes that are made to
it. -/
theorem unit?_run_of_some (h : c.Sound) (hu : c.unit? path = some u) (requests : List Request) :
    (c.run requests).unit? path = some (changeAll path (c.log requests) u) := by
  induction requests generalizing c u with
  | nil => exact hu
  | cons request requests ih =>
      have hstep := follows_perform h request
      refine ih hstep.sound ?_
      rw [hstep.unit?, hu]
      rfl

/-- A unit that was added is there in the end, with the changes that are made to it. -/
theorem unit?_run_of_log (h : c.Sound) {requests : List Request} {request : Request}
    {store : Store} {earlier later : List (Request × Reply)}
    (hlog : c.log requests = earlier ++ (request, .done) :: later)
    (hinserts : request.inserts? = some (store, u)) :
    (c.run requests).unit? u.path = some (changeAll u.path later u) := by
  induction earlier generalizing c requests with
  | nil =>
      cases requests with
      | nil => cases hlog
      | cons first requests =>
          obtain ⟨hfirst, rfl⟩ := List.cons.inj hlog
          obtain ⟨rfl, hdone⟩ := Prod.mk.inj hfirst
          have hstep := follows_perform h first
          have hadded : first.added? (c.perform first).1 = some (store, u) := by
            rw [Request.added?, hdone, if_pos rfl, hinserts]
          refine unit?_run_of_some hstep.sound ?_ requests
          rw [hstep.unit?, hstep.isNew store u hadded, hadded]
          simp
  | cons entry earlier ih =>
      cases requests with
      | nil => cases hlog
      | cons first requests =>
          obtain ⟨-, hrest⟩ := List.cons.inj hlog
          exact ih (follows_perform h first).sound hrest

/-- Every unit that is there in the end was there at the start, or was added. -/
theorem exists_log_of_unit?_run (h : c.Sound) (hnone : c.unit? path = none)
    {requests : List Request} {v : SourceUnit} (hv : (c.run requests).unit? path = some v) :
    ∃ earlier request store u later, c.log requests = earlier ++ (request, .done) :: later ∧
      request.inserts? = some (store, u) ∧ u.path = path := by
  induction requests generalizing c with
  | nil => exact absurd (hnone.symm.trans hv) nofun
  | cons request requests ih =>
      have hstep := follows_perform h request
      cases hafter : (c.perform request).2.unit? path with
      | none =>
          obtain ⟨earlier, other, store, u, later, hlog, hinserts, hpath⟩ :=
            ih hstep.sound hafter hv
          exact ⟨(request, (c.perform request).1) :: earlier, other, store, u, later,
            by rw [log, hlog, List.cons_append], hinserts, hpath⟩
      | some w =>
          rw [hstep.unit?, hnone, Option.map_none, Option.none_or,
            Option.bind_eq_some_iff] at hafter
          obtain ⟨⟨store, u⟩, hadded, hw⟩ := hafter
          have hpath : u.path = path := by
            by_contra hne
            simp [hne] at hw
          have hdone : (c.perform request).1 = .done := by
            by_contra hne
            simp [Request.added?, hne] at hadded
          rw [Request.added?, if_pos hdone] at hadded
          exact ⟨[], request, store, u, (c.perform request).2.log requests, by rw [log, hdone]; rfl,
            hadded, hpath⟩

/-- **A unit and its history**: the unit at a path is the one that was added under the path, with
all the changes that were made to it since, and no others. -/
theorem unit?_run_eq_some_iff (h : c.Sound) (hnone : c.unit? path = none)
    (requests : List Request) (v : SourceUnit) :
    (c.run requests).unit? path = some v ↔
      ∃ earlier request store u later, c.log requests = earlier ++ (request, .done) :: later ∧
        request.inserts? = some (store, u) ∧ u.path = path ∧ v = changeAll path later u := by
  constructor
  · intro hv
    obtain ⟨earlier, request, store, u, later, hlog, hinserts, hpath⟩ :=
      exists_log_of_unit?_run h hnone hv
    have hrun := unit?_run_of_log h hlog hinserts
    rw [hpath] at hrun
    exact ⟨earlier, request, store, u, later, hlog, hinserts, hpath,
      Option.some.inj (hv.symm.trans hrun)⟩
  · rintro ⟨earlier, request, store, u, later, hlog, hinserts, rfl, rfl⟩
    exact unit?_run_of_log h hlog hinserts

/-- **Refusals**: a unit is refused if and only if its path is taken, and then nothing changes. -/
theorem perform_of_inserts? {request : Request} {store : Store}
    (hinserts : request.inserts? = some (store, u)) :
    (c.perform request).1 =
        (if c.contains u.path then .refused (.duplicateUnit u.path) else .done) ∧
      (c.contains u.path = true → (c.perform request).2 = c) := by
  have hperform : c.perform request = c.insertInto store u := by
    cases request with
    | insert v =>
        obtain ⟨rfl, rfl⟩ := Prod.mk.inj (Option.some.inj hinserts)
        rfl
    | insertInto other v =>
        obtain ⟨rfl, rfl⟩ := Prod.mk.inj (Option.some.inj hinserts)
        rfl
    | _ => cases hinserts
  rw [hperform]
  rcases insertInto_cases c store u with ⟨hmem, hrefused⟩ | ⟨hnew, hdone⟩
  · simp [hrefused, hmem]
  · simp [hdone, hnew]

/-- What a catalogue has to do with the requests that were made to it and the answers to them. -/
structure Records (c : Catalog) (log : List (Request × Reply)) : Prop where
  /-- The paths are those of the units that were added, values first, in the order of insertion. -/
  paths_eq : c.paths =
    (insertedInto .values log).map (·.path) ++ (insertedInto .sources log).map (·.path)
  nodup_paths : c.paths.Nodup
  size_eq : c.size = c.paths.length
  contains_iff : ∀ path, c.contains path = true ↔ path ∈ c.paths
  /-- A unit is found if and only if its path is there, and the same one to be changed. -/
  isSome_unit? : ∀ path, (c.unit? path).isSome = c.contains path
  map_unit_place? : ∀ path, (c.place? path).map (·.unit) = c.unit? path
  /-- The unit at a path is the one that was added under the path, with all later changes. -/
  unit?_eq_some_iff : ∀ path v, c.unit? path = some v ↔
    ∃ earlier request store u later, log = earlier ++ (request, .done) :: later ∧
      request.inserts? = some (store, u) ∧ u.path = path ∧ v = changeAll path later u
  path_of_unit? : ∀ path v, c.unit? path = some v → v.path = path
  /-- A unit is refused if and only if its path is taken, and then nothing changes. -/
  perform_insert : ∀ request store u, request.inserts? = some (store, u) →
    (c.perform request).1 =
        (if c.contains u.path then .refused (.duplicateUnit u.path) else .done) ∧
      (c.contains u.path = true → (c.perform request).2 = c)

/-- **The catalogue**: after any requests to an empty catalogue, it is what the requests and the
answers to them say. -/
theorem records_run (entry : String) (entryKind : ResourceKind) (version : Option Version)
    (requests : List Request) :
    Records (run { entry, entryKind, version } requests)
      (log { entry, entryKind, version } requests) := by
  have hempty : Sound { entry, entryKind, version } :=
    ⟨UnitMap.sound_empty, UnitMap.sound_empty, fun _ h => absurd h List.not_mem_nil⟩
  have h := sound_run hempty requests
  refine
    { paths_eq := ?_
      nodup_paths := h.nodup_paths
      size_eq := by simp [size, paths, UnitMap.paths]
      contains_iff := fun _ => h.contains_iff
      isSome_unit? := fun _ => h.isSome_unit?
      map_unit_place? := Catalog.map_unit_place? h
      unit?_eq_some_iff := fun _ => unit?_run_eq_some_iff hempty rfl requests
      path_of_unit? := fun _ _ => h.path_of_unit?
      perform_insert := fun _ _ _ => perform_of_inserts? }
  have hvalues := paths_run hempty requests .values
  have hsources := paths_run hempty requests .sources
  exact congrArg₂ (· ++ ·) hvalues hsources

/-! ## the program of a catalogue -/

theorem paths_program (c : Catalog) : c.program.paths = c.paths := List.map_append

/-- A sound catalog finds just the units of its program, each at its path. -/
theorem Sound.unit?_eq_some_iff (h : c.Sound) :
    c.unit? path = some u ↔ u ∈ c.program.units ∧ u.path = path := by
  have hunits : u ∈ c.program.units ↔ u ∈ c.values.units ∨ u ∈ c.sources.units :=
    List.mem_append
  rw [unit?, Option.or_eq_some_iff, h.values.get?_eq_some_iff, h.sources.get?_eq_some_iff, hunits]
  constructor
  · rintro (⟨hmem, hpath⟩ | ⟨-, hmem, hpath⟩)
    · exact ⟨.inl hmem, hpath⟩
    · exact ⟨.inr hmem, hpath⟩
  · rintro ⟨hmem | hmem, rfl⟩
    · exact .inl ⟨hmem, rfl⟩
    · refine .inr ⟨h.values.get?_eq_none ?_, hmem, rfl⟩
      rw [← Bool.not_eq_true, h.values.contains_iff]
      exact fun hvalue => h.apart _ hvalue (List.mem_map.mpr ⟨u, hmem, rfl⟩)

/-- The index finds the unit that a search through all units finds. -/
theorem unit?_program (h : c.Sound) (path : String) : c.program.unit? path = c.unit? path := by
  have hpaths : c.program.paths.Nodup := by
    rw [paths_program]
    exact h.nodup_paths
  refine Option.ext fun u => ?_
  rw [Program.unit?_eq_some_iff hpaths, h.unit?_eq_some_iff]

/-- A sound catalog and its program contain the same paths. -/
theorem contains_program (h : c.Sound) (path : String) :
    c.program.contains path = c.contains path := by
  rw [Bool.eq_iff_iff, Program.contains_eq_true_iff, h.contains_iff, paths_program]

/-- A unit is added to a catalogue as it is to the program. -/
theorem program_insertInto (h : c.Sound) (store : Store) (u : SourceUnit) :
    (c.insertInto store u).2.program = c.program.perform (.insert store u) := by
  have hcontains := contains_program h u.path
  rcases insertInto_cases c store u with ⟨hmem, hrefused⟩ | ⟨hnew, -⟩
  · rw [hmem] at hcontains
    simp [hrefused, Program.perform, Program.insertInto, hcontains]
  · rw [hnew] at hcontains
    cases store with
    | values =>
        rw [insertInto_values hnew, Program.perform, Program.insertInto, hcontains]
        rfl
    | sources =>
        rw [insertInto_sources hnew, Program.perform, Program.insertInto, hcontains]
        rfl

/-- **A pass over a catalogue**: it does not fail, does what a pass does to the program, and leaves
the index right. -/
theorem sweep_program (h : c.Sound) (config : Config) :
    c.program.sweep config = .ok (c.program.resolve config) ∧
      (c.refresh (c.program.resolve config).program).Sound ∧
      (c.refresh (c.program.resolve config).program).program =
        (c.program.resolve config).program := by
  have hpaths : c.program.paths.Nodup := by
    rw [paths_program]
    exact h.nodup_paths
  have hpath : ∀ us : List SourceUnit,
      (us.map fun u => (u.resolve config c.program.tables).unit).map (·.path) =
        us.map (·.path) := by
    intro us
    simp [SourceUnit.path_resolve]
  have hvalues : (c.refresh (c.program.resolve config).program).values.paths = c.values.paths := by
    rw [UnitMap.paths, refresh, Program.values_resolve]
    exact hpath c.values.units
  have hsources :
      (c.refresh (c.program.resolve config).program).sources.paths = c.sources.paths := by
    rw [UnitMap.paths, refresh, Program.sources_resolve]
    exact hpath c.sources.units
  refine ⟨?_, ⟨h.values.of_paths rfl hvalues, h.sources.of_paths rfl hsources, ?_⟩, ?_⟩
  · rw [Program.sweep_eq_pass hpaths, Program.pass_eq_ok hpaths]
  · rw [hvalues, hsources]
    exact h.apart
  · rw [Program.program_resolve]
    rfl

end Catalog

end NameResolution
