import Lisplet.Proofs.Settings.Layers
import Lisplet.Proofs.Toml.Documents

namespace Lisplet.Settings

open Toml (Table Value)

def contents (s : Surroundings) (paths : List String) : List (Option String) :=
  paths.map fun path => (s.read path).toOption

def loadLayers (s : Surroundings) (paths : List String) : Settings := ofLayers (contents s paths)

theorem load_eq_loadLayers (s : Surroundings) (root : String) :
    load s root = loadLayers s (layerPaths s root) := rfl

def IsLayer (s : Surroundings) (path : String) : Prop :=
  ∃ source t st, s.read path = .ok source ∧ (Toml.parse source).bind Table.settle? = some t ∧
    read .layer t = some st

section

variable {s : Surroundings} {path : String}

theorem layer?_eq_some_iff {source : String} {t : Table} :
    layer? source = some t ↔
      (Toml.parse source).bind Table.settle? = some t ∧ ∃ st, read .layer t = some st := by
  unfold layer?
  constructor
  · intro h
    obtain ⟨t', ht', h⟩ := Option.bind_eq_some_iff.mp h
    obtain ⟨hread, ht⟩ := guard_bind_eq_some_iff.mp h
    cases ht
    exact ⟨ht', Option.isSome_iff_exists.mp hread⟩
  · rintro ⟨ht, hread⟩
    exact Option.bind_eq_some_iff.mpr
      ⟨t, ht, guard_bind_eq_some_iff.mpr ⟨Option.isSome_iff_exists.mpr hread, rfl⟩⟩

theorem isLayer_iff : IsLayer s path ↔ ∃ t, (s.read path).toOption.bind layer? = some t := by
  unfold IsLayer
  cases s.read path with
  | error fault => simp [Except.toOption]
  | ok source =>
    simp only [Except.ok.injEq, Except.toOption, Option.bind_some, layer?_eq_some_iff]
    constructor
    · rintro ⟨_, t, st, rfl, ht, hread⟩
      exact ⟨t, ht, st, hread⟩
    · rintro ⟨t, ht, st, hread⟩
      exact ⟨source, t, st, rfl, ht, hread⟩

instance : DecidablePred (IsLayer s) := fun path =>
  decidable_of_iff ((s.read path).toOption.bind layer?).isSome
    (Option.isSome_iff_exists.trans isLayer_iff.symm)

theorem bind_layer?_eq_none (h : ¬ IsLayer s path) : (s.read path).toOption.bind layer? = none := by
  rw [isLayer_iff] at h
  exact Option.eq_none_iff_forall_ne_some.mpr (not_exists.mp h)

end

theorem mergeLayers_contents_filter (s : Surroundings) (paths : List String) :
    mergeLayers (contents s (paths.filter fun path => IsLayer s path)) =
      mergeLayers (contents s paths) := by
  unfold mergeLayers contents
  congr 1
  induction paths with
  | nil => rfl
  | cons path rest ih =>
    by_cases h : IsLayer s path
    · obtain ⟨t, ht⟩ := isLayer_iff.mp h
      simp only [List.filter_cons, h, decide_true, if_true, List.map_cons, List.filterMap_cons, ht,
        ih]
    · simp only [List.filter_cons, h, decide_false, Bool.false_eq_true, if_false, List.map_cons,
        List.filterMap_cons, bind_layer?_eq_none h, ih]

theorem distinct_of_layer? {source : String} {t : Table} (h : layer? source = some t) :
    (Value.table t).Distinct := by
  obtain ⟨parsed, hparsed, hsettle⟩ := Option.bind_eq_some_iff.mp (layer?_eq_some_iff.mp h).1
  exact (Toml.distinct_of_parse hparsed).settle?_entries hsettle

theorem distinct_mergeLayers (layers : List (Option String)) :
    (Value.table (mergeLayers layers)).Distinct := by
  induction layers using layers_induct with
  | nil => exact .nil
  | skip layers content hc hlast ih => exact hlast ▸ ih
  | merge layers content t hc hlast ih =>
    obtain ⟨source, rfl, ht⟩ := Option.bind_eq_some_iff.mp hc
    exact hlast ▸ ih.under (distinct_of_layer? ht)

theorem loadLayers_skips (s : Surroundings) (paths : List String) :
    (∃ st, read .layer (mergeLayers (contents s paths)) = some st ∧ loadLayers s paths = st) ∧
      loadLayers s (paths.filter fun path => IsLayer s path) = loadLayers s paths ∧
      ∀ below bad above, ¬ IsLayer s bad →
        loadLayers s (below ++ bad :: above) = loadLayers s (below ++ above) := by
  have kept (paths : List String) :
      loadLayers s (paths.filter fun path => IsLayer s path) = loadLayers s paths := by
    unfold loadLayers ofLayers
    rw [mergeLayers_contents_filter]
  refine ⟨?_, kept paths, ?_⟩
  · obtain ⟨st, h⟩ := (readable_mergeLayers (contents s paths)).exists_read
    refine ⟨st, h, ?_⟩
    rw [loadLayers, ofLayers, h]
    rfl
  · intro below bad above hbad
    rw [← kept (below ++ bad :: above), ← kept (below ++ above), List.filter_append,
      List.filter_append, List.filter_cons_of_neg (by simpa using hbad)]

end Lisplet.Settings
