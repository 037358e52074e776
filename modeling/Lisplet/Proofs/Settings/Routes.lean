import Lisplet.Proofs.Settings.Skipping
import Lisplet.Proofs.Toml.Settling

/-!
Routes: a file that is read on its own, and the same file as the only layer. They differ where a
section is an instant or has surplus items, where the filter is an instant, and where a table stands
for an instant that is none.
-/

namespace Lisplet.Settings

open Toml (Table Value Instant Settled)

def IsLoose (size : Nat) : Value → Prop
  | .instant _ => True
  | .array items => size < items.length
  | _ => False

def Section.Loose (c : Section) (t : Table) : Prop := IsLoose c.size (c.of t)

section

variable {v w : Value} {n : Nat}

theorem not_isLoose_of_isSection (h : Route.layer.isSection n v = true) : ¬ IsLoose n v := by
  cases v with
  | array items =>
    have hle : items.length ≤ n := by simpa [Route.isSection] using h
    exact Nat.not_lt.mpr hle
  | instant => cases h
  | string | integer | float | boolean | table => exact id

theorem ne_instant_of_not_isLoose (h : ¬ IsLoose n v) (i : Instant) : v ≠ .instant i := by
  rintro rfl
  exact h trivial

theorem isSection_settle? (h : v.settle? = some w) (hw : ¬ IsLoose n w) :
    Route.document.isSection n v = Route.layer.isSection n w := by
  cases v with
  | table t =>
    obtain ⟨i, rfl⟩ | ⟨t', rfl, -⟩ := Value.settle?_table h
    · exact absurd trivial hw
    · rfl
  | array vs =>
    obtain ⟨ws, rfl, -⟩ := Value.settle?_array h
    have hle : ws.length ≤ n := Nat.not_lt.mp hw
    simp [Route.isSection, hle]
  | instant i =>
    cases h
    exact absurd trivial hw
  | string | integer | float | boolean =>
    cases h
    rfl

theorem member?_settle? (h : v.settle? = some w) (hw : ∀ i, w ≠ .instant i) (key : String)
    (position : Nat) : Settled (member? key position v) (member? key position w) := by
  cases v with
  | table t =>
    obtain ⟨i, rfl⟩ | ⟨t', rfl, ht⟩ := Value.settle?_table h
    · exact absurd rfl (hw i)
    · exact Table.get?_settle? ht key
  | array vs =>
    obtain ⟨ws, rfl, hws⟩ := Value.settle?_array h
    exact Value.getElem?_settleAll? hws position
  | string | integer | float | boolean | instant =>
    cases h
    exact .none

theorem Setting.read_settle? (h : v.settle? = some w) (hw : ∀ i, w ≠ .instant i) (x : Setting) :
    x.read .document v = x.read .layer w := by
  cases v with
  | table t =>
    obtain ⟨i, rfl⟩ | ⟨t', rfl, -⟩ := Value.settle?_table h
    · exact absurd rfl (hw i)
    · cases x <;> rfl
  | array vs =>
    obtain ⟨ws, rfl, -⟩ := Value.settle?_array h
    cases x <;> rfl
  | instant i =>
    cases h
    exact absurd rfl (hw i)
  | string | integer | float | boolean =>
    cases h
    cases x <;> rfl

theorem Setting.read_document_of_instant {i : Instant} (h : v.settle? = some (.instant i))
    (x : Setting) : x.read .document v = none := by
  cases v with
  | table | instant => cases x <;> rfl
  | array vs =>
    obtain ⟨ws, hws, -⟩ := Value.settle?_array h
    cases hws
  | string | integer | float | boolean => cases h

theorem Setting.eq_filter_of_read_instant {i : Instant} {x : Setting} {a : x.Content}
    (h : x.read .layer (.instant i) = some a) : x = .filter := by
  cases x with
  | filter => rfl
  | debug | maxDepth => cases h

end

section

variable {t t' : Table} {st : Settings} {x : Setting}

theorem Section.of_settle? (h : Table.settle? t = some t') (c : Section) :
    (c.of t).settle? = some (c.of t') := by
  have hget := Table.get?_settle? h c.name
  unfold Section.of
  revert hget
  generalize t.get? c.name = v?
  generalize t'.get? c.name = w?
  rintro (hvw | _)
  · exact hvw
  · rfl

theorem given?_settle? (h : Table.settle? t = some t') (hx : ¬ x.home.Loose t') :
    Settled (x.given? t) (x.given? t') :=
  member?_settle? (x.home.of_settle? h) (ne_instant_of_not_isLoose hx) x.key x.position

theorem ifGiven_settled {v? w? : Option Value} (h : Settled v? w?)
    (hw : ∀ i, w? ≠ some (.instant i)) :
    ifGiven x.default (x.read .document) v? = ifGiven x.default (x.read .layer) w? := by
  cases h with
  | none => rfl
  | some hvw => exact x.read_settle? hvw fun i hi => hw i (congrArg some hi)

theorem not_loose_of_read (h : read .layer t = some st) (c : Section) : ¬ c.Loose t :=
  not_isLoose_of_isSection ((read_eq_some_iff.mp h).1 c)

theorem given?_ne_instant (h : Table.settle? t = some t') (hd : read .document t = some st)
    (hx : ¬ x.home.Loose t') (i : Instant) : x.given? t' ≠ some (.instant i) := by
  intro hi
  have hread := (read_eq_some_iff.mp hd).2 x
  have hsettled := given?_settle? h hx
  rw [hi] at hsettled
  cases hgiven : x.given? t with
  | none =>
    rw [hgiven] at hsettled
    cases hsettled
  | some v =>
    rw [hgiven] at hsettled hread
    cases hsettled with
    | some hv =>
      rw [ifGiven, Setting.read_document_of_instant hv] at hread
      cases hread

theorem read_layer_of_document (h : Table.settle? t = some t') (hd : read .document t = some st)
    (hl : ∀ c : Section, ¬ c.Loose t') : read .layer t' = some st := by
  obtain ⟨hsections, hsettings⟩ := read_eq_some_iff.mp hd
  refine read_eq_some_iff.mpr ⟨fun c => ?_, fun x => ?_⟩
  · rw [← isSection_settle? (c.of_settle? h) (hl c)]
    exact hsections c
  · rw [← ifGiven_settled (given?_settle? h (hl x.home)) (given?_ne_instant h hd (hl x.home))]
    exact hsettings x

theorem read_document_of_layer (h : Table.settle? t = some t') (hl : read .layer t' = some st)
    (hf : ∀ i, Setting.filter.given? t' ≠ some (.instant i)) : read .document t = some st := by
  have hloose := not_loose_of_read hl
  obtain ⟨hsections, hsettings⟩ := read_eq_some_iff.mp hl
  refine read_eq_some_iff.mpr ⟨fun c => ?_, fun x => ?_⟩
  · rw [isSection_settle? (c.of_settle? h) (hloose c)]
    exact hsections c
  · rw [ifGiven_settled (given?_settle? h (hloose x.home))]
    · exact hsettings x
    · intro i hi
      have hread := hsettings x
      rw [hi] at hread
      obtain rfl := Setting.eq_filter_of_read_instant hread
      exact hf i hi

end

/-- The file can be read on its own, but not as a layer: a table in it stands for an instant that is
none, or a section is loose. -/
def LooseFile (s : Surroundings) (path : String) : Prop :=
  ∃ source t st, s.read path = .ok source ∧ Toml.parse source = some t ∧
    read .document t = some st ∧ ∀ t', Table.settle? t = some t' → ∃ c : Section, c.Loose t'

/-- The file can be a layer, with the text of an instant as its filter. -/
def DatedFile (s : Surroundings) (path : String) : Prop :=
  ∃ source t t' st i, s.read path = .ok source ∧ Toml.parse source = some t ∧
    Table.settle? t = some t' ∧ read .layer t' = some st ∧
      Setting.filter.given? t' = some (.instant i)

section

variable {s : Surroundings} {path : String} {st : Settings}

theorem loadFrom_eq_ok_iff :
    loadFrom s path = .ok st ↔
      ∃ source t, s.read path = .ok source ∧ Toml.parse source = some t ∧
        read .document t = some st := by
  unfold loadFrom
  cases s.read path with
  | error fault => simp
  | ok source =>
    have hof : ofDocument? source = some st ↔
        ∃ t, Toml.parse source = some t ∧ read .document t = some st := Option.bind_eq_some_iff
    cases h : ofDocument? source with
    | none => simp [h, ← hof]
    | some st' => simp [← hof, h]

theorem isLayer_iff_settle? :
    IsLayer s path ↔
      ∃ source t t' st, s.read path = .ok source ∧ Toml.parse source = some t ∧
        Table.settle? t = some t' ∧ read .layer t' = some st := by
  constructor
  · rintro ⟨source, t', st, hs, ht, hread⟩
    obtain ⟨t, hparse, hsettle⟩ := Option.bind_eq_some_iff.mp ht
    exact ⟨source, t, t', st, hs, hparse, hsettle, hread⟩
  · rintro ⟨source, t, t', st, hs, hparse, hsettle, hread⟩
    exact ⟨source, t', st, hs, Option.bind_eq_some_iff.mpr ⟨t, hparse, hsettle⟩, hread⟩

theorem looseFile_iff :
    LooseFile s path ↔ (∃ st, loadFrom s path = .ok st) ∧ ¬ IsLayer s path := by
  constructor
  · rintro ⟨source, t, st, hs, hparse, hread, hloose⟩
    refine ⟨⟨st, loadFrom_eq_ok_iff.mpr ⟨source, t, hs, hparse, hread⟩⟩, fun hlayer => ?_⟩
    obtain ⟨source', u, t', st', hs', hparse', hsettle, hread'⟩ := isLayer_iff_settle?.mp hlayer
    obtain rfl := Except.ok.inj (hs.symm.trans hs')
    obtain rfl := Option.some.inj (hparse.symm.trans hparse')
    obtain ⟨c, hc⟩ := hloose t' hsettle
    exact not_loose_of_read hread' c hc
  · rintro ⟨⟨st, h⟩, hlayer⟩
    obtain ⟨source, t, hs, hparse, hread⟩ := loadFrom_eq_ok_iff.mp h
    refine ⟨source, t, st, hs, hparse, hread, fun t' hsettle => ?_⟩
    by_contra hloose
    have hread' := read_layer_of_document hsettle hread (not_exists.mp hloose)
    exact hlayer (isLayer_iff_settle?.mpr ⟨source, t, t', st, hs, hparse, hsettle, hread'⟩)

theorem datedFile_iff :
    DatedFile s path ↔ ¬ (∃ st, loadFrom s path = .ok st) ∧ IsLayer s path := by
  constructor
  · rintro ⟨source, t, t', st, i, hs, hparse, hsettle, hread, hi⟩
    refine ⟨?_, isLayer_iff_settle?.mpr ⟨source, t, t', st, hs, hparse, hsettle, hread⟩⟩
    rintro ⟨st', h⟩
    obtain ⟨source', u, hs', hparse', hread'⟩ := loadFrom_eq_ok_iff.mp h
    obtain rfl := Except.ok.inj (hs.symm.trans hs')
    obtain rfl := Option.some.inj (hparse.symm.trans hparse')
    exact given?_ne_instant hsettle hread' (not_loose_of_read hread _) i hi
  · rintro ⟨h, hlayer⟩
    obtain ⟨source, t, t', st, hs, hparse, hsettle, hread⟩ := isLayer_iff_settle?.mp hlayer
    by_contra hdated
    have hread' := read_document_of_layer hsettle hread fun i hi =>
      hdated ⟨source, t, t', st, i, hs, hparse, hsettle, hread, hi⟩
    exact h ⟨st, loadFrom_eq_ok_iff.mpr ⟨source, t, hs, hparse, hread'⟩⟩

theorem loadLayers_singleton {t : Table} (h : (s.read path).toOption.bind layer? = some t) :
    loadLayers s [path] = (read .layer t).getD {} := by
  simp [loadLayers, contents, ofLayers, mergeLayers, h]

theorem loadLayers_eq_of_loadFrom (h : loadFrom s path = .ok st) (hlayer : IsLayer s path) :
    loadLayers s [path] = st := by
  obtain ⟨source, t, hs, hparse, hread⟩ := loadFrom_eq_ok_iff.mp h
  obtain ⟨t', ht'⟩ := isLayer_iff.mp hlayer
  rw [loadLayers_singleton ht']
  rw [hs] at ht'
  obtain ⟨hbind, st', hread'⟩ := layer?_eq_some_iff.mp ht'
  rw [hparse] at hbind
  rw [read_layer_of_document hbind hread (not_loose_of_read hread')]
  rfl

end

/-- A file means the same on both routes if both take it, and both take it or neither does unless it
is loose or dated. -/
theorem loadFrom_agrees_iff (s : Surroundings) (path : String) :
    (((∃ st, loadFrom s path = .ok st) ↔ IsLayer s path) ↔
        ¬ LooseFile s path ∧ ¬ DatedFile s path) ∧
      (LooseFile s path ↔ (∃ st, loadFrom s path = .ok st) ∧ ¬ IsLayer s path) ∧
      (DatedFile s path ↔ ¬ (∃ st, loadFrom s path = .ok st) ∧ IsLayer s path) ∧
      ∀ st, loadFrom s path = .ok st → IsLayer s path → loadLayers s [path] = st := by
  refine ⟨?_, looseFile_iff, datedFile_iff, fun _ => loadLayers_eq_of_loadFrom⟩
  rw [looseFile_iff, datedFile_iff]
  tauto

/-- The date is not of the right type on its own, but it is the text of the filter in a layer. -/
theorem routes_differ :
    let s : Surroundings := {
      read := fun path =>
        if path = "./.lispc/config.toml" then .ok "[log]\nfilter = 2020-01-01\n"
        else .error .notFound
      input := .ok ""
      configHome := none
      home := none
      directory := "." }
    loadFrom s "./.lispc/config.toml" = .error (.parsing "./.lispc/config.toml" []) ∧
      IsLayer s "./.lispc/config.toml" ∧
        loadLayers s ["./.lispc/config.toml"] = { filter := "2020-01-01" } ∧
        load s "." = { filter := "2020-01-01" } := by
  intro s
  exact ⟨by decide +kernel, by decide +kernel, by decide +kernel, by decide +kernel⟩

end Lisplet.Settings
