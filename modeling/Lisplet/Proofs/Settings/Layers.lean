import Lisplet.Proofs.Settings.Reading
import Lisplet.Settings.Load
import Mathlib.Data.List.Induction

/-!
Layers: one file over another overrides it setting by setting, except in a section that both have
and that is not a table in both. There the upper section replaces the lower one, even in settings
that it does not give.
-/

namespace Lisplet.Settings

open Toml (Table Value)

def Section.Replaced (c : Section) (below above : Table) : Prop :=
  ∃ v w, below.get? c.name = some v ∧ above.get? c.name = some w ∧
    (v.isTable = false ∨ w.isTable = false)

section

variable {below above : Table}

theorem Section.of_merge_of_replaced {c : Section} (h : c.Replaced below above) :
    c.of (below.merge above) = c.of above := by
  obtain ⟨v, w, hv, hw, hvw⟩ := h
  simp only [Section.of, Table.get?_merge, hv, hw, Value.under_some hvw]

theorem Section.of_merge_of_not_replaced {c : Section} (h : ¬ c.Replaced below above) :
    (above.get? c.name = none ∧ c.of (below.merge above) = c.of below) ∨
      (below.get? c.name = none ∧ c.of (below.merge above) = c.of above) ∨
        ∃ s t : Table, c.of below = .table s ∧ c.of above = .table t ∧
          c.of (below.merge above) = .table (s.merge t) := by
  unfold Section.of
  rw [Table.get?_merge]
  cases hv : below.get? c.name with
  | none => exact .inr (.inl ⟨rfl, rfl⟩)
  | some v =>
    cases hw : above.get? c.name with
    | none => exact .inl ⟨rfl, congrArg (Option.getD · _) (congrArg some v.under_none)⟩
    | some w =>
      cases ht : v.isTable with
      | false => exact absurd ⟨v, w, hv, hw, .inl ht⟩ h
      | true =>
        cases hu : w.isTable with
        | false => exact absurd ⟨v, w, hv, hw, .inr hu⟩ h
        | true =>
          obtain ⟨s, rfl⟩ := Value.isTable_eq_true_iff.mp ht
          obtain ⟨t, rfl⟩ := Value.isTable_eq_true_iff.mp hu
          exact .inr (.inr ⟨s, t, rfl, rfl, rfl⟩)

theorem Section.Replaced.of_merge {c : Section} {t : Table} (h : c.Replaced (below.merge above) t) :
    c.Replaced below t ∨ c.Replaced above t := by
  obtain ⟨v, w, hv, hw, hvw⟩ := h
  rw [Table.get?_merge] at hv
  cases hb : below.get? c.name with
  | none =>
    rw [hb] at hv
    exact .inr ⟨v, w, hv, hw, hvw⟩
  | some u =>
    cases ha : above.get? c.name with
    | none =>
      simp only [hb, ha, Value.under_none] at hv
      exact .inl ⟨v, w, hb.trans hv, hw, hvw⟩
    | some u' =>
      simp only [hb, ha, Option.some.injEq] at hv
      rw [← hv, Value.isTable_under] at hvw
      exact .inr ⟨u', w, ha, hw, hvw⟩

variable {route : Route}

theorem given?_merge_of_replaced {x : Setting} (h : x.home.Replaced below above) :
    x.given? (below.merge above) = x.given? above :=
  congrArg (member? x.key x.position) (Section.of_merge_of_replaced h)

theorem given?_eq_none {x : Setting} {t : Table} (h : t.get? x.home.name = none) :
    x.given? t = none := by
  rw [Setting.given?, Section.of, h]
  rfl

theorem given?_merge (hb : Readable route below) {x : Setting} (h : ¬ x.home.Replaced below above) :
    x.given? (below.merge above) = (x.given? above).or (x.given? below) := by
  obtain ⟨ha, hm⟩ | ⟨hn, hm⟩ | ⟨s, t, hs, ht, hm⟩ := Section.of_merge_of_not_replaced h
  · rw [given?_eq_none ha, Option.none_or]
    exact congrArg (member? x.key x.position) hm
  · rw [given?_eq_none hn, Option.or_none]
    exact congrArg (member? x.key x.position) hm
  · have plain (v : Value) (hv : s.get? x.key = some v) : v.isTable = false := by
      obtain ⟨a, ha⟩ := hb.members x v (by rw [Setting.given?, hs]; exact hv)
      exact Setting.isTable_eq_false_of_read ha
    unfold Setting.given?
    rw [hm, hs, ht]
    exact Table.get?_merge_eq_or plain

theorem Readable.merge (hb : Readable route below) (ha : Readable route above) :
    Readable route (below.merge above) where
  sections c := by
    by_cases h : c.Replaced below above
    · rw [Section.of_merge_of_replaced h]
      exact ha.sections c
    · obtain ⟨-, hm⟩ | ⟨-, hm⟩ | ⟨s, t, -, -, hm⟩ := Section.of_merge_of_not_replaced h
      · rw [hm]
        exact hb.sections c
      · rw [hm]
        exact ha.sections c
      · rw [hm]
        rfl
  members x v hv := by
    by_cases h : x.home.Replaced below above
    · rw [given?_merge_of_replaced h] at hv
      exact ha.members x v hv
    · rw [given?_merge hb h, Option.mem_def, Option.or_eq_some_iff] at hv
      obtain hv | ⟨-, hv⟩ := hv
      · exact ha.members x v hv
      · exact hb.members x v hv

theorem value?_merge_of_replaced {x : Setting} (h : x.home.Replaced below above) :
    x.value? route (below.merge above) = x.value? route above :=
  congrArg (Option.bind · (x.read route)) (given?_merge_of_replaced h)

theorem value?_merge (hb : Readable route below) (ha : Readable route above) {x : Setting}
    (h : ¬ x.home.Replaced below above) :
    x.value? route (below.merge above) = (x.value? route above).or (x.value? route below) := by
  unfold Setting.value?
  rw [given?_merge hb h]
  cases hv : x.given? above with
  | none => rfl
  | some v =>
    obtain ⟨a, hr⟩ := ha.members x v hv
    simp only [Option.some_or, Option.bind_some, hr]

end

theorem readable_of_layer? {source : String} {t : Table} (h : layer? source = some t) :
    Readable .layer t := by
  obtain ⟨t', -, h⟩ := Option.bind_eq_some_iff.mp h
  obtain ⟨hread, ht⟩ := guard_bind_eq_some_iff.mp h
  cases ht
  obtain ⟨st, hst⟩ := Option.isSome_iff_exists.mp hread
  exact readable_of_read hst

def Setting.gives? (x : Setting) (content : Option String) : Option x.Content :=
  (content.bind layer?).bind (x.value? .layer)

def Setting.Replaced (x : Setting) (below above : Option String) : Prop :=
  ∃ s t, below.bind layer? = some s ∧ above.bind layer? = some t ∧ x.home.Replaced s t

def Setting.override (x : Setting) (layers : List (Option String)) : x.Content :=
  (layers.reverse.findSome? x.gives?).getD x.default

section

variable {layers : List (Option String)} {content : Option String} {t : Table}

@[elab_as_elim]
theorem layers_induct {motive : List (Option String) → Prop} (nil : motive [])
    (skip : ∀ layers content, content.bind layer? = none →
      mergeLayers (layers ++ [content]) = mergeLayers layers →
        motive layers → motive (layers ++ [content]))
    (merge : ∀ layers content t, content.bind layer? = some t →
      mergeLayers (layers ++ [content]) = (mergeLayers layers).merge t →
        motive layers → motive (layers ++ [content]))
    (layers : List (Option String)) : motive layers := by
  induction layers using List.reverseRecOn with
  | nil => exact nil
  | append_singleton layers content ih =>
    have hlast := mergeLayers_append [content] layers
    cases h : content.bind layer? with
    | none =>
      rw [List.filterMap_cons, h] at hlast
      exact skip layers content h hlast ih
    | some t =>
      rw [List.filterMap_cons, h] at hlast
      exact merge layers content t h hlast ih

theorem readable_of_bind_layer? (h : content.bind layer? = some t) : Readable .layer t := by
  obtain ⟨source, -, hs⟩ := Option.bind_eq_some_iff.mp h
  exact readable_of_layer? hs

theorem readable_mergeLayers (layers : List (Option String)) :
    Readable .layer (mergeLayers layers) := by
  induction layers using layers_induct with
  | nil => exact readable_of_read (read_nil .layer)
  | skip layers content hc hlast ih => exact hlast ▸ ih
  | merge layers content t hc hlast ih => exact hlast ▸ ih.merge (readable_of_bind_layer? hc)

theorem get_ofLayers (x : Setting) (layers : List (Option String)) :
    x.get (ofLayers layers) = (x.value? .layer (mergeLayers layers)).getD x.default := by
  obtain ⟨st, h⟩ := (readable_mergeLayers layers).exists_read
  rw [ofLayers, h]
  exact get_of_read h x

theorem exists_replaced {x : Setting} (h : content.bind layer? = some t)
    (hr : x.home.Replaced (mergeLayers layers) t) : ∃ lower ∈ layers, x.Replaced lower content := by
  induction layers using layers_induct with
  | nil =>
    obtain ⟨v, w, hv, -⟩ := hr
    cases hv
  | skip layers lower hl hlast ih =>
    rw [hlast] at hr
    obtain ⟨lower', hmem, hr'⟩ := ih hr
    exact ⟨lower', List.mem_append_left _ hmem, hr'⟩
  | merge layers lower s hl hlast ih =>
    rw [hlast] at hr
    obtain hr | hr := hr.of_merge
    · obtain ⟨lower', hmem, hr'⟩ := ih hr
      exact ⟨lower', List.mem_append_left _ hmem, hr'⟩
    · exact ⟨lower, List.mem_append_right _ (List.mem_singleton_self _), s, t, hl, h, hr⟩

theorem value?_mergeLayers {x : Setting}
    (h : layers.Pairwise fun lower upper => ¬ x.Replaced lower upper) :
    x.value? .layer (mergeLayers layers) = layers.reverse.findSome? x.gives? := by
  -- Later files override, so a search from the end meets the last file first.
  induction layers using layers_induct with
  | nil => cases x <;> rfl
  | skip layers content hc hlast ih =>
    obtain ⟨hlayers, -, -⟩ := List.pairwise_append.mp h
    rw [List.reverse_concat, List.findSome?_cons, ← ih hlayers, hlast, Setting.gives?, hc]
    rfl
  | merge layers content t hc hlast ih =>
    obtain ⟨hlayers, -, hupper⟩ := List.pairwise_append.mp h
    have kept : ¬ x.home.Replaced (mergeLayers layers) t := by
      intro hr
      obtain ⟨lower, hmem, hr'⟩ := exists_replaced hc hr
      exact hupper lower hmem content (List.mem_singleton_self _) hr'
    rw [List.reverse_concat, List.findSome?_cons, ← ih hlayers, hlast, Setting.gives?, hc,
      value?_merge (readable_mergeLayers layers) (readable_of_bind_layer? hc) kept,
      Option.bind_some]
    cases x.value? .layer t <;> rfl

theorem get_ofLayers_eq_override {x : Setting}
    (h : layers.Pairwise fun lower upper => ¬ x.Replaced lower upper) :
    x.get (ofLayers layers) = x.override layers := by
  rw [get_ofLayers, value?_mergeLayers h]
  rfl

end

theorem get_ofLayers_of_replaced {x : Setting} {below above : Option String}
    (h : x.Replaced below above) : x.get (ofLayers [below, above]) = x.override [above] := by
  obtain ⟨s, t, hs, ht, hr⟩ := h
  have merged : mergeLayers [below, above] = s.merge t := by
    simp only [mergeLayers, List.filterMap_cons, hs, ht, List.filterMap_nil, List.foldl_cons,
      List.foldl_nil, Table.merge_nil_left]
  rw [get_ofLayers, merged, value?_merge_of_replaced hr, Setting.override, List.reverse_singleton,
    List.findSome?_singleton, Setting.gives?, ht, Option.bind_some]

def globalContent (s : Surroundings) : Option String :=
  (globalPath? s).bind fun path => (s.read path).toOption

def projectContent (s : Surroundings) (root : String) : Option String :=
  (s.read (projectPath root)).toOption

theorem load_eq_ofLayers (s : Surroundings) (root : String) :
    load s root = ofLayers [globalContent s, projectContent s root] := by
  unfold load layerPaths globalContent projectContent
  cases globalPath? s with
  | none => rfl
  | some path => rfl

/-- Each setting is overridden by itself, unless its section is replaced: then one that the upper
file does not give falls back to its default, whatever the lower file gives. -/
theorem load_override_iff (s : Surroundings) (root : String) (x : Setting) :
    let global := globalContent s
    let project := projectContent s root
    (¬ x.Replaced global project → x.get (load s root) = x.override [global, project]) ∧
      (x.Replaced global project → x.get (load s root) = x.override [project]) ∧
        (x.get (load s root) = x.override [global, project] ↔
          (x.Replaced global project → x.gives? project = none →
            ∀ a, x.gives? global = some a → a = x.default)) := by
  intro global project
  have kept (h : ¬ x.Replaced global project) :
      x.get (load s root) = x.override [global, project] := by
    rw [load_eq_ofLayers]
    exact get_ofLayers_eq_override (List.pairwise_pair.mpr h)
  have replaced (h : x.Replaced global project) : x.get (load s root) = x.override [project] := by
    rw [load_eq_ofLayers]
    exact get_ofLayers_of_replaced h
  refine ⟨kept, replaced, ?_⟩
  by_cases h : x.Replaced global project
  · rw [replaced h]
    simp only [Setting.override, List.reverse_cons, List.reverse_nil, List.nil_append,
      List.cons_append, List.findSome?_cons, List.findSome?_nil, h, true_implies]
    cases x.gives? project <;> cases x.gives? global <;> simp [eq_comm]
  · simp only [kept h, h, false_implies]

/-- The project says `debug` by position, and nothing of a depth. -/
theorem load_forgets_depth :
    let s : Surroundings := {
      read := fun path =>
        if path = "./.config/lispc/config.toml" then .ok "[compile]\nmax_depth = 3\n"
        else if path = "./.lispc/config.toml" then .ok "compile = [true]\n"
        else .error .notFound
      input := .ok ""
      configHome := none
      home := some "."
      directory := "." }
    Setting.maxDepth.gives? (projectContent s ".") = none ∧
      Setting.maxDepth.override [globalContent s, projectContent s "."] = (3 : Nat) ∧
        Setting.maxDepth.get (load s ".") = (256 : Nat) := by
  intro s
  exact ⟨by decide +kernel, by decide +kernel, by decide +kernel⟩

end Lisplet.Settings
