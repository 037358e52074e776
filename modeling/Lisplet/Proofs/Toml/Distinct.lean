import Lisplet.Proofs.Toml.Settling
import Mathlib.Data.List.Nodup

namespace Lisplet.Toml

/-- No table that a path can reach says a key twice. Paths do not go into arrays. -/
inductive Value.Distinct : Value → Prop
  | leaf {v : Value} (h : v.isTable = false) : v.Distinct
  | table {t : Table} (keys : (t.map Prod.fst).Nodup) (values : ∀ e ∈ t, e.2.Distinct) :
      (Value.table t).Distinct

namespace Table

theorem underlay_eq_map (base overlay : Table) :
    base.underlay overlay = base.map fun e => (e.1, e.2.under (overlay.get? e.1)) := by
  induction base with
  | nil => rfl
  | cons e rest ih => exact congrArg (_ :: ·) ih

theorem mem_of_get?_eq_some {t : Table} {key : String} {v : Value} (h : t.get? key = some v) :
    (key, v) ∈ t := by
  obtain ⟨l₁, l₂, rfl, -⟩ := List.lookup_eq_some_iff.mp h
  exact List.mem_append_right l₁ List.mem_cons_self

theorem get?_eq_some_of_mem {t : Table} {e : String × Value} (h : (t.map Prod.fst).Nodup)
    (he : e ∈ t) : t.get? e.1 = some e.2 := by
  induction t with
  | nil => cases he
  | cons e' rest ih =>
    obtain ⟨hfresh, hrest⟩ := List.nodup_cons.mp h
    obtain rfl | he := List.mem_cons.mp he
    · exact get?_cons_self
    · rw [get?_cons_of_ne]
      · exact ih hrest he
      · rintro heq
        exact hfresh (heq ▸ List.mem_map_of_mem he)

theorem get?_ne_none_of_mem {t : Table} {e : String × Value} (he : e ∈ t) : t.get? e.1 ≠ none := by
  intro h
  exact absurd (List.lookup_eq_none_iff.mp h e he) (by simp)

theorem mem_merge {base overlay : Table} {e : String × Value} (h : e ∈ base.merge overlay) :
    (∃ e' ∈ base, e = (e'.1, e'.2.under (overlay.get? e'.1))) ∨ e ∈ overlay := by
  rw [merge, underlay_eq_map] at h
  obtain h | h := List.mem_append.mp h
  · obtain ⟨e', he', rfl⟩ := List.mem_map.mp h
    exact .inl ⟨e', he', rfl⟩
  · exact .inr (List.mem_of_mem_filter h)

theorem nodup_keys_merge {base overlay : Table} (hbase : (base.map Prod.fst).Nodup)
    (hoverlay : (overlay.map Prod.fst).Nodup) : ((base.merge overlay).map Prod.fst).Nodup := by
  rw [merge, underlay_eq_map, List.map_append, List.map_map]
  refine List.nodup_append.mpr ⟨hbase, (List.filter_sublist.map Prod.fst).nodup hoverlay, ?_⟩
  rintro key hbelow key' habove rfl
  obtain ⟨e, he, rfl⟩ := List.mem_map.mp hbelow
  obtain ⟨e', he', heq⟩ := List.mem_map.mp habove
  have hnone := List.of_mem_filter he'
  rw [heq, Option.isNone_iff_eq_none] at hnone
  exact get?_ne_none_of_mem he hnone

end Table

namespace Value.Distinct

variable {v w : Value}

theorem nil : (Value.table []).Distinct := .table List.nodup_nil (by simp)

theorem under (hv : v.Distinct) (hw : w.Distinct) : (v.under (some w)).Distinct := by
  induction hv generalizing w with
  | leaf h =>
    rw [under_some (.inl h)]
    exact hw
  | @table base keys values ih =>
    cases hw with
    | leaf h =>
      rw [under_some (.inr h)]
      exact .leaf h
    | @table overlay keys' values' =>
      rw [under_table]
      refine .table (Table.nodup_keys_merge keys keys') fun e he => ?_
      obtain ⟨e', he', rfl⟩ | he := Table.mem_merge he
      · cases h : Table.get? overlay e'.1 with
        | none =>
          rw [under_none]
          exact values e' he'
        | some w => exact ih e' he' (values' _ (Table.mem_of_get?_eq_some h))
      · exact values' e he

theorem of_settle?_entries {t t' : Table} (keys : (t.map Prod.fst).Nodup)
    (values : ∀ e ∈ t, ∀ w, e.2.settle? = some w → w.Distinct) (h : Table.settle? t = some t') :
    (Value.table t').Distinct := by
  refine .table ?_ fun e' he' => ?_
  · rw [Table.map_fst_settle? h]
    exact keys
  · obtain ⟨e, he, hsettle⟩ := Table.exists_mem_of_settle? h he'
    exact values e he e'.2 hsettle

theorem settle? (hv : v.Distinct) (h : v.settle? = some w) : w.Distinct := by
  induction hv generalizing w with
  | leaf hleaf => exact .leaf (isTable_settle? hleaf h)
  | table keys _ ih =>
    obtain ⟨i, rfl⟩ | ⟨t', rfl, ht⟩ := settle?_table h
    · exact .leaf rfl
    · exact of_settle?_entries keys (fun e he w => ih e he) ht

theorem settle?_entries {t t' : Table} (hv : (Value.table t).Distinct)
    (h : Table.settle? t = some t') : (Value.table t').Distinct := by
  cases hv with
  | leaf hleaf => cases hleaf
  | table keys values => exact of_settle?_entries keys (fun e he w => (values e he).settle?) h

theorem under_self (h : v.Distinct) : v.under (some v) = v := by
  induction h with
  | leaf h => exact under_some (.inl h)
  | @table t keys values ih =>
    have known (e : String × Value) (he : e ∈ t) : t.get? e.1 = some e.2 :=
      Table.get?_eq_some_of_mem keys he
    have lower : t.underlay t = t := by
      rw [Table.underlay_eq_map]
      refine (List.map_congr_left fun e he => ?_).trans t.map_id
      rw [known e he, ih e he, id]
    have upper : (t.filter fun e => (t.get? e.1).isNone) = [] := by
      refine List.filter_eq_nil_iff.mpr fun e he => ?_
      rw [known e he]
      exact Bool.false_ne_true
    rw [under_table, Table.merge, lower, upper, List.append_nil]

end Value.Distinct

end Lisplet.Toml
