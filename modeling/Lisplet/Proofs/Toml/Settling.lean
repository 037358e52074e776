import Lisplet.Toml.Merge

namespace Lisplet.Toml

abbrev Settled : Option Value → Option Value → Prop := Option.Rel fun v w => v.settle? = some w

namespace Value

theorem isTable_settle? {v w : Value} (hv : v.isTable = false) (h : v.settle? = some w) :
    w.isTable = false := by
  cases v with
  | table => cases hv
  | array vs =>
    obtain ⟨ws, -, rfl⟩ := Option.map_eq_some_iff.mp h
    rfl
  | string | integer | float | boolean | instant =>
    cases h
    rfl

theorem settle?_array {vs : List Value} {w : Value} (h : (array vs).settle? = some w) :
    ∃ ws, w = .array ws ∧ settleAll? vs = some ws := by
  obtain ⟨ws, hws, rfl⟩ := Option.map_eq_some_iff.mp h
  exact ⟨ws, rfl, hws⟩

theorem settle?_cons_of_ne {key : String} {v : Value} {rest : Table} (hk : key ≠ instantKey) :
    (table ((key, v) :: rest)).settle? = (Table.settle? ((key, v) :: rest)).map table := by
  have hentries : (table ((key, v) :: rest)).settle? =
      v.settle?.bind fun w =>
        (Table.settle? rest).bind fun ws => some (table ((key, w) :: ws)) := by
    cases v <;> simp only [settle?, if_neg hk] <;> rfl
  rw [hentries, Table.settle?]
  cases v.settle? <;> cases Table.settle? rest <;> rfl

theorem settle?_table {t : Table} {w : Value} (h : (table t).settle? = some w) :
    (∃ i, w = .instant i) ∨ ∃ t' : Table, w = .table t' ∧ Table.settle? t = some t' := by
  cases t with
  | nil => exact .inr ⟨[], (Option.some.inj h).symm, rfl⟩
  | cons e rest =>
    obtain ⟨key, v⟩ := e
    by_cases hk : key = instantKey
    · subst hk
      cases v with
      | string text =>
        rw [settle?, if_pos rfl] at h
        obtain ⟨i, -, rfl⟩ := Option.map_eq_some_iff.mp h
        exact .inl ⟨i, rfl⟩
      | _ => simp [settle?] at h
    · rw [settle?_cons_of_ne hk] at h
      obtain ⟨t', ht', rfl⟩ := Option.map_eq_some_iff.mp h
      exact .inr ⟨t', rfl, ht'⟩

theorem settleAll?_cons {v : Value} {vs ws : List Value} (h : settleAll? (v :: vs) = some ws) :
    ∃ w ws', ws = w :: ws' ∧ v.settle? = some w ∧ settleAll? vs = some ws' := by
  simp only [settleAll?, Option.bind_eq_bind, Option.bind_eq_some_iff, Option.pure_def,
    Option.some.injEq] at h
  obtain ⟨w, hw, ws', hws, rfl⟩ := h
  exact ⟨w, ws', rfl, hw, hws⟩

theorem getElem?_settleAll? {vs ws : List Value} (h : settleAll? vs = some ws) (i : Nat) :
    Settled vs[i]? ws[i]? := by
  induction vs generalizing ws i with
  | nil =>
    cases h
    exact .none
  | cons v vs ih =>
    obtain ⟨w, ws, rfl, hw, hws⟩ := settleAll?_cons h
    cases i with
    | zero => exact .some hw
    | succ i => exact ih hws i

end Value

namespace Table

theorem settle?_cons {key : String} {v : Value} {t t' : Table}
    (h : settle? ((key, v) :: t) = some t') :
    ∃ w rest, t' = (key, w) :: rest ∧ v.settle? = some w ∧ settle? t = some rest := by
  simp only [settle?, Option.bind_eq_bind, Option.bind_eq_some_iff, Option.pure_def,
    Option.some.injEq] at h
  obtain ⟨w, hw, rest, hrest, rfl⟩ := h
  exact ⟨w, rest, rfl, hw, hrest⟩

theorem map_fst_settle? {t t' : Table} (h : settle? t = some t') :
    t'.map Prod.fst = t.map Prod.fst := by
  induction t generalizing t' with
  | nil =>
    cases h
    rfl
  | cons e t ih =>
    obtain ⟨w, rest, rfl, -, hrest⟩ := settle?_cons h
    exact congrArg (e.1 :: ·) (ih hrest)

theorem exists_mem_of_settle? {t t' : Table} (h : settle? t = some t') {e' : String × Value}
    (he' : e' ∈ t') : ∃ e ∈ t, e.2.settle? = some e'.2 := by
  induction t generalizing t' with
  | nil =>
    cases h
    cases he'
  | cons e t ih =>
    obtain ⟨w, rest, rfl, hw, hrest⟩ := settle?_cons h
    obtain rfl | he' := List.mem_cons.mp he'
    · exact ⟨e, List.mem_cons_self, hw⟩
    · obtain ⟨e₀, he₀, hsettle⟩ := ih hrest he'
      exact ⟨e₀, List.mem_cons_of_mem e he₀, hsettle⟩

theorem get?_settle? {t t' : Table} (h : settle? t = some t') (key : String) :
    Settled (t.get? key) (t'.get? key) := by
  induction t generalizing t' with
  | nil =>
    cases h
    exact .none
  | cons e t ih =>
    obtain ⟨k, v⟩ := e
    obtain ⟨w, rest, rfl, hw, hrest⟩ := settle?_cons h
    by_cases hk : key = k
    · subst hk
      rw [get?_cons_self, get?_cons_self]
      exact .some hw
    · rw [get?_cons_of_ne hk, get?_cons_of_ne hk]
      exact ih hrest

end Table

end Lisplet.Toml
