import Lisplet.Toml.Value

namespace Lisplet.Toml

mutual

/-- What a key holds that has this value below and perhaps another one above. Two tables merge;
anything else above hides what is below. -/
def Value.under : Value → Option Value → Value
  | v, none => v
  | .table base, some (.table overlay) =>
    .table (Table.underlay base overlay ++ overlay.filter fun e => (base.lookup e.1).isNone)
  | _, some v => v

def Table.underlay : Table → Table → Table
  | [], _ => []
  | (key, v) :: rest, overlay => (key, v.under (overlay.lookup key)) :: Table.underlay rest overlay

end

def Table.merge (base overlay : Table) : Table :=
  base.underlay overlay ++ overlay.filter fun e => (base.get? e.1).isNone

@[simp] theorem Value.under_none (v : Value) : v.under none = v := by
  cases v <;> rfl

theorem Value.under_table (base overlay : Table) :
    (Value.table base).under (some (.table overlay)) = .table (base.merge overlay) := rfl

theorem Value.under_some {v w : Value} (h : v.isTable = false ∨ w.isTable = false) :
    v.under (some w) = w := by
  cases v <;> cases w <;> simp_all [Value.under, Value.isTable]

theorem Value.isTable_under (v w : Value) : (v.under (some w)).isTable = w.isTable := by
  cases v <;> cases w <;> rfl

namespace Table

@[simp] theorem get?_nil (key : String) : get? [] key = none := rfl

theorem get?_cons_self {key : String} {v : Value} {t : Table} :
    get? ((key, v) :: t) key = some v := by
  simp [get?]

theorem get?_cons_of_ne {key k : String} {v : Value} {t : Table} (h : key ≠ k) :
    get? ((k, v) :: t) key = t.get? key := by
  simp [get?, List.lookup_cons, beq_false_of_ne h]

theorem get?_underlay (base overlay : Table) (key : String) :
    (base.underlay overlay).get? key = (base.get? key).map fun v => v.under (overlay.get? key) := by
  induction base with
  | nil => rfl
  | cons e rest ih =>
    obtain ⟨k, v⟩ := e
    by_cases h : key = k
    · subst h
      rw [underlay, get?_cons_self, get?_cons_self]
      rfl
    · rw [underlay, get?_cons_of_ne h, get?_cons_of_ne h, ih]

theorem get?_filter_isNone (base overlay : Table) (key : String) :
    get? (overlay.filter fun e => (base.get? e.1).isNone) key =
      if (base.get? key).isNone then overlay.get? key else none := by
  induction overlay with
  | nil => cases base.get? key <;> rfl
  | cons e rest ih =>
    obtain ⟨k, v⟩ := e
    by_cases hk : key = k
    · subst hk
      cases h : base.get? key with
      | none => simp only [List.filter_cons, h, Option.isNone_none, if_true, get?_cons_self]
      | some w =>
        simp only [List.filter_cons, h, Option.isNone_some, Bool.false_eq_true, if_false] at ih ⊢
        exact ih
    · rw [get?_cons_of_ne hk, ← ih, List.filter_cons]
      split
      · exact get?_cons_of_ne hk
      · rfl

theorem get?_append (s t : Table) (key : String) :
    (s ++ t).get? key = (s.get? key).or (t.get? key) := by
  simp [get?, List.lookup_append]

theorem get?_merge (base overlay : Table) (key : String) :
    (base.merge overlay).get? key =
      match base.get? key with
      | some v => some (v.under (overlay.get? key))
      | none => overlay.get? key := by
  rw [merge, get?_append, get?_underlay, get?_filter_isNone]
  cases base.get? key <;> simp

theorem get?_merge_eq_or {base overlay : Table} {key : String}
    (h : ∀ v, base.get? key = some v → v.isTable = false) :
    (base.merge overlay).get? key = (overlay.get? key).or (base.get? key) := by
  rw [get?_merge]
  cases hv : base.get? key with
  | none => exact Option.or_none.symm
  | some v =>
    cases overlay.get? key with
    | none => exact congrArg some v.under_none
    | some w => exact congrArg some (Value.under_some (.inl (h v hv)))

@[simp] theorem merge_nil_left (t : Table) : merge [] t = t := by
  simp [merge, underlay]

end Table

end Lisplet.Toml
