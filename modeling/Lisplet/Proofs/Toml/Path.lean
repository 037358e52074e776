import Lisplet.Proofs.Toml.Distinct

namespace Lisplet.Toml

namespace Value

def at? : Value → List String → Option Value
  | v, [] => some v
  | .table t, key :: path => (Table.get? t key).bind fun v => v.at? path
  | _, _ :: _ => none

def stops : Value → List String → Bool
  | _, [] => false
  | .table t, key :: path => (Table.get? t key).any fun v => v.stops path
  | _, _ :: _ => true

theorem at?_nil (v : Value) : v.at? [] = some v := by
  cases v <;> rfl

theorem at?_table_cons (t : Table) (key : String) (path : List String) :
    (table t).at? (key :: path) = (t.get? key).bind fun v => v.at? path := rfl

theorem at?_cons_of_isTable_eq_false {v : Value} (h : v.isTable = false) (key : String)
    (path : List String) : v.at? (key :: path) = none := by
  cases v <;> first | rfl | cases h

theorem stops_nil (v : Value) : v.stops [] = false := by
  cases v <;> rfl

theorem stops_table_cons (t : Table) (key : String) (path : List String) :
    (table t).stops (key :: path) = (t.get? key).any fun v => v.stops path := rfl

theorem stops_cons_of_isTable_eq_false {v : Value} (h : v.isTable = false) (key : String)
    (path : List String) : v.stops (key :: path) = true := by
  cases v <;> first | rfl | cases h

theorem stops_iff {v : Value} {path : List String} :
    v.stops path = true ↔
      ∃ p, p <+: path ∧ p ≠ path ∧ ∃ w, v.at? p = some w ∧ w.isTable = false := by
  induction path generalizing v with
  | nil =>
    refine iff_of_false (by simp [stops_nil]) ?_
    rintro ⟨p, hp, hne, -⟩
    exact hne (List.prefix_nil.mp hp)
  | cons key path ih =>
    cases ht : v.isTable with
    | false =>
      refine iff_of_true (stops_cons_of_isTable_eq_false ht key path) ?_
      exact ⟨[], List.nil_prefix, (List.cons_ne_nil key path).symm, v, at?_nil v, ht⟩
    | true =>
      obtain ⟨(t : Table), rfl⟩ := isTable_eq_true_iff.mp ht
      rw [stops_table_cons, Option.any_eq_true]
      constructor
      · rintro ⟨u, hu, hstops⟩
        obtain ⟨p, hp, hne, w, hw, hleaf⟩ := ih.mp hstops
        refine ⟨key :: p, List.cons_prefix_cons.mpr ⟨rfl, hp⟩, ?_, w, ?_, hleaf⟩
        · exact fun h => hne (List.cons_inj_right key |>.mp h)
        · rw [at?_table_cons, hu]
          exact hw
      · rintro ⟨p, hp, hne, w, hw, hleaf⟩
        cases p with
        | nil =>
          obtain rfl := Option.some.inj hw
          cases hleaf
        | cons k p =>
          obtain ⟨rfl, hpath⟩ := List.cons_prefix_cons.mp hp
          rw [at?_table_cons] at hw
          obtain ⟨u, hu, hw⟩ := Option.bind_eq_some_iff.mp hw
          exact ⟨u, hu, ih.mpr ⟨p, hpath, fun h => hne (congrArg (k :: ·) h), w, hw, hleaf⟩⟩

theorem at?_of_stops {v : Value} {path : List String} (h : v.stops path = true) :
    v.at? path = none := by
  induction path generalizing v with
  | nil =>
    rw [stops_nil] at h
    cases h
  | cons key path ih =>
    cases ht : v.isTable with
    | false => exact at?_cons_of_isTable_eq_false ht key path
    | true =>
      obtain ⟨(t : Table), rfl⟩ := isTable_eq_true_iff.mp ht
      rw [stops_table_cons, Option.any_eq_true] at h
      obtain ⟨u, hu, hstops⟩ := h
      rw [at?_table_cons, hu]
      exact ih hstops

/-- Where the upper value leads somewhere, what it leads to lies over what the lower one leads to.
Where it leads nowhere the lower one counts, unless the upper one stops on the way. -/
theorem at?_under (v w : Value) (path : List String) :
    (v.under (some w)).at? path =
      (w.at? path).elim (if w.stops path then none else v.at? path)
        fun x => some ((v.at? path).elim x fun y => y.under (some x)) := by
  induction path generalizing v w with
  | nil => simp [at?_nil]
  | cons key path ih =>
    cases hw : w.isTable with
    | false =>
      rw [under_some (.inr hw), at?_cons_of_isTable_eq_false hw, stops_cons_of_isTable_eq_false hw]
      rfl
    | true =>
      obtain ⟨(upper : Table), rfl⟩ := isTable_eq_true_iff.mp hw
      rw [at?_table_cons, stops_table_cons]
      cases hv : v.isTable with
      | false =>
        rw [under_some (.inl hv), at?_table_cons, at?_cons_of_isTable_eq_false hv]
        cases (upper.get? key).bind fun u => u.at? path <;> simp
      | true =>
        obtain ⟨(lower : Table), rfl⟩ := isTable_eq_true_iff.mp hv
        rw [under_table, at?_table_cons, at?_table_cons, Table.get?_merge]
        cases lower.get? key with
        | none =>
          cases (upper.get? key).bind fun u => u.at? path <;> simp
        | some y =>
          cases upper.get? key with
          | none => simp
          | some x => exact ih y x

end Value

namespace Table

theorem at?_eq (t : Table) (path : List String) : t.at? path = (Value.table t).at? path := by
  induction path generalizing t with
  | nil => rfl
  | cons key path ih =>
    rw [Value.at?_table_cons]
    cases path with
    | nil =>
      rw [at?]
      cases t.get? key with
      | none => rfl
      | some v => exact (Value.at?_nil v).symm
    | cons k path =>
      rw [at?]
      · cases h : t.get? key with
        | none => rfl
        | some v =>
          cases v with
          | table inner => exact ih inner
          | _ => rfl
      · simp

def leaf? (t : Table) (path : List String) : Option Value := (t.at? path).filter fun v => !v.isTable

def HasTable (t : Table) (path : List String) : Prop := ∃ inner, t.at? path = some (.table inner)

def Stops (t : Table) (path : List String) : Prop :=
  ∃ p, p <+: path ∧ p ≠ path ∧ (t.leaf? p).isSome

def Agrees (s t : Table) : Prop :=
  ∀ path, s.leaf? path = t.leaf? path ∧ (s.HasTable path ↔ t.HasTable path)

section

variable {s t base overlay : Table} {path : List String} {v : Value}

theorem leaf?_eq_some_iff : t.leaf? path = some v ↔ t.at? path = some v ∧ v.isTable = false := by
  simp [leaf?, Option.filter_eq_some_iff]

theorem hasTable_iff : t.HasTable path ↔ ∃ v, t.at? path = some v ∧ v.isTable = true := by
  constructor
  · rintro ⟨inner, h⟩
    exact ⟨_, h, rfl⟩
  · rintro ⟨v, h, hv⟩
    obtain ⟨inner, rfl⟩ := Value.isTable_eq_true_iff.mp hv
    exact ⟨inner, h⟩

theorem leaf?_of_at? (h : t.at? path = some v) :
    t.leaf? path = if v.isTable then none else some v := by
  rw [leaf?, h, Option.filter_some]
  cases v.isTable <;> rfl

theorem hasTable_of_at? (h : t.at? path = some v) : t.HasTable path ↔ v.isTable = true := by
  simp [hasTable_iff, h]

theorem leaf?_congr (h : s.at? path = t.at? path) : s.leaf? path = t.leaf? path :=
  congrArg (Option.filter _) h

theorem hasTable_congr (h : s.at? path = t.at? path) : s.HasTable path ↔ t.HasTable path := by
  rw [HasTable, h, HasTable]

theorem stops_iff : t.Stops path ↔ (Value.table t).stops path = true := by
  simp only [Stops, Value.stops_iff, ← at?_eq, Option.isSome_iff_exists, leaf?_eq_some_iff]

theorem at?_merge :
    (base.merge overlay).at? path =
      (overlay.at? path).elim (if (Value.table overlay).stops path then none else base.at? path)
        fun x => some ((base.at? path).elim x fun y => y.under (some x)) := by
  simp only [at?_eq, ← Value.under_table, Value.at?_under]

theorem exists_at?_merge (base : Table) {x : Value} (h : overlay.at? path = some x) :
    ∃ y, (base.merge overlay).at? path = some y ∧ y.isTable = x.isTable ∧
      (x.isTable = false → y = x) := by
  rw [at?_merge, h]
  refine ⟨_, rfl, ?_⟩
  cases base.at? path with
  | none => exact ⟨rfl, fun _ => rfl⟩
  | some y => exact ⟨y.isTable_under x, fun hx => Value.under_some (.inr hx)⟩

theorem at?_of_stops (h : t.Stops path) : t.at? path = none := by
  rw [at?_eq]
  exact Value.at?_of_stops (stops_iff.mp h)

theorem at?_merge_of_stops (h : overlay.Stops path) : (base.merge overlay).at? path = none := by
  rw [at?_merge, at?_of_stops h, if_pos (stops_iff.mp h)]
  rfl

theorem at?_merge_of_not_stops (h : overlay.at? path = none) (hs : ¬ overlay.Stops path) :
    (base.merge overlay).at? path = base.at? path := by
  rw [at?_merge, h, if_neg fun hstops => hs (stops_iff.mpr hstops)]
  rfl

theorem leaf?_merge_of_leaf (h : overlay.leaf? path = some v) :
    (base.merge overlay).leaf? path = some v := by
  obtain ⟨hv, ht⟩ := leaf?_eq_some_iff.mp h
  obtain ⟨y, hy, -, hleaf⟩ := exists_at?_merge base hv
  obtain rfl := hleaf ht
  exact leaf?_eq_some_iff.mpr ⟨hy, ht⟩

theorem leaf?_merge_of_covered (h : overlay.HasTable path ∨ overlay.Stops path) :
    (base.merge overlay).leaf? path = none := by
  obtain ⟨inner, hinner⟩ | hstops := h
  · obtain ⟨y, hy, ht, -⟩ := exists_at?_merge base hinner
    rw [leaf?_of_at? hy, ht]
    rfl
  · rw [leaf?, at?_merge_of_stops hstops]
    rfl

theorem at?_eq_none (hleaf : t.leaf? path = none) (ht : ¬ t.HasTable path) : t.at? path = none := by
  cases h : t.at? path with
  | none => rfl
  | some v =>
    rw [hasTable_of_at? h] at ht
    rw [leaf?_of_at? h, if_neg ht] at hleaf
    cases hleaf

theorem hasTable_merge_iff :
    (base.merge overlay).HasTable path ↔
      overlay.HasTable path ∨
        base.HasTable path ∧ overlay.leaf? path = none ∧ ¬ overlay.Stops path := by
  cases h : overlay.at? path with
  | none =>
    have hleaf : overlay.leaf? path = none := congrArg (Option.filter _) h
    by_cases hs : overlay.Stops path
    · simp [HasTable, at?_merge_of_stops hs, h, hs]
    · rw [hasTable_congr (at?_merge_of_not_stops h hs)]
      simp [HasTable, h, hleaf, hs]
  | some x =>
    obtain ⟨y, hy, ht, -⟩ := exists_at?_merge base h
    rw [hasTable_of_at? hy, hasTable_of_at? h, ht, leaf?_of_at? h]
    cases x.isTable <;> simp

theorem agrees_merge_self (t : Table) : (t.merge t).Agrees t := by
  intro path
  cases h : t.at? path with
  | none =>
    have hmerge : (t.merge t).at? path = t.at? path := by
      by_cases hs : t.Stops path
      · rw [at?_merge_of_stops hs, h]
      · exact at?_merge_of_not_stops h hs
    exact ⟨leaf?_congr hmerge, hasTable_congr hmerge⟩
  | some x =>
    obtain ⟨y, hy, ht, hleaf⟩ := exists_at?_merge t h
    rw [leaf?_of_at? hy, leaf?_of_at? h, hasTable_of_at? hy, hasTable_of_at? h, ht]
    refine ⟨?_, Iff.rfl⟩
    split
    · rfl
    · next hx => exact congrArg some (hleaf (Bool.not_eq_true _ ▸ hx))

@[simp] theorem merge_nil_right (t : Table) : t.merge [] = t := by
  simp [merge, underlay_eq_map]

end

/-- Above wins where it has a value, and hides what is below where it has a table or stops short. -/
theorem merge_holds (base overlay : Table) (path : List String) :
    (∀ v, overlay.leaf? path = some v → (base.merge overlay).leaf? path = some v) ∧
      (overlay.HasTable path ∨ overlay.Stops path → (base.merge overlay).leaf? path = none) ∧
      (overlay.leaf? path = none → ¬ overlay.HasTable path → ¬ overlay.Stops path →
        (base.merge overlay).leaf? path = base.leaf? path) ∧
      ((base.merge overlay).HasTable path ↔
        overlay.HasTable path ∨
          base.HasTable path ∧ overlay.leaf? path = none ∧ ¬ overlay.Stops path) ∧
      base.merge [] = base ∧ merge [] overlay = overlay ∧
      (base.merge base).Agrees base ∧ ((Value.table base).Distinct → base.merge base = base) := by
  have self (h : (Value.table base).Distinct) : base.merge base = base :=
    Value.table.inj h.under_self
  exact ⟨fun _ => leaf?_merge_of_leaf, leaf?_merge_of_covered,
    fun hleaf ht hs => leaf?_congr (at?_merge_of_not_stops (at?_eq_none hleaf ht) hs),
    hasTable_merge_iff, merge_nil_right base, merge_nil_left overlay, agrees_merge_self base, self⟩

end Table

end Lisplet.Toml
