import Lisplet.Proofs.Code.Wrapping
import Mathlib.Algebra.Ring.Nat
import Mathlib.Data.List.Nodup
import Mathlib.Data.List.Perm.Basic

namespace Lisplet

namespace Form

def surplus : Form → List Form
  | number _ | symbol _ | call _ _ | binary _ _ => []
  | declare _ inits => inits.drop 1
  | cond _ _ alts => alts.drop 1

def notice? : Form → Option Notice
  | declare name inits =>
    if 1 < inits.length then some (.initializers name (inits.length - 1)) else none
  | cond _ _ alts => if 1 < alts.length then some (.alternatives (alts.length - 1)) else none
  | number _ | symbol _ | call _ _ | binary _ _ => none

mutual

def keptPostorder : Form → List Form
  | number text => [number text]
  | symbol text => [symbol text]
  | call callee args => keptPostorderAll args ++ [call callee args]
  | binary op operands => keptPostorderAll operands ++ [binary op operands]
  | declare name inits => keptPostorderFirst inits ++ [declare name inits]
  | cond test conseq alts =>
    test.keptPostorder ++ conseq.keptPostorder ++ keptPostorderFirst alts ++
      [cond test conseq alts]

def keptPostorderAll : List Form → List Form
  | [] => []
  | f :: fs => f.keptPostorder ++ keptPostorderAll fs

def keptPostorderFirst : List Form → List Form
  | [] => []
  | f :: _ => f.keptPostorder

end

theorem keptPostorderAll_eq_flatMap (fs : List Form) :
    keptPostorderAll fs = fs.flatMap keptPostorder := by
  induction fs with
  | nil => rfl
  | cons f fs ih => simp [keptPostorderAll, ih]

theorem keptPostorderFirst_eq_flatMap (fs : List Form) :
    keptPostorderFirst fs = (fs.take 1).flatMap keptPostorder := by
  cases fs <;> simp [keptPostorderFirst]

theorem noticesFirst_eq_flatMap (fs : List Form) :
    noticesFirst fs = (fs.take 1).flatMap notices := by
  cases fs <;> simp [noticesFirst]

theorem keptPostorder_eq (f : Form) :
    f.keptPostorder = f.keptChildren.flatMap keptPostorder ++ [f] := by
  cases f <;> simp [keptPostorder, keptChildren, keptPostorderAll_eq_flatMap,
    keptPostorderFirst_eq_flatMap]

theorem notices_eq (f : Form) :
    f.notices = f.keptChildren.flatMap notices ++ f.notice?.toList := by
  cases f with
  | number | symbol => rfl
  | call | binary => simp [notices, keptChildren, notice?]
  | declare name inits =>
    rw [notices, noticesFirst_eq_flatMap, keptChildren, notice?]
    split <;> rfl
  | cond test conseq alts =>
    rw [notices, noticesFirst_eq_flatMap, keptChildren, notice?]
    split <;> simp

theorem children_eq (f : Form) : f.children = f.keptChildren ++ f.surplus := by
  cases f with
  | number | symbol => rfl
  | call | binary => exact (List.append_nil _).symm
  | declare name inits => exact (List.take_append_drop 1 inits).symm
  | cond test conseq alts =>
    exact congrArg (test :: conseq :: ·) (List.take_append_drop 1 alts).symm

theorem dropped_notice? (f : Form) :
    (f.notice?.toList.map Notice.dropped).sum = f.surplus.length := by
  cases f with
  | number | symbol | call | binary => rfl
  | declare _ fs | cond _ _ fs =>
    rw [notice?, surplus, List.length_drop]
    split
    · rfl
    · next h => exact (Nat.sub_eq_zero_of_le (Nat.le_of_not_lt h)).symm

theorem notice?_eq_none_iff (f : Form) : f.notice? = none ↔ f.surplus = [] := by
  cases f with
  | number | symbol | call | binary => exact ⟨fun _ => rfl, fun _ => rfl⟩
  | declare _ fs | cond _ _ fs =>
    rw [notice?, surplus, List.drop_eq_nil_iff]
    split
    · next h => exact ⟨nofun, fun hle => absurd h (Nat.not_lt.2 hle)⟩
    · next h => exact ⟨fun _ => Nat.le_of_not_lt h, fun _ => rfl⟩

theorem notices_eq_filterMap (f : Form) : f.notices = f.keptPostorder.filterMap notice? := by
  induction f using inductChildren with
  | node f ih =>
    have hkept : f.keptChildren.flatMap notices =
        f.keptChildren.flatMap fun g => g.keptPostorder.filterMap notice? :=
      List.flatMap_congr fun g hg => ih g (f.keptChildren_subset hg)
    rw [notices_eq, keptPostorder_eq, List.filterMap_append, List.filterMap_flatMap, hkept]
    cases h : f.notice? <;> simp [h]

theorem keptPostorder_perm (f : Form) : f.keptPostorder.Perm f.kept := by
  induction f using inductChildren with
  | node f ih =>
    rw [keptPostorder_eq, kept_eq]
    have hkept : (f.keptChildren.flatMap keptPostorder).Perm (f.keptChildren.flatMap kept) :=
      List.Perm.flatMap_left _ fun g hg => ih g (f.keptChildren_subset hg)
    exact (List.perm_append_singleton f _).trans (hkept.cons f)

theorem map_prune_eq_self_iff (fs : List Form) :
    fs.map prune = fs ↔ ∀ f ∈ fs, f.prune = f := by
  have h : fs.map prune = fs.map id ↔ ∀ f ∈ fs, f.prune = id f := List.map_inj_left
  rwa [List.map_id] at h

theorem map_prune_take_eq_self_iff (fs : List Form) :
    (fs.take 1).map prune = fs ↔ fs.drop 1 = [] ∧ ∀ f ∈ fs.take 1, f.prune = f := by
  match fs with
  | [] | [_] | _ :: _ :: _ => simp

theorem prune_eq_self_iff (f : Form) :
    f.prune = f ↔ f.surplus = [] ∧ ∀ g ∈ f.keptChildren, g.prune = g := by
  cases f with
  | number | symbol => simp [prune, surplus, keptChildren]
  | call | binary => simp [prune, surplus, keptChildren, map_prune_eq_self_iff]
  | declare name inits =>
    rw [prune, pruneFirst_eq_map, declare.injEq, map_prune_take_eq_self_iff]
    simp [surplus, keptChildren]
  | cond test conseq alts =>
    rw [prune, pruneFirst_eq_map, cond.injEq, map_prune_take_eq_self_iff]
    simp [surplus, keptChildren, and_left_comm]

theorem notices_eq_nil_iff (f : Form) : f.notices = [] ↔ f.prune = f := by
  induction f using inductChildren with
  | node f ih =>
    rw [notices_eq, prune_eq_self_iff, List.append_eq_nil_iff, List.flatMap_eq_nil_iff,
      Option.toList_eq_nil_iff, notice?_eq_none_iff, and_comm]
    exact and_congr_right fun _ => forall₂_congr fun g hg => ih g (f.keptChildren_subset hg)

end Form

/-- What stands at the position. Its first number picks a root, and each further one a child. -/
def nodeAt? (children : α → List α) : List α → List Nat → Option α
  | _, [] => none
  | roots, [i] => roots[i]?
  | roots, i :: j :: position =>
    roots[i]?.bind fun a => nodeAt? children (children a) (j :: position)

section

variable {children : α → List α}

theorem nodeAt?_nil (position : List Nat) : nodeAt? children [] position = none := by
  match position with
  | [] | [_] | _ :: _ :: _ => rfl

theorem nodeAt?_cons_succ (a : α) (roots : List α) (i : Nat) (position : List Nat) :
    nodeAt? children (a :: roots) ((i + 1) :: position) =
      nodeAt? children roots (i :: position) := by
  cases position <;> rfl

theorem isSome_of_isSome_nodeAt? {roots : List α} {i : Nat} {position : List Nat}
    (h : (nodeAt? children roots (i :: position)).isSome) : roots[i]?.isSome := by
  cases position with
  | nil => exact h
  | cons j position => exact Option.isSome_of_isSome_bind h

end

def Code.coreChildren (c : Code) : List Code := c.core.children

structure Lost (forms : List Form) (codes : List Code) (position : List Nat) : Prop where
  form : (nodeAt? Form.children forms position).isSome
  code : nodeAt? Code.coreChildren codes position = none

structure FirstLost (forms : List Form) (codes : List Code) (position : List Nat) : Prop
    extends Lost forms codes position where
  first : ∀ p, Lost forms codes p → p <+: position → p = position

/-- Of the forms, `n` are lost, and with each of them only what is in it. -/
def Loses (forms : List Form) (codes : List Code) (n : Nat) : Prop :=
  ∃ positions : List (List Nat), positions.Nodup ∧
    (∀ p, p ∈ positions ↔ FirstLost forms codes p) ∧ positions.length = n

section

variable {f : Form} {fs : List Form} {c : Code} {cs : List Code} {i : Nat} {position : List Nat}

theorem not_lost_nil : ¬ Lost fs cs [] := by
  rintro ⟨hform, -⟩
  cases hform

theorem Lost.exists_cons (h : Lost fs cs position) : ∃ i p, position = i :: p := by
  cases position with
  | nil => exact absurd h not_lost_nil
  | cons i p => exact ⟨i, p, rfl⟩

theorem lost_zero_iff :
    Lost (f :: fs) (c :: cs) (0 :: position) ↔ Lost f.children c.coreChildren position := by
  cases position with
  | nil =>
    constructor
    · rintro ⟨-, hcode⟩
      cases hcode
    · exact fun h => absurd h not_lost_nil
  | cons j position => exact ⟨fun h => ⟨h.form, h.code⟩, fun h => ⟨h.form, h.code⟩⟩

theorem lost_succ_iff :
    Lost (f :: fs) (c :: cs) ((i + 1) :: position) ↔ Lost fs cs (i :: position) := by
  constructor
  · rintro ⟨hform, hcode⟩
    rw [nodeAt?_cons_succ] at hform hcode
    exact ⟨hform, hcode⟩
  · rintro ⟨hform, hcode⟩
    rw [← nodeAt?_cons_succ f] at hform
    rw [← nodeAt?_cons_succ c] at hcode
    exact ⟨hform, hcode⟩

/-- The empty position is not lost, so that only positions below the same root matter. -/
theorem firstLost_iff :
    FirstLost fs cs (i :: position) ↔
      Lost fs cs (i :: position) ∧ ∀ p, Lost fs cs (i :: p) → p <+: position → p = position := by
  constructor
  · rintro ⟨hlost, hfirst⟩
    refine ⟨hlost, fun p hp hprefix => ?_⟩
    have h := hfirst (i :: p) hp (List.cons_prefix_cons.2 ⟨rfl, hprefix⟩)
    exact (List.cons.inj h).2
  · rintro ⟨hlost, hfirst⟩
    refine ⟨hlost, fun p hp hprefix => ?_⟩
    obtain ⟨j, p, rfl⟩ := hp.exists_cons
    obtain ⟨rfl, htail⟩ := List.cons_prefix_cons.1 hprefix
    rw [hfirst p hp htail]

theorem firstLost_zero_iff :
    FirstLost (f :: fs) (c :: cs) (0 :: position) ↔
      FirstLost f.children c.coreChildren position := by
  simp only [firstLost_iff, lost_zero_iff]
  exact ⟨fun h => ⟨h.1, h.2⟩, fun h => ⟨h.toLost, h.first⟩⟩

theorem firstLost_succ_iff :
    FirstLost (f :: fs) (c :: cs) ((i + 1) :: position) ↔ FirstLost fs cs (i :: position) := by
  simp only [firstLost_iff, lost_succ_iff]

theorem firstLost_nil_iff : FirstLost fs [] position ↔ ∃ i < fs.length, position = [i] := by
  constructor
  · intro h
    obtain ⟨i, p, rfl⟩ := h.toLost.exists_cons
    have hroot : fs[i]?.isSome := isSome_of_isSome_nodeAt? h.form
    have hp := (firstLost_iff.1 h).2 [] ⟨hroot, nodeAt?_nil [i]⟩ List.nil_prefix
    exact ⟨i, by simpa using hroot, congrArg (i :: ·) hp.symm⟩
  · rintro ⟨i, hi, rfl⟩
    have hroot : fs[i]?.isSome := by simpa using hi
    exact firstLost_iff.2 ⟨⟨hroot, nodeAt?_nil [i]⟩, fun p _ hprefix => List.prefix_nil.1 hprefix⟩

theorem loses_nil (fs : List Form) : Loses fs [] fs.length := by
  refine ⟨(List.range fs.length).map fun i => [i], ?nodup, ?mem, by simp⟩
  case nodup => exact List.nodup_range.map fun i j h => (List.cons.inj h).1
  case mem =>
    intro p
    rw [firstLost_nil_iff]
    simp [eq_comm]

theorem modifyHead_succ_injective : Function.Injective (List.modifyHead (· + 1 : Nat → Nat)) := by
  rintro (_ | ⟨i, p⟩) (_ | ⟨j, q⟩) h <;> simp_all

theorem firstLost_cons_iff :
    FirstLost (f :: fs) (c :: cs) position ↔
      (∃ p, FirstLost f.children c.coreChildren p ∧ 0 :: p = position) ∨
        ∃ p, FirstLost fs cs p ∧ p.modifyHead (· + 1) = position := by
  constructor
  · intro h
    obtain ⟨i, p, rfl⟩ := h.toLost.exists_cons
    cases i with
    | zero => exact .inl ⟨p, firstLost_zero_iff.1 h, rfl⟩
    | succ i => exact .inr ⟨i :: p, firstLost_succ_iff.1 h, rfl⟩
  · rintro (⟨p, h, rfl⟩ | ⟨p, h, rfl⟩)
    · exact firstLost_zero_iff.2 h
    · obtain ⟨i, p, rfl⟩ := h.toLost.exists_cons
      exact firstLost_succ_iff.2 h

theorem Loses.cons {m n : Nat} (hf : Loses f.children c.coreChildren m) (h : Loses fs cs n) :
    Loses (f :: fs) (c :: cs) (m + n) := by
  obtain ⟨inner, hinner, hmem, rfl⟩ := hf
  obtain ⟨rest, hrest, hmem', rfl⟩ := h
  refine ⟨inner.map (0 :: ·) ++ rest.map (List.modifyHead (· + 1)), ?nodup, ?mem, by simp⟩
  case nodup =>
    have hinner' := hinner.map (List.cons_injective (a := 0))
    have hrest' := hrest.map modifyHead_succ_injective
    refine List.nodup_append.2 ⟨hinner', hrest', fun p hp q hq => ?_⟩
    obtain ⟨p, -, rfl⟩ := List.mem_map.1 hp
    obtain ⟨r, hr, rfl⟩ := List.mem_map.1 hq
    obtain ⟨j, r, rfl⟩ := ((hmem' r).1 hr).toLost.exists_cons
    simp
  case mem =>
    intro p
    rw [List.mem_append, List.mem_map, List.mem_map, firstLost_cons_iff]
    simp only [hmem, hmem']

end

namespace Form

theorem loses_append {kept : List Form} {place : Place} (rest : List Form)
    (h : ∀ f ∈ kept, Loses f.children (f.lower place).coreChildren
      (f.notices.map Notice.dropped).sum) :
    Loses (kept ++ rest) (kept.map (lower place))
      (((kept.flatMap notices).map Notice.dropped).sum + rest.length) := by
  induction kept with
  | nil =>
    have hrest := loses_nil rest
    simpa using hrest
  | cons f kept ih =>
    rw [List.forall_mem_cons] at h
    have hcons := h.1.cons (ih h.2)
    simpa [Nat.add_assoc] using hcons

theorem loses_lower (f : Form) (place : Place) :
    Loses f.children (f.lower place).coreChildren (f.notices.map Notice.dropped).sum := by
  induction f using inductChildren generalizing place with
  | node f ih =>
    cases h : f.place? with
    | none =>
      obtain ⟨text, rfl | rfl⟩ := exists_literal_of_place? h
      all_goals exact loses_nil []
    | some inner =>
      rw [Code.coreChildren, children_core_lower h, children_eq, notices_eq, List.map_append,
        List.sum_append, dropped_notice?]
      exact loses_append f.surplus fun g hg => ih g (f.keptChildren_subset hg) inner

theorem exists_nodeAt?_eq {kept : List Form} {place : Place} {position : List Nat} {c : Code}
    (rest : List Form)
    (h : nodeAt? Code.coreChildren (kept.map (lower place)) position = some c) :
    ∃ inner f, nodeAt? children (kept ++ rest) position = some f ∧ c = f.lower inner := by
  induction position generalizing kept rest place with
  | nil => cases h
  | cons i position ih =>
    have happend {f : Form} (hf : kept[i]? = some f) : (kept ++ rest)[i]? = some f :=
      (List.getElem?_append_left (List.getElem?_eq_some_iff.1 hf).1).trans hf
    cases position with
    | nil =>
      rw [nodeAt?, List.getElem?_map, Option.map_eq_some_iff] at h
      obtain ⟨f, hf, rfl⟩ := h
      exact ⟨place, f, happend hf, rfl⟩
    | cons j position =>
      rw [nodeAt?, List.getElem?_map, Option.bind_eq_some_iff] at h
      obtain ⟨d, hd, h⟩ := h
      obtain ⟨f, hf, rfl⟩ := Option.map_eq_some_iff.1 hd
      cases hp : f.place? with
      | none =>
        obtain ⟨text, rfl | rfl⟩ := exists_literal_of_place? hp
        all_goals cases (nodeAt?_nil (j :: position)).symm.trans h
      | some inner =>
        rw [Code.coreChildren, children_core_lower hp] at h
        obtain ⟨below, g, hg, hc⟩ := ih f.surplus h
        rw [← children_eq] at hg
        refine ⟨below, g, ?_, hc⟩
        rw [nodeAt?, happend hf]
        exact hg

end Form

/-- The notices of a program are those of its kept forms, in the order in which they are finished.
There is none if the program loses nothing, and they add up to what it loses. -/
theorem notices_tell_losses (program : List Form) :
    notices program = (program.flatMap Form.keptPostorder).filterMap Form.notice? ∧
    (program.flatMap Form.keptPostorder).Perm (program.flatMap Form.kept) ∧
    (notices program = [] ↔ program.map Form.prune = program) ∧
    Loses program (lower program) ((notices program).map Notice.dropped).sum ∧
    ∀ position c, nodeAt? Code.coreChildren (lower program) position = some c →
      ∃ place f, nodeAt? Form.children program position = some f ∧ c = f.lower place := by
  rw [notices, Form.noticesAll_eq_flatMap, lower, Form.lowerAll_eq_map]
  refine ⟨?order, ?kept, ?none, ?losses, ?images⟩
  case order =>
    rw [List.filterMap_flatMap]
    exact List.flatMap_congr fun f _ => f.notices_eq_filterMap
  case kept => exact List.Perm.flatMap_left program fun f _ => f.keptPostorder_perm
  case none =>
    rw [List.flatMap_eq_nil_iff, Form.map_prune_eq_self_iff]
    exact forall₂_congr fun f _ => f.notices_eq_nil_iff
  case losses =>
    have h := Form.loses_append [] fun f (_ : f ∈ program) => f.loses_lower .program
    simpa using h
  case images =>
    intro position c h
    obtain ⟨place, f, hf, hc⟩ := Form.exists_nodeAt?_eq [] h
    rw [List.append_nil] at hf
    exact ⟨place, f, hf, hc⟩

end Lisplet
