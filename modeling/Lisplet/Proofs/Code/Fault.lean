import Lisplet.Code.Render
import Lisplet.Proofs.Code.Wrapping

namespace Lisplet

namespace Code

def WellFormed : Code → Prop
  | declare _ inits => inits.length = 1
  | cond slots => slots.length = 2 ∨ slots.length = 3
  | statement _ | call _ _ | binary _ _ | identifier _ | operator _ | number _ | string _ => True

inductive Faulty : Code → RenderError → Prop
  | missing {name} : Faulty (declare name []) (.missingInitializer name)
  | extra {name inits} : 2 ≤ inits.length →
      Faulty (declare name inits) (.extraInitializers name inits.length)
  | incomplete {slots} : slots.length ≠ 2 → slots.length ≠ 3 →
      Faulty (cond slots) (.incompleteConditional slots.length)

def FirstFault (codes : List Code) (e : RenderError) : Prop :=
  ∃ before c after, codes = before ++ c :: after ∧ (∀ d ∈ before, d.WellFormed) ∧ c.Faulty e

def fault? : Code → Option RenderError
  | declare name [] => some (.missingInitializer name)
  | declare _ [_] => none
  | declare name (c :: d :: rest) => some (.extraInitializers name (c :: d :: rest).length)
  | cond [_, _] | cond [_, _, _] => none
  | cond slots => some (.incompleteConditional slots.length)
  | statement _ | call _ _ | binary _ _ | identifier _ | operator _ | number _ | string _ => none

theorem fault?_eq_none_iff (c : Code) : c.fault? = none ↔ c.WellFormed := by
  cases c with
  | declare name inits =>
    match inits with
    | [] | [_] | _ :: _ :: _ => simp [fault?, WellFormed]
  | cond slots =>
    match slots with
    | [] | [_] | [_, _] | [_, _, _] | _ :: _ :: _ :: _ :: _ => simp [fault?, WellFormed]
  | statement | call | binary | identifier | operator | number | string =>
    simp [fault?, WellFormed]

theorem fault?_eq_some_iff (c : Code) (e : RenderError) : c.fault? = some e ↔ c.Faulty e := by
  constructor
  · intro h
    cases c with
    | declare name inits =>
      match inits with
      | [] =>
        cases h
        exact .missing
      | [_] => cases h
      | c :: d :: rest =>
        cases h
        exact .extra (Nat.le_add_left 2 rest.length)
    | cond slots =>
      match slots with
      | [] | [_] | _ :: _ :: _ :: _ :: _ =>
        cases h
        exact .incomplete (by simp) (by simp)
      | [_, _] | [_, _, _] => cases h
    | statement | call | binary | identifier | operator | number | string => cases h
  · intro h
    cases h with
    | missing => rfl
    | @extra name inits hinits =>
      match inits with
      | [] | [_] => simp at hinits
      | c :: d :: rest => rfl
    | @incomplete slots htwo hthree =>
      match slots with
      | [] | [_] | _ :: _ :: _ :: _ :: _ => rfl
      | [_, _] => exact absurd rfl htwo
      | [_, _, _] => exact absurd rfl hthree

theorem findSome?_fault?_eq_none_iff (codes : List Code) :
    codes.findSome? fault? = none ↔ ∀ c ∈ codes, c.WellFormed := by
  simp only [List.findSome?_eq_none_iff, fault?_eq_none_iff]

theorem findSome?_fault?_eq_some_iff (codes : List Code) (e : RenderError) :
    codes.findSome? fault? = some e ↔ FirstFault codes e := by
  simp only [List.findSome?_eq_some_iff, fault?_eq_none_iff, fault?_eq_some_iff, FirstFault]
  constructor
  · rintro ⟨before, c, after, hcodes, hc, hbefore⟩
    exact ⟨before, c, after, hcodes, hbefore, hc⟩
  · rintro ⟨before, c, after, hcodes, hbefore, hc⟩
    exact ⟨before, c, after, hcodes, hc, hbefore⟩

def refusal? : Except RenderError α → Option RenderError
  | .ok _ => none
  | .error e => some e

theorem refusal?_eq_none_iff (x : Except RenderError α) : refusal? x = none ↔ ∃ a, x = .ok a := by
  cases x <;> simp [refusal?]

theorem refusal?_eq_some_iff (x : Except RenderError α) (e : RenderError) :
    refusal? x = some e ↔ x = .error e := by
  cases x <;> simp [refusal?]

theorem refusal?_bind (x : Except RenderError α) {f : α → Except RenderError β}
    {r : Option RenderError} (h : ∀ a, refusal? (f a) = r) :
    refusal? (x >>= f) = (refusal? x).or r := by
  cases x with
  | ok a => exact h a
  | error e => rfl

theorem refusal?_bind_pure (x : Except RenderError α) (f : α → β) :
    refusal? (x >>= fun a => pure (f a)) = refusal? x := by
  cases x <;> rfl

theorem findSome?_fault?_nodes (c : Code) :
    c.nodes.findSome? fault? = c.fault?.or ((c.children.flatMap nodes).findSome? fault?) := by
  rw [nodes_eq, List.findSome?_cons]
  cases c.fault? <;> rfl

theorem refusal?_renderAll {codes : List Code}
    (h : ∀ c ∈ codes, refusal? c.render = c.nodes.findSome? fault?) :
    refusal? (renderAll codes) = (codes.flatMap nodes).findSome? fault? := by
  induction codes with
  | nil => rfl
  | cons c codes ih =>
    rw [List.forall_mem_cons] at h
    rw [renderAll, refusal?_bind _ fun text => refusal?_bind_pure (renderAll codes) _, h.1, ih h.2,
      List.flatMap_cons, List.findSome?_append]

/-- The text of a bare string is taken as it is, and it cannot be refused either. -/
theorem refusal?_render_initialized (name : String) (c : Code) :
    refusal? (declare name [c]).render = refusal? c.render := by
  cases c with
  | string => rfl
  | statement | call | binary | declare | cond | identifier | operator | number =>
    exact refusal?_bind_pure _ _

theorem refusal?_render_declare (name : String) {inits : List Code}
    (h : ∀ c ∈ inits, refusal? c.render = c.nodes.findSome? fault?) :
    refusal? (declare name inits).render = (declare name inits).nodes.findSome? fault? := by
  rw [findSome?_fault?_nodes]
  match inits with
  | [] => rfl
  | [c] =>
    rw [refusal?_render_initialized, h c List.mem_cons_self]
    simp [fault?, children]
  | c :: d :: rest =>
    rw [render]
    rfl

theorem refusal?_render_cond {slots : List Code}
    (h : ∀ c ∈ slots, refusal? c.render = c.nodes.findSome? fault?) :
    refusal? (cond slots).render = (cond slots).nodes.findSome? fault? := by
  rw [findSome?_fault?_nodes]
  match slots with
  | [] | [_] | _ :: _ :: _ :: _ :: _ => rfl
  | [condition, conseq] =>
    simp only [List.forall_mem_cons] at h
    rw [render, refusal?_bind _ fun text => refusal?_bind_pure conseq.render _, h.1, h.2.1]
    simp [fault?, children, List.findSome?_append]
  | [condition, conseq, alt] =>
    simp only [List.forall_mem_cons] at h
    rw [render, refusal?_bind _ fun text =>
      refusal?_bind _ fun value => refusal?_bind_pure alt.render _, h.1, h.2.1, h.2.2.1]
    simp [fault?, children, List.findSome?_append]

theorem refusal?_render (c : Code) : refusal? c.render = c.nodes.findSome? fault? := by
  induction c using Code.induct with
  | statement c ih =>
    rw [render, refusal?_bind_pure, ih, findSome?_fault?_nodes (statement c)]
    simp [fault?, children]
  | call callee args ih =>
    rw [render, refusal?_bind_pure, refusal?_renderAll ih, findSome?_fault?_nodes]
    simp [fault?, children]
  | binary op operands ih =>
    rw [render, refusal?_bind_pure, refusal?_renderAll ih, findSome?_fault?_nodes]
    simp [fault?, children]
  | declare name inits ih => exact refusal?_render_declare name ih
  | cond slots ih => exact refusal?_render_cond ih
  | identifier | operator | number | string => rfl

end Code

theorem refusal?_render (program : List Code) :
    Code.refusal? (render program) = (program.flatMap Code.nodes).findSome? Code.fault? := by
  rw [render, Code.refusal?_bind_pure, Code.refusal?_renderAll fun c _ => c.refusal?_render]

theorem render_blames_first_fault :
    (∀ program : List Code,
      ((∃ text, render program = .ok text) ↔
        ∀ c ∈ program.flatMap Code.nodes, c.WellFormed) ∧
      ∀ e, render program = .error e ↔ Code.FirstFault (program.flatMap Code.nodes) e) ∧
    ∀ c : Code,
      ((∃ text, c.render = .ok text) ↔ ∀ d ∈ c.nodes, d.WellFormed) ∧
      ∀ e, c.render = .error e ↔ Code.FirstFault c.nodes e := by
  constructor
  · intro program
    rw [← Code.refusal?_eq_none_iff, refusal?_render, Code.findSome?_fault?_eq_none_iff]
    refine ⟨Iff.rfl, fun e => ?_⟩
    rw [← Code.refusal?_eq_some_iff, refusal?_render, Code.findSome?_fault?_eq_some_iff]
  · intro c
    rw [← Code.refusal?_eq_none_iff, c.refusal?_render, Code.findSome?_fault?_eq_none_iff]
    refine ⟨Iff.rfl, fun e => ?_⟩
    rw [← Code.refusal?_eq_some_iff, c.refusal?_render, Code.findSome?_fault?_eq_some_iff]

end Lisplet
