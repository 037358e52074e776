import Lisplet.Lowering
import Lisplet.Proofs.Form.Spelling

namespace Lisplet

/-- The operator of a form with `n` operands, as far as its text tells: with fewer than two there
is nothing for it to stand between. -/
def Operator.shown (op : Operator) (n : Nat) : Operator := if 1 < n then op else .add

namespace Form

def keptChildren : Form → List Form
  | number _ | symbol _ => []
  | call _ args => args
  | binary _ operands => operands
  | declare _ inits => inits.take 1
  | cond test conseq alts => test :: conseq :: alts.take 1

mutual

def kept : Form → List Form
  | number text => [number text]
  | symbol text => [symbol text]
  | call callee args => call callee args :: keptAll args
  | binary op operands => binary op operands :: keptAll operands
  | declare name inits => declare name inits :: keptFirst inits
  | cond test conseq alts => cond test conseq alts :: (test.kept ++ conseq.kept ++ keptFirst alts)

def keptAll : List Form → List Form
  | [] => []
  | f :: fs => f.kept ++ keptAll fs

def keptFirst : List Form → List Form
  | [] => []
  | f :: _ => f.kept

end

mutual

def prune : Form → Form
  | number text => number text
  | symbol text => symbol text
  | call callee args => call callee (pruneAll args)
  | binary op operands => binary op (pruneAll operands)
  | declare name inits => declare name (pruneFirst inits)
  | cond test conseq alts => cond test.prune conseq.prune (pruneFirst alts)

def pruneAll : List Form → List Form
  | [] => []
  | f :: fs => f.prune :: pruneAll fs

def pruneFirst : List Form → List Form
  | [] => []
  | f :: _ => [f.prune]

end

mutual

def forgetIdle : Form → Form
  | number text => number text
  | symbol text => symbol text
  | call callee args => call callee (forgetIdleAll args)
  | binary op operands => binary (op.shown operands.length) (forgetIdleAll operands)
  | declare name inits => declare name (forgetIdleAll inits)
  | cond test conseq alts => cond test.forgetIdle conseq.forgetIdle (forgetIdleAll alts)

def forgetIdleAll : List Form → List Form
  | [] => []
  | f :: fs => f.forgetIdle :: forgetIdleAll fs

end

def normal (f : Form) : Form := f.prune.forgetIdle

@[simp] theorem keptAll_eq_flatMap (fs : List Form) : keptAll fs = fs.flatMap kept := by
  induction fs with
  | nil => rfl
  | cons f fs ih => simp [keptAll, ih]

@[simp] theorem keptFirst_eq_flatMap (fs : List Form) :
    keptFirst fs = (fs.take 1).flatMap kept := by
  cases fs <;> simp [keptFirst]

theorem kept_eq (f : Form) : f.kept = f :: f.keptChildren.flatMap kept := by
  cases f <;> simp [kept, keptChildren]

@[simp] theorem pruneAll_eq_map (fs : List Form) : pruneAll fs = fs.map prune := by
  induction fs with
  | nil => rfl
  | cons f fs ih => simp [pruneAll, ih]

@[simp] theorem pruneFirst_eq_map (fs : List Form) : pruneFirst fs = (fs.take 1).map prune := by
  cases fs <;> rfl

@[simp] theorem forgetIdleAll_eq_map (fs : List Form) : forgetIdleAll fs = fs.map forgetIdle := by
  induction fs with
  | nil => rfl
  | cons f fs ih => simp [forgetIdleAll, ih]

@[simp] theorem normal_number (text : String) : (number text).normal = number text := rfl

@[simp] theorem normal_symbol (text : String) : (symbol text).normal = symbol text := rfl

@[simp] theorem normal_call (callee : String) (args : List Form) :
    (call callee args).normal = call callee (args.map normal) := by
  simp [normal, prune, forgetIdle, Function.comp_def]

@[simp] theorem normal_binary (op : Operator) (operands : List Form) :
    (binary op operands).normal = binary (op.shown operands.length) (operands.map normal) := by
  simp [normal, prune, forgetIdle, Function.comp_def]

@[simp] theorem normal_declare (name : String) (inits : List Form) :
    (declare name inits).normal = declare name ((inits.take 1).map normal) := by
  cases inits <;> simp [normal, prune, forgetIdle]

@[simp] theorem normal_cond (test conseq : Form) (alts : List Form) :
    (cond test conseq alts).normal =
      cond test.normal conseq.normal ((alts.take 1).map normal) := by
  cases alts <;> simp [normal, prune, forgetIdle]

theorem keptChildren_subset (f : Form) : f.keptChildren ⊆ f.children := by
  cases f with
  | number | symbol | call | binary => exact List.Subset.refl _
  | declare name inits => exact List.take_subset 1 inits
  | cond test conseq alts =>
    exact List.cons_subset_cons _ (List.cons_subset_cons _ (List.take_subset 1 alts))

theorem kept_subset_nodes (f : Form) : f.kept ⊆ f.nodes := by
  induction f using inductChildren with
  | node f ih =>
    intro g hg
    rw [kept_eq, List.mem_cons, List.mem_flatMap] at hg
    rw [nodes_eq, List.mem_cons, List.mem_flatMap]
    cases hg with
    | inl hg => exact .inl hg
    | inr hg =>
      obtain ⟨c, hc, hg⟩ := hg
      exact .inr ⟨c, f.keptChildren_subset hc, ih c (f.keptChildren_subset hc) hg⟩

theorem lower_prune (f : Form) (place : Place) : f.prune.lower place = f.lower place := by
  induction f using Form.induct generalizing place with
  | number | symbol => rfl
  | call callee args ih =>
    have hargs : args.map (fun f => f.prune.lower .call) = args.map (lower .call) :=
      List.map_congr_left fun f hf => ih f hf .call
    simp [prune, lower, Function.comp_def, hargs]
  | binary op operands ih =>
    have hoperands : operands.map (fun f => f.prune.lower .binary) = operands.map (lower .binary) :=
      List.map_congr_left fun f hf => ih f hf .binary
    simp [prune, lower, Function.comp_def, hoperands]
  | declare name inits ih =>
    cases inits with
    | nil => rfl
    | cons init rest => simp [prune, lower, lowerFirst, ih init List.mem_cons_self]
  | cond test conseq alts iht ihc iha =>
    cases alts with
    | nil => simp [prune, lower, lowerFirst, iht, ihc]
    | cons alt rest => simp [prune, lower, lowerFirst, iht, ihc, iha alt List.mem_cons_self]

theorem lower_map_prune (program : List Form) :
    Lisplet.lower (program.map prune) = Lisplet.lower program := by
  simp [Lisplet.lower, Function.comp_def, lower_prune]

end Form

end Lisplet
