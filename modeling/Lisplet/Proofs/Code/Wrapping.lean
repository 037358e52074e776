import Lisplet.Proofs.Form.Pruning

namespace Lisplet

namespace Code

def children : Code → List Code
  | statement c => [c]
  | call _ args => args
  | binary _ operands => operands
  | declare _ inits => inits
  | cond slots => slots
  | identifier _ | operator _ | number _ | string _ => []

mutual

def nodes : Code → List Code
  | statement c => statement c :: c.nodes
  | call callee args => call callee args :: nodesAll args
  | binary op operands => binary op operands :: nodesAll operands
  | declare name inits => declare name inits :: nodesAll inits
  | cond slots => cond slots :: nodesAll slots
  | identifier name => [identifier name]
  | operator text => [operator text]
  | number text => [number text]
  | string text => [string text]

def nodesAll : List Code → List Code
  | [] => []
  | c :: cs => c.nodes ++ nodesAll cs

end

def layers : Code → Nat
  | statement c => c.layers + 1
  | _ => 0

def core : Code → Code
  | statement c => c.core
  | c => c

mutual

def erase : Code → Code
  | statement c => c.erase
  | call callee args => call callee (eraseAll args)
  | binary op operands => binary op (eraseAll operands)
  | declare name inits => declare name (eraseAll inits)
  | cond slots => cond (eraseAll slots)
  | identifier name => identifier name
  | operator text => operator text
  | number text => number text
  | string text => string text

def eraseAll : List Code → List Code
  | [] => []
  | c :: cs => c.erase :: eraseAll cs

end

def isCompound : Code → Bool
  | call _ _ | binary _ _ | declare _ _ | cond _ => true
  | statement _ | identifier _ | operator _ | number _ | string _ => false

/-- Only compound code is a statement, and the bare parts of other code stand nowhere. -/
def Regular : Code → Prop
  | statement c => c.isCompound
  | identifier _ | operator _ => False
  | call _ _ | binary _ _ | declare _ _ | cond _ | number _ | string _ => True

theorem nodesAll_eq_flatMap (cs : List Code) : nodesAll cs = cs.flatMap nodes := by
  induction cs with
  | nil => rfl
  | cons c cs ih => simp [nodesAll, ih]

theorem nodes_eq (c : Code) : c.nodes = c :: c.children.flatMap nodes := by
  cases c <;> simp [nodes, children, nodesAll_eq_flatMap]

theorem eraseAll_eq_map (cs : List Code) : eraseAll cs = cs.map erase := by
  induction cs with
  | nil => rfl
  | cons c cs ih => simp [eraseAll, ih]

section

variable {place child : Place} {c : Code}

theorem core_seat (hc : c.isCompound) : (place.seat child c).core = c := by
  have hcore : c.core = c := by
    cases c with
    | call | binary | declare | cond => rfl
    | _ => cases hc
  rw [Place.seat]
  split
  · exact hcore
  · exact hcore

theorem layers_seat (hc : c.isCompound) :
    (place.seat child c).layers = if place.wraps child then 1 else 0 := by
  have hlayers : c.layers = 0 := by
    cases c with
    | call | binary | declare | cond => rfl
    | _ => cases hc
  rw [Place.seat]
  split
  · exact congrArg (· + 1) hlayers
  · exact hlayers

theorem erase_seat : (place.seat child c).erase = c.erase := by
  rw [Place.seat]
  split <;> rfl

theorem regular_seat (hc : c.isCompound) (h : ∀ d ∈ c.children, ∀ e ∈ d.nodes, e.Regular) :
    ∀ d ∈ (place.seat child c).nodes, d.Regular := by
  have hself : c.Regular := by
    cases c with
    | call | binary | declare | cond => trivial
    | _ => cases hc
  have hnodes : ∀ d ∈ c.nodes, d.Regular := by
    rw [nodes_eq, List.forall_mem_cons, List.forall_mem_flatMap]
    exact ⟨hself, h⟩
  rw [Place.seat]
  split
  · rw [nodes, List.forall_mem_cons]
    exact ⟨hc, hnodes⟩
  · exact hnodes

end

end Code

namespace Form

def place? : Form → Option Place
  | number _ | symbol _ => none
  | call _ _ => some .call
  | binary _ _ => some .binary
  | declare _ _ => some .declare
  | cond _ _ _ => some .cond

mutual

def image : Form → Code
  | number text => .number text
  | symbol text => .string text
  | call callee args => .call callee (imageAll args)
  | binary op operands => .binary (if op = .eq then "==" else op.symbol) (imageAll operands)
  | declare name inits => .declare name (imageAll inits)
  | cond test conseq alts => .cond (test.image :: conseq.image :: imageAll alts)

def imageAll : List Form → List Code
  | [] => []
  | f :: fs => f.image :: imageAll fs

end

def Wrapped (place : Place) : Form → Prop
  | number _ | symbol _ => False
  | call _ _ => place ∈ [.program, .declare, .cond]
  | binary _ _ => place = .program
  | declare _ _ => place ≠ .declare
  | cond _ _ _ => place ≠ .cond

end Form

/-- On the way down both trees at once, the form stands in the place where the code stands in the
other tree. Statements are no step of the way, and neither are children that are dropped. -/
inductive Meets (program : List Form) (codes : List Code) : Place → Form → Code → Prop
  | top {i : Nat} {f c} : program[i]? = some f → codes[i]? = some c →
      Meets program codes .program f c
  | child {i : Nat} {place inner f c g d} : Meets program codes place f c → f.place? = some inner →
      f.keptChildren[i]? = some g → c.core.children[i]? = some d → Meets program codes inner g d

theorem Operator.rendered_eq (op : Operator) :
    op.rendered = if op = .eq then "==" else op.symbol := by
  cases op <;> rfl

namespace Form

theorem exists_literal_of_place? {f : Form} (h : f.place? = none) :
    ∃ text, f = number text ∨ f = symbol text := by
  cases f with
  | number text => exact ⟨text, .inl rfl⟩
  | symbol text => exact ⟨text, .inr rfl⟩
  | call | binary | declare | cond => cases h

theorem imageAll_eq_map (fs : List Form) : imageAll fs = fs.map image := by
  induction fs with
  | nil => rfl
  | cons f fs ih => simp [imageAll, ih]

theorem lowerFirst_eq_map (place : Place) (fs : List Form) :
    lowerFirst place fs = (fs.take 1).map (lower place) := by
  cases fs <;> rfl

theorem exists_lower_eq_seat {f : Form} {inner : Place} (h : f.place? = some inner)
    (place : Place) :
    ∃ c, c.isCompound ∧ f.lower place = place.seat inner c ∧
      c.children = f.keptChildren.map (lower inner) := by
  cases f with
  | number | symbol => cases h
  | call callee args =>
    cases h
    exact ⟨.call callee (lowerAll .call args), rfl, rfl, lowerAll_eq_map .call args⟩
  | binary op operands =>
    cases h
    exact ⟨.binary op.rendered (lowerAll .binary operands), rfl, rfl,
      lowerAll_eq_map .binary operands⟩
  | declare name inits =>
    cases h
    exact ⟨.declare name (lowerFirst .declare inits), rfl, rfl, lowerFirst_eq_map .declare inits⟩
  | cond test conseq alts =>
    cases h
    refine ⟨.cond (test.lower .cond :: conseq.lower .cond :: lowerFirst .cond alts), rfl, rfl, ?_⟩
    rw [lowerFirst_eq_map]
    rfl

theorem wraps_iff {f : Form} {inner : Place} (h : f.place? = some inner) (place : Place) :
    place.wraps inner ↔ f.Wrapped place := by
  cases f with
  | number | symbol => cases h
  | call | binary | declare | cond => cases h; cases place <;> simp [Place.wraps, Wrapped]

theorem regular_lower (f : Form) (place : Place) : ∀ c ∈ (f.lower place).nodes, c.Regular := by
  induction f using inductChildren generalizing place with
  | node f ih =>
    cases h : f.place? with
    | none =>
      obtain ⟨text, rfl | rfl⟩ := exists_literal_of_place? h
      all_goals
        rw [lower, Code.nodes_eq, List.forall_mem_cons]
        exact ⟨trivial, List.forall_mem_nil _⟩
    | some inner =>
      obtain ⟨c, hc, hlower, hchildren⟩ := exists_lower_eq_seat h place
      rw [hlower]
      apply Code.regular_seat hc
      rw [hchildren, List.forall_mem_map]
      exact fun g hg => ih g (f.keptChildren_subset hg) inner

theorem erase_lower (f : Form) (place : Place) : (f.lower place).erase = f.prune.image := by
  induction f using Form.induct generalizing place with
  | number | symbol => rfl
  | call callee args ih =>
    have hargs : args.map (fun f => (f.lower .call).erase) = args.map (fun f => f.prune.image) :=
      List.map_congr_left fun f hf => ih f hf .call
    rw [lower, Code.erase_seat]
    simp [Code.erase, Code.eraseAll_eq_map, prune, image, imageAll_eq_map, Function.comp_def, hargs]
  | binary op operands ih =>
    have hoperands : operands.map (fun f => (f.lower .binary).erase) =
        operands.map (fun f => f.prune.image) :=
      List.map_congr_left fun f hf => ih f hf .binary
    rw [lower, Code.erase_seat]
    simp [Code.erase, Code.eraseAll_eq_map, prune, image, imageAll_eq_map, Function.comp_def,
      hoperands, Operator.rendered_eq]
  | declare name inits ih =>
    rw [lower, Code.erase_seat]
    cases inits with
    | nil => rfl
    | cons init rest =>
      simp [lowerFirst, Code.erase, Code.eraseAll, prune, image, imageAll, ih init]
  | cond test conseq alts iht ihc iha =>
    rw [lower, Code.erase_seat]
    cases alts with
    | nil => simp [lowerFirst, Code.erase, Code.eraseAll, prune, image, imageAll, iht, ihc]
    | cons alt rest =>
      simp [lowerFirst, Code.erase, Code.eraseAll, prune, image, imageAll, iht, ihc, iha alt]

theorem children_core_lower {f : Form} {inner : Place} (h : f.place? = some inner) (place : Place) :
    (f.lower place).core.children = f.keptChildren.map (lower inner) := by
  obtain ⟨c, hc, hlower, hchildren⟩ := exists_lower_eq_seat h place
  rw [hlower, Code.core_seat hc, hchildren]

theorem length_children_core_lower (f : Form) (place : Place) :
    (f.lower place).core.children.length = f.keptChildren.length := by
  cases h : f.place? with
  | none => obtain ⟨text, rfl | rfl⟩ := exists_literal_of_place? h <;> rfl
  | some inner => rw [children_core_lower h, List.length_map]

theorem layers_lower (f : Form) (place : Place) :
    (f.Wrapped place → (f.lower place).layers = 1) ∧
      (¬ f.Wrapped place → (f.lower place).layers = 0) := by
  cases h : f.place? with
  | none =>
    obtain ⟨text, rfl | rfl⟩ := exists_literal_of_place? h
    all_goals exact ⟨False.elim, fun _ => rfl⟩
  | some inner =>
    obtain ⟨c, hc, hlower, -⟩ := exists_lower_eq_seat h place
    rw [hlower, Code.layers_seat hc, ← wraps_iff h]
    exact ⟨fun hw => if_pos hw, fun hw => if_neg hw⟩

end Form

theorem Meets.eq_lower {program : List Form} {place : Place} {f : Form} {c : Code}
    (h : Meets program (lower program) place f c) : c = f.lower place := by
  induction h with
  | @top i f c hf hc =>
    rw [lower, Form.lowerAll_eq_map, List.getElem?_map, hf] at hc
    exact (Option.some.inj hc).symm
  | @child i place inner f c g d _ hinner hg hd ih =>
    rw [ih, Form.children_core_lower hinner, List.getElem?_map, hg] at hd
    exact (Option.some.inj hd).symm

theorem map_erase_lower (program : List Form) :
    (lower program).map Code.erase = (program.map Form.prune).map Form.image := by
  rw [lower, Form.lowerAll_eq_map, List.map_map, List.map_map]
  exact List.map_congr_left fun f _ => f.erase_lower .program

/-- Every kept form has its place in the code of a program, and there it is a statement or not by
its kind and the kind of what holds it. -/
theorem lower_wrapping (program : List Form) :
    (lower program).length = program.length ∧
    (∀ c ∈ (lower program).flatMap Code.nodes, c.Regular) ∧
    (∀ place f c, Meets program (lower program) place f c →
      (f.Wrapped place → c.layers = 1) ∧ (¬ f.Wrapped place → c.layers = 0) ∧
        c.core.children.length = f.keptChildren.length) ∧
    (lower program).map Code.erase = (program.map Form.prune).map Form.image := by
  refine ⟨?length, ?regular, ?layers, map_erase_lower program⟩
  case length => simp [lower]
  case regular =>
    rw [lower, Form.lowerAll_eq_map, List.forall_mem_flatMap, List.forall_mem_map]
    exact fun f _ => f.regular_lower .program
  case layers =>
    intro place f c h
    rw [h.eq_lower]
    have hlayers := f.layers_lower place
    exact ⟨hlayers.1, hlayers.2, f.length_children_core_lower place⟩

theorem lower_wrapping_nested :
    let program : List Form := [.cond (.symbol "x")
      (.declare "y" [.cond (.number "1") (.call "f" []) [], .call "g" []]) []]
    Meets program (lower program) .cond (.call "f" []) (.statement (.call "f" [])) ∧
      (Code.statement (.call "f" [])).layers = 1 := by
  intro program
  have houter : Meets program (lower program) _ _ _ := .top (i := 0) rfl rfl
  have hdeclare := houter.child (i := 1) rfl rfl rfl
  have hinner := hdeclare.child (i := 0) rfl rfl rfl
  have h := hinner.child (i := 1) rfl rfl rfl
  refine ⟨h, ((lower_wrapping program).2.2.1 .cond _ _ h).1 ?_⟩
  simp [Form.Wrapped]

end Lisplet
