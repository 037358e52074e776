import Lisplet.Form
import Lisplet.Token
import Mathlib.Order.Lattice

namespace Lisplet

namespace Form

def children : Form → List Form
  | number _ | symbol _ => []
  | call _ args => args
  | binary _ operands => operands
  | declare _ inits => inits
  | cond test conseq alts => test :: conseq :: alts

theorem inductChildren {motive : Form → Prop}
    (node : ∀ f, (∀ g ∈ f.children, motive g) → motive f) (f : Form) : motive f := by
  induction f using Form.induct with
  | number | symbol => exact node _ (by simp [children])
  | call _ _ ih | binary _ _ ih | declare _ _ ih => exact node _ ih
  | cond test conseq alts iht ihc iha =>
    exact node _ (List.forall_mem_cons.2 ⟨iht, List.forall_mem_cons.2 ⟨ihc, iha⟩⟩)

def isCompound : Form → Bool
  | number _ | symbol _ => false
  | call _ _ | binary _ _ | declare _ _ | cond _ _ _ => true

mutual

def nodes : Form → List Form
  | number text => [number text]
  | symbol text => [symbol text]
  | call callee args => call callee args :: nodesAll args
  | binary op operands => binary op operands :: nodesAll operands
  | declare name inits => declare name inits :: nodesAll inits
  | cond test conseq alts => cond test conseq alts :: (test.nodes ++ conseq.nodes ++ nodesAll alts)

def nodesAll : List Form → List Form
  | [] => []
  | f :: fs => f.nodes ++ nodesAll fs

end

mutual

def depth : Form → Nat
  | number _ | symbol _ => 0
  | call _ args => depthAll args + 1
  | binary _ operands => depthAll operands + 1
  | declare _ inits => depthAll inits + 1
  | cond test conseq alts => max test.depth (max conseq.depth (depthAll alts)) + 1

def depthAll : List Form → Nat
  | [] => 0
  | f :: fs => max f.depth (depthAll fs)

end

@[simp] theorem nodesAll_eq_flatMap (fs : List Form) : nodesAll fs = fs.flatMap nodes := by
  induction fs with
  | nil => rfl
  | cons f fs ih => simp [nodesAll, ih]

theorem nodes_eq (f : Form) : f.nodes = f :: f.children.flatMap nodes := by
  cases f <;> simp [nodes, children]

theorem depthAll_le_iff {fs : List Form} {n : Nat} :
    depthAll fs ≤ n ↔ ∀ f ∈ fs, f.depth ≤ n := by
  induction fs with
  | nil => simp [depthAll]
  | cons f fs ih => simp [depthAll, ih]

theorem depth_of_isCompound {f : Form} (h : f.isCompound) : f.depth = depthAll f.children + 1 := by
  cases f <;> simp [isCompound] at h <;> rfl

def Initialized (f : Form) : Prop := ∀ name, declare name [] ∉ f.nodes

theorem initialized_iff (f : Form) :
    f.Initialized ↔ (∀ name, f ≠ declare name []) ∧ ∀ g ∈ f.children, g.Initialized := by
  simp only [Initialized, nodes_eq f, List.mem_cons, List.mem_flatMap, not_or]
  constructor
  · intro h
    exact ⟨fun name hf => (h name).1 hf.symm, fun g hg name hn => (h name).2 ⟨g, hg, hn⟩⟩
  · rintro ⟨hf, h⟩ name
    refine ⟨fun hn => hf name hn.symm, ?_⟩
    rintro ⟨g, hg, hn⟩
    exact h g hg name hn

structure Fits (limit k : Nat) (f : Form) : Prop where
  initialized : f.Initialized
  depth_le : k + f.depth ≤ limit

theorem fits_of_not_isCompound {limit k : Nat} {f : Form} (h : f.isCompound = false)
    (hk : k ≤ limit) : f.Fits limit k := by
  cases f with
  | number text => exact ⟨by simp [Initialized, nodes], hk⟩
  | symbol text => exact ⟨by simp [Initialized, nodes], hk⟩
  | _ => cases h

theorem fits_iff_of_isCompound {limit k : Nat} {f : Form} (h : f.isCompound) :
    f.Fits limit k ↔
      k < limit ∧ (∀ name, f ≠ declare name []) ∧ ∀ g ∈ f.children, g.Fits limit (k + 1) := by
  have hdepth : k + f.depth ≤ limit ↔ k < limit ∧ ∀ g ∈ f.children, k + 1 + g.depth ≤ limit := by
    constructor
    · intro hk
      rw [depth_of_isCompound h] at hk
      refine ⟨by omega, fun g hg => ?_⟩
      have hg' := depthAll_le_iff.1 (le_refl (depthAll f.children)) g hg
      omega
    · rintro ⟨hk, hg⟩
      have hall : depthAll f.children ≤ limit - (k + 1) :=
        depthAll_le_iff.2 fun g hg' => by have := hg g hg'; omega
      rw [depth_of_isCompound h]
      omega
  constructor
  · rintro ⟨hi, hd⟩
    rw [initialized_iff] at hi
    rw [hdepth] at hd
    exact ⟨hd.1, hi.1, fun g hg => ⟨hi.2 g hg, hd.2 g hg⟩⟩
  · rintro ⟨hk, hf, hg⟩
    exact ⟨(initialized_iff f).2 ⟨hf, fun g hg' => (hg g hg').initialized⟩,
      hdepth.2 ⟨hk, fun g hg' => (hg g hg').depth_le⟩⟩

def Heads : Form → List Lexeme → Prop
  | number _, _ | symbol _, _ => False
  | call callee _, ls => ls = [⟨.name, callee⟩]
  | binary op _, ls => ls = [⟨.operator, op.symbol⟩] ∨ ls = [⟨.condOperator, op.symbol⟩]
  | declare name _, ls => ls = [⟨.keyword, "defvar"⟩, ⟨.name, name⟩]
  | cond _ _ _, ls => ls = [⟨.keyword, "if"⟩]

theorem Heads.isCompound {f : Form} {ls : List Lexeme} (h : f.Heads ls) : f.isCompound := by
  cases f with
  | number | symbol => cases h
  | call | binary | declare | cond => rfl

end Form

inductive Spells : List Form → List Lexeme → Prop
  | nil : Spells [] []
  | number {text fs ls} : Spells fs ls → Spells (.number text :: fs) (⟨.number, text⟩ :: ls)
  | symbol {text fs ls} : Spells fs ls → Spells (.symbol text :: fs) (⟨.name, text⟩ :: ls)
  | compound {f head ms fs ls} : f.Heads head → Spells f.children ms → Spells fs ls →
      Spells (f :: fs) (.opening :: (head ++ (ms ++ .closing :: ls)))

theorem Spells.append {fs gs : List Form} {ls ms : List Lexeme} (h : Spells fs ls)
    (h' : Spells gs ms) : Spells (fs ++ gs) (ls ++ ms) := by
  induction h with
  | nil => exact h'
  | number _ ih => exact .number ih
  | symbol _ ih => exact .symbol ih
  | compound hd hc _ _ ih => simpa using Spells.compound hd hc ih

end Lisplet
