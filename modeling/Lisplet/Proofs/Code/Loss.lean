import Lisplet.Proofs.Code.Wrapping

namespace Lisplet

theorem Operator.rendered_injective : Function.Injective Operator.rendered := by
  intro a b h
  cases a <;> cases b <;> simp_all [rendered, symbol]

namespace Form

theorem imageAll_inj {fs gs : List Form} (hfs : ∀ f ∈ fs, ∀ ⦃g⦄, f.image = g.image → f = g)
    (h : imageAll fs = imageAll gs) : fs = gs := by
  induction fs generalizing gs with
  | nil =>
    cases gs with
    | nil => rfl
    | cons => cases h
  | cons f fs ih =>
    cases gs with
    | nil => cases h
    | cons g gs =>
      rw [List.forall_mem_cons] at hfs
      obtain ⟨hf, hrest⟩ := List.cons.inj h
      rw [hfs.1 hf, ih hfs.2 hrest]

theorem image_injective : Function.Injective image := by
  intro f
  induction f using Form.induct with
  | number text =>
    intro g h
    cases g with
    | number => exact congrArg number (Code.number.inj h)
    | _ => cases h
  | symbol text =>
    intro g h
    cases g with
    | symbol => exact congrArg symbol (Code.string.inj h)
    | _ => cases h
  | call callee args ih =>
    intro g h
    cases g with
    | call =>
      obtain ⟨rfl, hargs⟩ := Code.call.inj h
      rw [imageAll_inj ih hargs]
    | _ => cases h
  | binary op operands ih =>
    intro g h
    cases g with
    | binary =>
      obtain ⟨hop, hoperands⟩ := Code.binary.inj h
      rw [← Operator.rendered_eq, ← Operator.rendered_eq] at hop
      rw [Operator.rendered_injective hop, imageAll_inj ih hoperands]
    | _ => cases h
  | declare name inits ih =>
    intro g h
    cases g with
    | declare =>
      obtain ⟨rfl, hinits⟩ := Code.declare.inj h
      rw [imageAll_inj ih hinits]
    | _ => cases h
  | cond test conseq alts iht ihc iha =>
    intro g h
    cases g with
    | cond =>
      obtain ⟨htest, hrest⟩ := List.cons.inj (Code.cond.inj h)
      obtain ⟨hconseq, halts⟩ := List.cons.inj hrest
      rw [iht htest, ihc hconseq, imageAll_inj iha halts]
    | _ => cases h

end Form

theorem lower_eq_iff_prune_eq (p q : List Form) :
    (lower p = lower q ↔ p.map Form.prune = q.map Form.prune) ∧
      lower (p.map Form.prune) = lower p := by
  refine ⟨?_, Form.lower_map_prune p⟩
  constructor
  · intro h
    have hcodes := congrArg (List.map Code.erase) h
    rw [map_erase_lower, map_erase_lower] at hcodes
    exact (List.map_inj_right fun _ _ hf => Form.image_injective hf).1 hcodes
  · intro h
    rw [← Form.lower_map_prune p, h, Form.lower_map_prune]

end Lisplet
