import Lisplet.Proofs.Toml.Distinct
import Lisplet.Toml.Document

namespace Lisplet.Toml

theorem foldlM_preserves {σ α : Type} {p : σ → Prop} {f : σ → α → Option σ} {l : List α} {s s' : σ}
    (hstep : ∀ a ∈ l, ∀ s s', p s → f s a = some s' → p s') (h : p s)
    (hf : l.foldlM f s = some s') : p s' := by
  induction l generalizing s with
  | nil =>
    cases hf
    exact h
  | cons a l ih =>
    obtain ⟨ha, hl⟩ := List.forall_mem_cons.mp hstep
    obtain ⟨next, hnext, hf⟩ := Option.bind_eq_some_iff.mp hf
    exact ih hl (ha s next h hnext) hf

inductive Node.Distinct : Node → Prop
  | value {v : Value} (h : v.Distinct) : (Node.value v).Distinct
  | table {origin : Origin} {entries : Nodes} (keys : (entries.map Prod.fst).Nodup)
      (nodes : ∀ e ∈ entries, e.2.Distinct) : (Node.table origin entries).Distinct
  | array (tables : List Nodes) : (Node.array tables).Distinct

namespace Nodes

structure Distinct (nodes : Nodes) : Prop where
  keys : (nodes.map Prod.fst).Nodup
  nodes : ∀ e ∈ nodes, e.2.Distinct

theorem distinct_nil : Distinct [] := ⟨List.nodup_nil, by simp⟩

section

variable {nodes nodes' : Nodes} {key : String} {node : Node}

theorem Distinct.toNode (h : nodes.Distinct) (origin : Origin) :
    (Node.table origin nodes).Distinct :=
  .table h.keys h.nodes

theorem Distinct.of_lookup (h : nodes.Distinct) (hn : nodes.lookup key = some node) :
    node.Distinct := by
  obtain ⟨l₁, l₂, rfl, -⟩ := List.lookup_eq_some_iff.mp hn
  exact h.nodes (key, node) (by simp)

theorem Distinct.of_lookup_table {origin : Origin} {inner : Nodes} (h : nodes.Distinct)
    (hn : nodes.lookup key = some (.table origin inner)) : inner.Distinct := by
  cases h.of_lookup hn with
  | table keys nodes => exact ⟨keys, nodes⟩

theorem mem_put {e : String × Node} (h : e ∈ put key node nodes) : e = (key, node) ∨ e ∈ nodes := by
  induction nodes with
  | nil => exact .inl (List.mem_singleton.mp h)
  | cons e' rest ih =>
    obtain ⟨k, old⟩ := e'
    rw [put] at h
    split at h
    · next hk =>
      subst hk
      exact (List.mem_cons.mp h).imp id (List.mem_cons_of_mem _)
    · obtain rfl | h := List.mem_cons.mp h
      · exact .inr List.mem_cons_self
      · exact (ih h).imp id (List.mem_cons_of_mem _)

theorem Distinct.put (h : nodes.Distinct) (hnode : node.Distinct) :
    (nodes.put key node).Distinct where
  keys := by
    have hkeys := h.keys
    clear h
    induction nodes with
    | nil => simp [Nodes.put]
    | cons e rest ih =>
      obtain ⟨k, old⟩ := e
      obtain ⟨hfresh, hrest⟩ := List.nodup_cons.mp hkeys
      rw [Nodes.put]
      split
      · exact hkeys
      · next hk =>
        refine List.nodup_cons.mpr ⟨fun hmem => ?_, ih hrest⟩
        obtain ⟨e, he, heq⟩ := List.mem_map.mp hmem
        obtain rfl | he := mem_put he
        · exact hk heq.symm
        · exact hfresh (heq ▸ List.mem_map_of_mem he)
  nodes e he := by
    obtain rfl | he := mem_put he
    · exact hnode
    · exact h.nodes e he

theorem Distinct.assign {v : Value} (hv : v.Distinct) {path : List String} {fits : Bool}
    (h : nodes.Distinct) (ha : nodes.assign v fits path = some nodes') : nodes'.Distinct := by
  fun_induction Nodes.assign v fits nodes path generalizing nodes' with
  | case1 => cases ha
  | case2 fits nodes key hfits =>
    cases ha
    exact h.put (.value hv)
  | case3 => cases ha
  | case4 fits nodes key path hpath hn ih =>
    obtain ⟨inner', hinner, ha⟩ := Option.bind_eq_some_iff.mp ha
    cases ha
    exact h.put ((ih distinct_nil hinner).toNode .dotted)
  | case5 | case6 | case7 => cases ha
  | case8 fits nodes key path hpath inner hn ih =>
    obtain ⟨inner', hinner, ha⟩ := Option.bind_eq_some_iff.mp ha
    cases ha
    exact h.put ((ih (h.of_lookup_table hn) hinner).toNode .implied)
  | case9 fits nodes key path hpath inner hn ih =>
    obtain ⟨inner', hinner, ha⟩ := Option.bind_eq_some_iff.mp ha
    cases ha
    exact h.put ((ih (h.of_lookup_table hn) hinner).toNode .dotted)
  | case10 fits nodes key path hpath last earlier hn ih =>
    obtain ⟨last', -, ha⟩ := Option.bind_eq_some_iff.mp ha
    cases ha
    exact h.put (.array _)

theorem Distinct.modifyAt {f : Nodes → Option Nodes} {path : List String}
    (hf : ∀ inner inner', Distinct inner → f inner = some inner' → Distinct inner')
    (h : nodes.Distinct) (hm : nodes.modifyAt f path = some nodes') : nodes'.Distinct := by
  fun_induction Nodes.modifyAt f nodes path generalizing nodes' with
  | case1 nodes => exact hf nodes nodes' h hm
  | case2 nodes key path hn ih =>
    obtain ⟨inner', hinner, hm⟩ := Option.bind_eq_some_iff.mp hm
    cases hm
    exact h.put ((ih distinct_nil hinner).toNode .implied)
  | case3 | case4 => cases hm
  | case5 nodes key path origin inner hn ih =>
    obtain ⟨inner', hinner, hm⟩ := Option.bind_eq_some_iff.mp hm
    cases hm
    exact h.put ((ih (h.of_lookup_table hn) hinner).toNode origin)
  | case6 nodes key path last earlier hn ih =>
    obtain ⟨last', -, hm⟩ := Option.bind_eq_some_iff.mp hm
    cases hm
    exact h.put (.array _)

theorem Distinct.replace (h : nodes.Distinct) (hnode : node.Distinct) :
    Distinct (nodes.filter (fun e => e.1 ≠ key) ++ [(key, node)]) where
  keys := by
    rw [List.map_append, List.map_singleton]
    refine List.nodup_append.mpr ⟨?_, List.nodup_singleton key, ?_⟩
    · exact (List.filter_sublist.map Prod.fst).nodup h.keys
    · intro k hk k' hk'
      obtain ⟨e, he, rfl⟩ := List.mem_map.mp hk
      obtain rfl := List.mem_singleton.mp hk'
      simpa using List.of_mem_filter he
  nodes e he := by
    obtain he | he := List.mem_append.mp he
    · exact h.nodes e (List.mem_of_mem_filter he)
    · obtain rfl := List.mem_singleton.mp he
      exact hnode

theorem Distinct.define (h : nodes.Distinct) (hd : nodes.define key = some nodes') :
    nodes'.Distinct := by
  unfold Nodes.define at hd
  split at hd
  · cases hd
    exact h.put (distinct_nil.toNode .defined)
  · next inner hn =>
    cases hd
    exact h.replace ((h.of_lookup_table hn).toNode .defined)
  · cases hd

theorem Distinct.append (h : nodes.Distinct) (ha : nodes.append key = some nodes') :
    nodes'.Distinct := by
  unfold Nodes.append at ha
  split at ha
  · cases ha
    exact h.put (.array _)
  · cases ha
    exact h.put (.array _)
  · cases ha

end

theorem toTable_eq_map (nodes : Nodes) : toTable nodes = nodes.map fun e => (e.1, e.2.toValue) := by
  induction nodes with
  | nil => rfl
  | cons e rest ih => exact congrArg (_ :: ·) ih

end Nodes

theorem Node.Distinct.toValue {node : Node} (h : node.Distinct) : node.toValue.Distinct := by
  induction h with
  | value h => exact h
  | @table origin entries keys nodes ih =>
    rw [Node.toValue, Nodes.toTable_eq_map]
    refine .table ?_ ?_
    · rw [List.map_map]
      exact keys
    · intro e he
      obtain ⟨e', he', rfl⟩ := List.mem_map.mp he
      exact ih e' he'
  | array tables => exact .leaf rfl

theorem Nodes.Distinct.toTable {nodes : Nodes} (h : nodes.Distinct) :
    (Value.table (toTable nodes)).Distinct :=
  (h.toNode .defined).toValue

def Reader.Yields {α : Type} (p : α → Prop) (m : Reader α) : Prop :=
  ∀ cs a rest, m.run cs = some (a, rest) → p a

namespace Reader.Yields

variable {α β : Type} {p : α → Prop} {q : β → Prop} {m : Reader α} {f : α → Reader β}

theorem pure {a : α} (h : p a) : Yields p (Pure.pure a) := by
  intro cs b rest hb
  cases hb
  exact h

theorem bind (hm : Yields p m) (hf : ∀ a, p a → Yields q (f a)) : Yields q (m >>= f) := by
  intro cs b rest hb
  rw [StateT.run_bind] at hb
  obtain ⟨⟨a, cs'⟩, ha, hb⟩ := Option.bind_eq_some_iff.mp hb
  exact hf a (hm cs a cs' ha) cs' b rest hb

theorem any (m : Reader α) : Yields (fun _ => True) m := fun _ _ _ _ => trivial

theorem andThen (m : Reader α) (hf : ∀ a, Yields q (f a)) : Yields q (m >>= f) :=
  (any m).bind fun a _ => hf a

theorem failure : Yields p (failure : Reader α) := by
  intro cs a rest ha
  cases ha

theorem lift {a? : Option α} (h : ∀ a, a? = some a → p a) : Yields p (liftM a? : Reader α) := by
  intro cs a rest ha
  cases a? with
  | none => cases ha
  | some b =>
    cases ha
    exact h a rfl

end Reader.Yields

theorem isTable_of_readScalar {cs : List Char} {v : Value} (h : readScalar cs = some v) :
    v.isTable = false := by
  unfold readScalar at h
  repeat' split at h
  all_goals cases h
  all_goals rfl

theorem yields_scalar : Reader.Yields Value.Distinct scalar := by
  have hread (cs : List Char) : Reader.Yields Value.Distinct (liftM (readScalar cs)) :=
    .lift fun v h => .leaf (isTable_of_readScalar h)
  unfold scalar
  refine .andThen _ fun run => .andThen _ fun rest => ?_
  split
  · split
    · exact .andThen _ fun _ => .andThen _ fun more => hread _
    · exact hread run
  · exact hread run

theorem yields_simple : Reader.Yields Value.Distinct simple := by
  unfold simple
  refine .andThen _ fun c => ?_
  split
  · exact .andThen _ fun text => .pure (.leaf rfl)
  · exact .andThen _ fun text => .pure (.leaf rfl)
  · exact yields_scalar

theorem distinct_of_inlineTable {es : List (List String × Value)} {t : Table}
    (h : ∀ e ∈ es, e.2.Distinct) (ht : inlineTable es = some t) : (Value.table t).Distinct := by
  obtain ⟨nodes, hnodes, rfl⟩ := Option.map_eq_some_iff.mp ht
  have hdistinct : Nodes.Distinct nodes :=
    foldlM_preserves (fun e he _ _ hs ha => hs.assign (h e he) ha) Nodes.distinct_nil hnodes
  exact hdistinct.toTable

section

variable {item : Reader Value}

theorem yields_assignment (h : Reader.Yields Value.Distinct item) :
    Reader.Yields (fun e => e.2.Distinct) (assignment item) := by
  unfold assignment
  exact .andThen _ fun path => .andThen _ fun _ => .andThen _ fun _ => h.bind fun v hv => .pure hv

theorem yields_entries (h : Reader.Yields Value.Distinct item) (fuel : Nat) :
    Reader.Yields (fun es => ∀ e ∈ es, e.2.Distinct) (entries item fuel) := by
  induction fuel with
  | zero => exact .failure
  | succ fuel ih =>
    rw [entries]
    refine (yields_assignment h).bind fun e he => .andThen _ fun _ => .andThen _ fun more => ?_
    split
    · exact ih.bind fun es hes => .pure (List.forall_mem_cons.mpr ⟨he, hes⟩)
    · exact .andThen _ fun _ => .pure (List.forall_mem_singleton.mpr he)

end

theorem yields_value (depth : Nat) : Reader.Yields Value.Distinct (value inlineTable depth) := by
  induction depth with
  | zero => exact yields_simple
  | succ depth ih =>
    rw [value]
    refine .andThen _ fun bracket => ?_
    split
    · exact .andThen _ fun cs => .andThen _ fun vs => .pure (.leaf rfl)
    refine .andThen _ fun brace => ?_
    split
    · refine .andThen _ fun _ => .andThen _ fun closed => ?_
      split
      · exact .pure .nil
      · refine .andThen _ fun cs => (yields_entries ih _).bind fun es hes => ?_
        exact .bind (.lift fun t ht => distinct_of_inlineTable hes ht) fun t ht => .pure ht
    · exact yields_simple

def Statement.Distinct : Statement → Prop
  | assign _ v => v.Distinct
  | header _ | item _ => True

theorem yields_statement : Reader.Yields Statement.Distinct (statement inlineTable) := by
  have hend (s : Statement) (hs : s.Distinct) :
      Reader.Yields Statement.Distinct (do lineEnd; return s) := .andThen _ fun _ => .pure hs
  unfold statement
  refine .andThen _ fun bracket => ?_
  split
  · refine .andThen _ fun second => ?_
    split
    · exact .andThen _ fun path => .andThen _ fun _ => .andThen _ fun _ =>
        .bind (.pure trivial) hend
    · exact .andThen _ fun path => .andThen _ fun _ => .bind (.pure trivial) hend
  · exact (yields_assignment (yields_value _)).bind fun e he => .bind (.pure he) hend

theorem yields_statements (fuel : Nat) :
    Reader.Yields (fun ss => ∀ s ∈ ss, s.Distinct) (statements inlineTable fuel) := by
  induction fuel with
  | zero => exact .failure
  | succ fuel ih =>
    rw [statements]
    refine .andThen _ fun _ => .andThen _ fun cs => ?_
    split
    · exact .pure (by simp)
    · refine yields_statement.bind fun s hs => ih.bind fun ss hss => .pure ?_
      exact List.forall_mem_cons.mpr ⟨hs, hss⟩

theorem Draft.distinct_add {d d' : Draft} {s : Statement} (hs : s.Distinct)
    (h : Nodes.Distinct d.nodes) (hadd : d.add s = some d') : Nodes.Distinct d'.nodes := by
  cases s with
  | header path =>
    obtain ⟨nodes, hnodes, hadd⟩ := Option.bind_eq_some_iff.mp hadd
    cases hadd
    exact h.modifyAt (fun inner inner' hinner hd => hinner.define hd) hnodes
  | item path =>
    obtain ⟨nodes, hnodes, hadd⟩ := Option.bind_eq_some_iff.mp hadd
    cases hadd
    exact h.modifyAt (fun inner inner' hinner ha => hinner.append ha) hnodes
  | assign path v =>
    obtain ⟨nodes, hnodes, hadd⟩ := Option.bind_eq_some_iff.mp hadd
    cases hadd
    exact h.modifyAt (fun inner inner' hinner ha => hinner.assign hs ha) hnodes

theorem distinct_of_parse {source : String} {t : Table} (h : parse source = some t) :
    (Value.table t).Distinct := by
  obtain ⟨cs, -, h⟩ := Option.bind_eq_some_iff.mp h
  obtain ⟨⟨document, rest⟩, hdocument, h⟩ := Option.bind_eq_some_iff.mp h
  obtain ⟨draft, hdraft, h⟩ := Option.bind_eq_some_iff.mp h
  cases h
  have hstatements := yields_statements _ cs document rest hdocument
  have hstep (s : Statement) (hs : s ∈ document) (d d' : Draft) (hd : Nodes.Distinct d.nodes)
      (hadd : d.add s = some d') : Nodes.Distinct d'.nodes :=
    Draft.distinct_add (hstatements s hs) hd hadd
  have hdistinct : Nodes.Distinct draft.nodes :=
    foldlM_preserves (p := fun d => Nodes.Distinct d.nodes) hstep Nodes.distinct_nil hdraft
  exact hdistinct.toTable

end Lisplet.Toml
