import Lisplet.Compile
import Lisplet.Proofs.Form.Grammar
import Lisplet.Proofs.Form.Readability

namespace Lisplet

theorem compileStages_eq_ok_iff {source : String} {o : Options} {st : Stages} :
    compileStages source o = .ok st ↔
      scan source = .ok st.tokens ∧ parse st.tokens o.maxDepth = .ok st.forms ∧
        lower st.forms = st.code ∧ render st.code = .ok st.output := by
  simp only [compileStages, compileLogged]
  constructor
  · intro h
    split at h
    · cases h
    · next ts hs =>
      split at h
      · cases h
      · next fs hp =>
        split at h
        · cases h
        · next text hr =>
          cases h
          exact ⟨hs, hp, rfl, hr⟩
  · intro h
    obtain ⟨hs, hp, hl, hr⟩ := h
    simp [hs, hp, hl, hr]

section

variable {source : String} {o : Options} {tokens : List Token} {forms : List Form}

theorem compileStages_of_scan_error {e : ScanError} (h : scan source = .error e) :
    compileStages source o = .error (.scan e) := by
  simp [compileStages, compileLogged, h]

theorem compileStages_of_parse_error {e : ParseError} (hs : scan source = .ok tokens)
    (hp : parse tokens o.maxDepth = .error e) : compileStages source o = .error (.parse e) := by
  simp [compileStages, compileLogged, hs, hp]

/-- Rendering has no say: what was parsed has a text. -/
theorem compileStages_of_parse (hs : scan source = .ok tokens)
    (hp : parse tokens o.maxDepth = .ok forms) :
    compileStages source o = .ok
      { tokens, forms, code := lower forms
        output := "\n".intercalate (forms.map (Form.text .program)) } := by
  have hr := Form.render_of_initialized (grammatical_of_parse hp).initialized
  exact compileStages_eq_ok_iff.2 ⟨hs, hp, rfl, hr⟩

theorem compileStages_eq_error_iff {e : CompileError} :
    compileStages source o = .error e ↔
      (∃ d, e = .scan d ∧ scan source = .error d) ∨
        ∃ tokens d, e = .parse d ∧ scan source = .ok tokens ∧
          parse tokens o.maxDepth = .error d := by
  cases hs : scan source with
  | error d => simp [compileStages_of_scan_error hs, eq_comm]
  | ok tokens =>
    cases hp : parse tokens o.maxDepth with
    | error d => simp [compileStages_of_parse_error hs hp, hp, eq_comm]
    | ok forms => simp [compileStages_of_parse hs hp, hp]

end

theorem compileStages_congr {o p : Options} (h : o.maxDepth = p.maxDepth) (source : String) :
    compileStages source o = compileStages source p := by
  cases hs : scan source with
  | error e => rw [compileStages_of_scan_error hs, compileStages_of_scan_error hs]
  | ok tokens =>
    cases hp : parse tokens o.maxDepth with
    | error e =>
      rw [compileStages_of_parse_error hs hp, compileStages_of_parse_error hs (h ▸ hp)]
    | ok forms => rw [compileStages_of_parse hs hp, compileStages_of_parse hs (h ▸ hp)]

theorem compile_eq_ok_iff {source output : String} {o : Options} :
    compile source o = .ok output ↔ ∃ st, compileStages source o = .ok st ∧ st.output = output := by
  cases h : compileStages source o <;> simp [compile, h, Except.map]

theorem compile_eq_error_iff {source : String} {o : Options} {e : CompileError} :
    compile source o = .error e ↔ compileStages source o = .error e := by
  cases h : compileStages source o <;> simp [compile, h, Except.map]

theorem Form.Heads.mem {f : Form} {ls : List Lexeme} (h : f.Heads ls) {l : Lexeme}
    (hl : l ∈ f.lexeme?) : l ∈ ls := by
  cases f with
  | number | symbol => cases h
  | binary | cond => cases hl
  | call | declare =>
    cases hl
    simp [show ls = _ from h]

theorem Spells.legal {fs : List Form} {ls : List Lexeme} (h : Spells fs ls)
    (hls : ∀ l ∈ ls, l.Legal) : ∀ f ∈ fs, ∀ g ∈ f.nodes, ∀ l ∈ g.lexeme?, l.Legal := by
  induction h with
  | nil => simp
  | number _ ih | symbol _ ih =>
    rw [List.forall_mem_cons] at hls ⊢
    refine ⟨?_, ih hls.2⟩
    simpa [Form.nodes, Form.lexeme?] using hls.1
  | @compound f head ms fs ls hd _ _ ihc ih =>
    simp only [List.forall_mem_cons, List.forall_mem_append] at hls
    obtain ⟨-, hhead, hms, -, hrest⟩ := hls
    rw [List.forall_mem_cons, Form.nodes_eq, List.forall_mem_cons, List.forall_mem_flatMap]
    exact ⟨⟨fun l hl => hhead l (hd.mem hl), ihc hms⟩, ih hrest⟩

theorem sourced_of_parse {source : String} {tokens : List Token} {limit : Nat} {forms : List Form}
    (hs : scan source = .ok tokens) (hp : parse tokens limit = .ok forms) :
    ∀ f ∈ forms, f.Sourced := by
  have hgram := grammatical_of_parse hp
  have hlegal : ∀ l ∈ tokens.map Token.toLexeme, l.Legal := by
    intro l hl
    obtain ⟨t, ht, rfl⟩ := List.mem_map.1 hl
    exact (layout_of_scanFrom hs).2.1 t ht
  exact fun f hf => ⟨hgram.spelled.legal hlegal f hf, hgram.initialized f hf⟩

theorem Stages.output_eq {source : String} {o : Options} {st : Stages}
    (h : compileStages source o = .ok st) :
    st.output = "\n".intercalate (st.forms.map (Form.text .program)) := by
  obtain ⟨-, hp, hl, hr⟩ := compileStages_eq_ok_iff.1 h
  rw [← hl, Form.render_of_initialized (grammatical_of_parse hp).initialized] at hr
  exact (Except.ok.inj hr).symm

theorem Stages.forms_ne_nil {source : String} {o : Options} {st : Stages}
    (h : compileStages source o = .ok st) (hne : st.output ≠ "") : st.forms ≠ [] := by
  intro hnil
  apply hne
  rw [Stages.output_eq h, hnil]
  rfl

end Lisplet
