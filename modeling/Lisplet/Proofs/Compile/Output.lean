import Lisplet.Proofs.Compile.Stages
import Lisplet.Proofs.Form.Delimiters

namespace Lisplet

theorem exists_compile_eq_ok_iff {source : String} {o : Options} :
    (∃ output, compile source o = .ok output) ↔
      ∃ tokens, scan source = .ok tokens ∧ ∃ forms, parse tokens o.maxDepth = .ok forms := by
  constructor
  · rintro ⟨output, h⟩
    obtain ⟨st, hst, -⟩ := compile_eq_ok_iff.1 h
    obtain ⟨hs, hp, -, -⟩ := compileStages_eq_ok_iff.1 hst
    exact ⟨st.tokens, hs, st.forms, hp⟩
  · rintro ⟨tokens, hs, forms, hp⟩
    exact ⟨_, compile_eq_ok_iff.2 ⟨_, compileStages_of_parse hs hp, rfl⟩⟩

theorem compile_ne_render_error (source : String) (o : Options) (e : RenderError) :
    compile source o ≠ .error (.render e) := by
  intro h
  rw [compile_eq_error_iff, compileStages_eq_error_iff] at h
  obtain ⟨d, hd, -⟩ | ⟨tokens, d, hd, -⟩ := h
  · cases hd
  · cases hd

theorem render_fails_iff_firstBare :
    (∀ program : List Form,
      (∀ name, render (lower program) = .error (.missingInitializer name) ↔
        Form.FirstBare (program.flatMap Form.kept) name) ∧
      (∀ name count, render (lower program) ≠ .error (.extraInitializers name count)) ∧
      (∀ slots, render (lower program) ≠ .error (.incompleteConditional slots)) ∧
      ((∃ text, render (lower program) = .ok text) ↔
        ∀ name, .declare name [] ∉ program.flatMap Form.kept)) ∧
    ∀ source o,
      (∀ e, compile source o ≠ .error (.render e)) ∧
      ((∃ output, compile source o = .ok output) ↔
        ∃ tokens, scan source = .ok tokens ∧ ∃ forms, parse tokens o.maxDepth = .ok forms) := by
  constructor
  · intro program
    refine ⟨?missing, ?extra, ?incomplete, Form.exists_render_lower_eq_ok_iff⟩
    case missing => simp [Form.render_lower_eq_error_iff]
    case extra => simp [Form.render_lower_eq_error_iff]
    case incomplete => simp [Form.render_lower_eq_error_iff]
  · intro source o
    exact ⟨compile_ne_render_error source o, exists_compile_eq_ok_iff⟩

theorem output_eq_iff_normal_eq {s t : String} {o p : Options} {a b : Stages}
    (ha : compileStages s o = .ok a) (hb : compileStages t p = .ok b) :
    a.output = b.output ↔ a.forms.map Form.normal = b.forms.map Form.normal := by
  obtain ⟨hsa, hpa, -, -⟩ := compileStages_eq_ok_iff.1 ha
  obtain ⟨hsb, hpb, -, -⟩ := compileStages_eq_ok_iff.1 hb
  rw [Stages.output_eq ha, Stages.output_eq hb]
  constructor
  · intro h
    exact Form.readable_program (sourced_of_parse hsa hpa) (sourced_of_parse hsb hpb) h
  · intro h
    have htexts := congrArg (List.map (Form.text .program)) h
    simp only [List.map_map, Function.comp_def, Form.text_normal] at htexts
    rw [htexts]

/-- An operator counts where it stands between two operands, and there only. -/
theorem output_eq_of_surplus_and_idle : ∃ a b c,
    compileStages "(defvar x 1 2) (+ y)" {} = .ok a ∧
      compileStages "(defvar x 1) (- y)" {} = .ok b ∧
      compileStages "(defvar x 1) (- y z)" ⟨true, 1⟩ = .ok c ∧
      a.output = "int x = 1;\n(y);" ∧ b.output = "int x = 1;\n(y);" ∧
      c.output = "int x = 1;\n(y - z);" ∧
      a.forms.map Form.normal = b.forms.map Form.normal ∧
      b.forms.map Form.normal ≠ c.forms.map Form.normal := by
  have hsurplus : compile "(defvar x 1 2) (+ y)" {} = .ok "int x = 1;\n(y);" := by decide +kernel
  have hidle : compile "(defvar x 1) (- y)" {} = .ok "int x = 1;\n(y);" := by decide +kernel
  have hbusy : compile "(defvar x 1) (- y z)" ⟨true, 1⟩ = .ok "int x = 1;\n(y - z);" := by
    decide +kernel
  obtain ⟨a, ha, houta⟩ := compile_eq_ok_iff.1 hsurplus
  obtain ⟨b, hb, houtb⟩ := compile_eq_ok_iff.1 hidle
  obtain ⟨c, hc, houtc⟩ := compile_eq_ok_iff.1 hbusy
  refine ⟨a, b, c, ha, hb, hc, houta, houtb, houtc, ?_, ?_⟩
  · exact (output_eq_iff_normal_eq ha hb).1 (houta.trans houtb.symm)
  · intro h
    have hout := (output_eq_iff_normal_eq hb hc).2 h
    rw [houtb, houtc] at hout
    exact absurd hout (by decide)

/-- The brackets of an output are well nested, and its marks add up over the kept forms. Where two
operands are compared, `==` stands between their texts. -/
theorem output_tallies {source : String} {o : Options} {st : Stages}
    (h : compileStages source o = .ok st) :
    WellNested st.output.toList ∧
    Tallies (placed st.forms) (st.forms.length - 1) (fun c => marks c st.output) ∧
    (∀ place operands, (place, Form.binary .eq operands) ∈ placed st.forms →
      ("(" ++ " == ".intercalate (operands.map (Form.text .binary)) ++ ")").toList <:+:
        st.output.toList) ∧
    (placed st.forms).map Prod.snd = st.forms.flatMap Form.kept := by
  obtain ⟨hs, hp, -, -⟩ := compileStages_eq_ok_iff.1 h
  have hforms := sourced_of_parse hs hp
  rw [Stages.output_eq h]
  refine ⟨wellNested_program hforms, tallies_program hforms, ?equality, map_snd_placed st.forms⟩
  case equality =>
    intro place operands hmem
    have hinfix := infix_program hmem
    simp only [Form.text, Form.texts_eq_map] at hinfix
    rw [String.toList_append] at hinfix
    exact (List.prefix_append _ _).isInfix.trans hinfix

theorem output_tallies_nested : ∃ st,
    compileStages "(if (= a b c) (defvar y v) (f (g))) (= 1 2)" {} = .ok st ∧
      WellNested st.output.toList ∧
      Tallies (placed st.forms) (st.forms.length - 1) (fun c => marks c st.output) ∧
      marks '=' st.output = 9 ∧ marks ';' st.output = 5 := by
  have hcompile : compile "(if (= a b c) (defvar y v) (f (g))) (= 1 2)" {} = .ok
      ("if (a == b == c) \x7b\n var a = char *y = \"v\";;\n\x7d\n" ++
        "else \x7b\n var b = f(g());;\n\x7d\n" ++ "(1 == 2);") := by
    decide +kernel
  obtain ⟨st, hst, hout⟩ := compile_eq_ok_iff.1 hcompile
  obtain ⟨hnested, htallies, -, -⟩ := output_tallies hst
  refine ⟨st, hst, hnested, htallies, ?_, ?_⟩
  · rw [hout]
    rfl
  · rw [hout]
    rfl

end Lisplet
