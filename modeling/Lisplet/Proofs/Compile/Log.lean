import Lisplet.Proofs.Compile.Stages

namespace Lisplet

def Stage.Shows (source : String) (o : Options) : Stage → String → Prop
  | tokens, text => ∃ ts, scan source = .ok ts ∧ text = (Json.ofTokens ts).pretty
  | ast, text => ∃ ts, scan source = .ok ts ∧ ∃ forms, parse ts o.maxDepth = .ok forms ∧
      text = (Json.ofForms forms).pretty
  | target, text => ∃ ts, scan source = .ok ts ∧ ∃ forms, parse ts o.maxDepth = .ok forms ∧
      text = (Json.ofCode (lower forms)).pretty
  | c, _ => False

def Options.dumpOf (o : Options) (st : Stages) (stage : Stage) : List Record :=
  if o.debug then [.dumped stage (st.show stage)] else []

theorem Options.mem_dump {o : Options} {stage : Stage} {json : Json} {r : Record} :
    r ∈ o.dump stage json ↔ o.debug ∧ r = .dumped stage json.pretty := by
  rw [dump]
  split <;> simp [*]

theorem Options.filter_dump (o : Options) (stage : Stage) (json : Json) :
    (o.dump stage json).filter (·.level ≠ .info) = [] := by
  simp [List.filter_eq_nil_iff, mem_dump, Record.level]

theorem filter_noticed (ns : List Notice) :
    (ns.map Record.noticed).filter (·.level ≠ .info) = ns.map .noticed := by
  simp [List.filter_eq_self, Record.level]

section

variable {source : String} {o : Options} {tokens : List Token} {forms : List Form}

theorem compileLog_of_scan_error {e : ScanError} (h : scan source = .error e) :
    compileLog source o = [.started source.utf8ByteSize] := by
  simp [compileLog, compileLogged, h]

theorem compileLog_of_parse_error {e : ParseError} (hs : scan source = .ok tokens)
    (hp : parse tokens o.maxDepth = .error e) :
    compileLog source o =
      [.started source.utf8ByteSize, .scanned tokens.length] ++
        o.dump .tokens (.ofTokens tokens) := by
  simp [compileLog, compileLogged, hs, hp]

theorem compileLog_of_parse (hs : scan source = .ok tokens)
    (hp : parse tokens o.maxDepth = .ok forms) :
    compileLog source o =
      [.started source.utf8ByteSize, .scanned tokens.length] ++
        o.dump .tokens (.ofTokens tokens) ++ [.parsed forms.length] ++
        o.dump .ast (.ofForms forms) ++ (notices forms).map .noticed ++
        o.dump .target (.ofCode (lower forms)) ++
        [.rendered ("\n".intercalate (forms.map (Form.text .program))).utf8ByteSize] := by
  have hr := Form.render_of_initialized (grammatical_of_parse hp).initialized
  simp [compileLog, compileLogged, hs, hp, hr]

theorem dumped_mem_compileLog {stage : Stage} {text : String} :
    .dumped stage text ∈ compileLog source o ↔ o.debug ∧ stage.Shows source o text := by
  cases hs : scan source with
  | error e => cases stage <;> simp [compileLog_of_scan_error hs, Stage.Shows, hs]
  | ok tokens =>
    cases hp : parse tokens o.maxDepth with
    | error e =>
      cases stage <;> simp [compileLog_of_parse_error hs hp, Stage.Shows, hs, hp, Options.mem_dump]
    | ok forms =>
      cases stage <;> simp [compileLog_of_parse hs hp, Stage.Shows, hs, hp, Options.mem_dump]

theorem filter_compileLog :
    (compileLog source o).filter (·.level ≠ .info) =
      compileLog source { o with debug := false } := by
  cases hs : scan source with
  | error e =>
    rw [compileLog_of_scan_error hs, compileLog_of_scan_error hs]
    rfl
  | ok tokens =>
    cases hp : parse tokens o.maxDepth with
    | error e =>
      have hquiet := compileLog_of_parse_error (o := { o with debug := false }) hs hp
      rw [compileLog_of_parse_error hs hp, hquiet, List.filter_append, Options.filter_dump]
      rfl
    | ok forms =>
      have hquiet := compileLog_of_parse (o := { o with debug := false }) hs hp
      rw [compileLog_of_parse hs hp, hquiet]
      simp only [List.filter_append, Options.filter_dump, filter_noticed]
      rfl

end

theorem compileLog_tells (source : String) (o : Options) :
    (match compileStages source o with
      | .error (.scan _) => compileLog source o = [.started source.utf8ByteSize]
      | .error (.parse _) => ∃ tokens, scan source = .ok tokens ∧
          compileLog source o = [.started source.utf8ByteSize, .scanned tokens.length] ++
            o.dump .tokens (.ofTokens tokens)
      | .error (.render _) => False
      | .ok st => compileLog source o =
          [.started source.utf8ByteSize, .scanned st.tokens.length] ++ o.dumpOf st .tokens ++
            [.parsed st.forms.length] ++ o.dumpOf st .ast ++ (notices st.forms).map .noticed ++
            o.dumpOf st .target ++ [.rendered st.output.utf8ByteSize]) ∧
    (∀ (stage : Stage) (text : String), .dumped stage text ∈ compileLog source o ↔
      o.debug ∧ stage.Shows source o text) ∧
    (∀ r ∈ compileLog source o, r.level = .info → ∃ (stage : Stage) (text : String),
      stage.Shows source o text ∧
        r.fields = [("stage", .text stage.name), ("message", .text ("\n" ++ text))]) ∧
    (compileLog source o).filter (·.level ≠ .info) =
      compileLog source { o with debug := false } ∧
    compileStages source o = compileStages source { o with debug := false } := by
  have hquiet : o.maxDepth = ({ o with debug := false } : Options).maxDepth := rfl
  refine ⟨?records, fun stage text => dumped_mem_compileLog, ?info, filter_compileLog,
    compileStages_congr hquiet source⟩
  case records =>
    cases hs : scan source with
    | error e =>
      rw [compileStages_of_scan_error hs]
      exact compileLog_of_scan_error hs
    | ok tokens =>
      cases hp : parse tokens o.maxDepth with
      | error e =>
        rw [compileStages_of_parse_error hs hp]
        exact ⟨tokens, rfl, compileLog_of_parse_error hs hp⟩
      | ok forms =>
        rw [compileStages_of_parse hs hp]
        exact compileLog_of_parse hs hp
  case info =>
    intro r hr hlevel
    cases r with
    | started | scanned | parsed | noticed | rendered => cases hlevel
    | dumped stage text => exact ⟨stage, text, (dumped_mem_compileLog.1 hr).2, rfl⟩

end Lisplet
