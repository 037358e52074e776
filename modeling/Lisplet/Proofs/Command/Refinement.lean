import Lisplet.Command.Run
import Lisplet.Proofs.Compile.Stages

namespace Lisplet.Command

structure Ready (args : List String) (s : Surroundings) (i : Invocation) (o : Options)
    (source : String) : Prop where
  parses : Request.ofArguments args = .ok (.compile i)
  configured : ∃ settings,
    (match i.config with
      | none => Settings.load s s.directory = settings
      | some path => Settings.loadFrom s path = .ok settings) ∧
    o = { debug := i.debug || settings.debug, maxDepth := i.maxDepth.getD settings.maxDepth }
  reads : match i.origin with
    | .expression text => text = source
    | .file path => s.read path = .ok source
    | .input => s.input = .ok source

section

variable {args : List String} {s : Surroundings} {i : Invocation} {o : Options} {source : String}

theorem Ready.exists_settings_eq (h : Ready args s i o source) :
    ∃ settings, i.settings s = .ok settings ∧ o = i.options settings := by
  obtain ⟨settings, hs, ho⟩ := h.configured
  refine ⟨settings, ?_, ho⟩
  unfold Invocation.settings
  cases hc : i.config with
  | none =>
    rw [hc] at hs
    exact congrArg Except.ok hs
  | some path =>
    rw [hc] at hs
    simp only [hs]

theorem Ready.read_eq (h : Ready args s i o source) : i.origin.read s = .ok source := by
  have hreads := h.reads
  cases ho : i.origin with
  | expression text =>
    rw [ho] at hreads
    exact congrArg Except.ok hreads
  | file path =>
    rw [ho] at hreads
    simp only [Origin.read, hreads]
  | input =>
    rw [ho] at hreads
    simp only [Origin.read, hreads]

theorem Ready.run_eq_outcome (h : Ready args s i o source) :
    run args s = Request.outcome s (.compile i) := by
  rw [run, h.parses]

theorem Ready.run_of_ok (h : Ready args s i o source) {st : Stages}
    (hst : compileStages source o = .ok st) :
    run args s = { exit := 0, stdout := line (st.show i.stage) } := by
  obtain ⟨settings, hs, rfl⟩ := h.exists_settings_eq
  have hrun : i.run s = .ok (st.show i.stage) := by
    simp only [Invocation.run, hs, h.read_eq, hst]
  simp only [h.run_eq_outcome, Request.outcome, hrun]

theorem Ready.run_of_error (h : Ready args s i o source) {e : CompileError}
    (he : compileStages source o = .error e) :
    run args s =
      { exit := 1
        stderr := "error: " ++
          ("compiling " ++ i.origin.label ++ ": " ++ e.message ++ ": " ++ e.detail) } := by
  obtain ⟨settings, hs, rfl⟩ := h.exists_settings_eq
  have hrun : i.run s = .error (.compiling i.origin.label e) := by
    simp only [Invocation.run, hs, h.read_eq, he]
  simp only [h.run_eq_outcome, Request.outcome, hrun, Failure.report]

theorem Ready.run_agrees {args' : List String} {s' : Surroundings} {i' : Invocation} {o' : Options}
    (h : Ready args s i o source) (h' : Ready args' s' i' o' source)
    (hlimit : o.maxDepth = o'.maxDepth) :
    (run args s).exit = (run args' s').exit ∧
      (i.stage = i'.stage → (run args s).stdout = (run args' s').stdout) := by
  have hstages := compileStages_congr hlimit source
  cases hc : compileStages source o' with
  | ok st =>
    rw [h.run_of_ok (hstages.trans hc), h'.run_of_ok hc]
    exact ⟨rfl, fun hstage => by rw [hstage]⟩
  | error e =>
    rw [h.run_of_error (hstages.trans hc), h'.run_of_error hc]
    exact ⟨rfl, fun _ => rfl⟩

end

theorem stdout_of_exit_ne_zero {args : List String} {s : Surroundings}
    (h : (run args s).exit ≠ 0) : (run args s).stdout = "" := by
  rw [run] at h ⊢
  cases hr : Request.ofArguments args with
  | error e => rfl
  | ok request =>
    rw [hr] at h
    cases request with
    | version | help => exact absurd rfl h
    | compile i =>
      simp only [Request.outcome] at h ⊢
      cases hrun : i.run s with
      | ok text =>
        rw [hrun] at h
        exact absurd rfl h
      | error e => rfl

theorem line_pretty (v : Json) : line v.pretty = v.pretty ++ "\n" := if_neg v.pretty_ne_empty

/-- A command does what the library does for its source and options. It prints the stage that is
asked for and nothing of the others, but all of them must succeed. -/
theorem run_refines_compileStages {args : List String} {s : Surroundings} {i : Invocation}
    {o : Options} {source : String} (h : Ready args s i o source) :
    (∀ st, compileStages source o = .ok st →
      (run args s).exit = 0 ∧
        (run args s).stdout = match i.stage with
          | .tokens => (Json.ofTokens st.tokens).pretty ++ "\n"
          | .ast => (Json.ofForms st.forms).pretty ++ "\n"
          | .target => (Json.ofCode st.code).pretty ++ "\n"
          | .c => if st.output = "" then "" else st.output ++ "\n") ∧
    (∀ e, compileStages source o = .error e →
      (run args s).exit = 1 ∧ (run args s).stdout = "" ∧
        (run args s).stderr = "error: compiling " ++
          (match i.origin with
            | .expression _ => "<expr>"
            | .file path => path
            | .input => "<stdin>") ++ ": " ++ e.message ++ ": " ++ e.detail) ∧
    (∀ args' s' i' o', Ready args' s' i' o' source → o.maxDepth = o'.maxDepth →
      (run args s).exit = (run args' s').exit ∧
        (i.stage = i'.stage → (run args s).stdout = (run args' s').stdout)) ∧
    ((run args s).exit = 0 ↔ ∃ output, compile source o = .ok output) := by
  refine ⟨?ok, ?error, fun args' s' i' o' h' => h.run_agrees h', ?verdict⟩
  case ok =>
    intro st hst
    rw [h.run_of_ok hst]
    refine ⟨rfl, ?_⟩
    cases i.stage with
    | tokens => exact line_pretty (.ofTokens st.tokens)
    | ast => exact line_pretty (.ofForms st.forms)
    | target => exact line_pretty (.ofCode st.code)
    | c => rfl
  case error =>
    intro e he
    have hexit : (run args s).exit = 1 := by rw [h.run_of_error he]
    refine ⟨hexit, stdout_of_exit_ne_zero (by rw [hexit]; decide), ?_⟩
    rw [h.run_of_error he]
    have hsplit : "error: compiling " = "error: " ++ "compiling " := rfl
    rw [hsplit]
    cases i.origin <;> simp only [Origin.label, String.append_assoc]
  case verdict =>
    cases hc : compileStages source o with
    | ok st =>
      rw [h.run_of_ok hc]
      simp [compile, hc, Except.map]
    | error e =>
      rw [h.run_of_error hc]
      simp [compile, hc, Except.map]

/-- The file of the project sets a limit of one. A flag raises it, and another file sets it anew. -/
theorem run_refines_compileStages_routes :
    let s : Surroundings := {
      read := fun path =>
        if path = "./.lispc/config.toml" then .ok "compile = [true, 1]\n"
        else if path = "c.toml" then .ok "[compile]\nmax_depth = 1\n"
        else if path = "x.lisp" then .ok "x"
        else .error .notFound
      input := .ok "(f (g))"
      configHome := none
      home := none
      directory := "." }
    let tokens := ["--emit=tokens", "x.lisp"]
    let deep := ["--max-depth", "2", "-e(f (g))"]
    let shallow := ["--emit", "ast", "--config=c.toml", "-e", "(f (g))"]
    Ready tokens s ⟨.file "x.lisp", false, .tokens, none, none⟩ ⟨true, 1⟩ "x" ∧
      Ready deep s ⟨.expression "(f (g))", false, .c, some 2, none⟩ ⟨true, 2⟩ "(f (g))" ∧
      Ready shallow s ⟨.expression "(f (g))", false, .ast, none, some "c.toml"⟩ ⟨false, 1⟩
        "(f (g))" ∧
      Ready [] s ⟨.input, false, .c, none, none⟩ ⟨true, 1⟩ "(f (g))" ∧
      (run tokens s).exit = 0 ∧
      (run tokens s).stdout =
        "[\n  \x7b\n    \"kind\": \"name\",\n    \"literal\": \"x\"\n  \x7d\n]\n" ∧
      (run deep s).exit = 0 ∧ (run deep s).stdout = "f(g());\n" ∧
      (run [] s).exit = 1 ∧ (run [] s).stdout = "" ∧
      (run [] s).stderr =
        "error: compiling <stdin>: " ++
          "parse error: expression nested deeper than 1 levels at byte 3: " ++
            "expression nested deeper than 1 levels at byte 3" ∧
      (run shallow s).exit = (run [] s).exit := by
  intro s tokens deep shallow
  have hsettings : Settings.load s "." = { debug := true, maxDepth := 1 } := by decide +kernel
  have htokens : Ready tokens s ⟨.file "x.lisp", false, .tokens, none, none⟩ ⟨true, 1⟩ "x" :=
    ⟨by decide +kernel, ⟨_, hsettings, rfl⟩, rfl⟩
  have hdeep :
      Ready deep s ⟨.expression "(f (g))", false, .c, some 2, none⟩ ⟨true, 2⟩ "(f (g))" :=
    ⟨by decide +kernel, ⟨_, hsettings, rfl⟩, rfl⟩
  have hnamed : Settings.loadFrom s "c.toml" = .ok { maxDepth := 1 } := by decide +kernel
  have hshallow : Ready shallow s ⟨.expression "(f (g))", false, .ast, none, some "c.toml"⟩
      ⟨false, 1⟩ "(f (g))" :=
    ⟨by decide +kernel, ⟨_, hnamed, rfl⟩, rfl⟩
  have hinput : Ready [] s ⟨.input, false, .c, none, none⟩ ⟨true, 1⟩ "(f (g))" :=
    ⟨rfl, ⟨_, hsettings, rfl⟩, rfl⟩
  have hname : compile "x" ⟨true, 1⟩ = .ok "x" := by decide +kernel
  have hcall : compile "(f (g))" ⟨true, 2⟩ = .ok "f(g());" := by decide +kernel
  have hfails : compile "(f (g))" ⟨true, 1⟩ = .error (.parse (.nestingTooDeep 1 3)) := by
    decide +kernel
  have hscan : scan "x" = .ok [{ kind := .name, literal := "x", span := ⟨0, 1⟩ }] := by
    decide +kernel
  obtain ⟨x, hx, -⟩ := compile_eq_ok_iff.1 hname
  obtain ⟨call, hcompiled, houtput⟩ := compile_eq_ok_iff.1 hcall
  rw [compile_eq_error_iff] at hfails
  obtain ⟨hexit, hprinted⟩ := (run_refines_compileStages htokens).1 x hx
  obtain ⟨hexit', hprinted'⟩ := (run_refines_compileStages hdeep).1 call hcompiled
  obtain ⟨-, herror, hagrees, -⟩ := run_refines_compileStages hinput
  obtain ⟨hexit'', hprinted'', hreport⟩ := herror _ hfails
  have hlexemes : x.tokens = [{ kind := .name, literal := "x", span := ⟨0, 1⟩ }] :=
    Except.ok.inj ((compileStages_eq_ok_iff.1 hx).1.symm.trans hscan)
  refine ⟨htokens, hdeep, hshallow, hinput, hexit, ?_, hexit', ?_, hexit'', hprinted'', ?_,
    (hagrees _ _ _ _ hshallow rfl).1.symm⟩
  · rw [hprinted, hlexemes]
    rfl
  · rw [hprinted', houtput]
    rfl
  · rw [hreport]
    rfl

end Lisplet.Command
