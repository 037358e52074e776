import Lisplet.Proofs.Compile.Stages
import Lisplet.Proofs.Form.Nesting
import Lisplet.Proofs.Form.Relocation

/-!
Placement: only what the tokens say decides what becomes of them. Where they stand is left to the
position of an error, which is that of one token wherever this stands.
-/

namespace Lisplet

def Alike (R : ε → ε → Prop) : Except ε α → Except ε α → Prop
  | .ok a, .ok b => a = b
  | .error d, .error e => R d e
  | .ok _, .error _ | .error _, .ok _ => False

/-- The errors differ in their positions alone, which are those of the tokens at one index. -/
inductive ParseError.Matches (ts us : List Token) : ParseError → ParseError → Prop
  | ending {expected} : Matches ts us (unexpectedEnd expected) (unexpectedEnd expected)
  | token {i : Nat} {t u : Token} {e} : ts[i]? = some t → us[i]? = some u →
      position? e = some t.position → Matches ts us e (e.mapPosition fun _ => u.position)

def CompileError.Matches (ts us : List Token) : CompileError → CompileError → Prop
  | parse d, parse e => d.Matches ts us e
  | _, _ => False

theorem ParseError.Blames.position? {e : ParseError} {t : Token} (h : e.Blames t) :
    e.position? = some t.position := by
  cases e with
  | unexpectedEnd => cases h
  | unexpectedToken | expectedName | unsupportedKeyword | unknownOperator => exact congrArg some h.2
  | missingInitializer | nestingTooDeep => exact congrArg some h

namespace ParseState

variable {limit : Nat} {s r : ParseState} {ts us : List Token}

@[simp] theorem onTopOf_nil (s : ParseState) : s.onTopOf [] = s := by simp [onTopOf]

theorem step_of_toLexeme {t u : Token} (h : u.toLexeme = t.toLexeme) (s : ParseState) :
    s.step limit u = (s.step limit t).mapError (.mapPosition fun _ => u.position) := by
  have hstep : (s.onTopOf []).step limit u =
      ((s.step limit t).map (onTopOf [])).mapError (.mapPosition fun _ => u.position) :=
    step_relocate (f := fun _ => u.position) h rfl [] s
  rw [onTopOf_nil] at hstep
  rw [hstep]
  cases s.step limit t with
  | ok r => exact congrArg Except.ok r.onTopOf_nil
  | error e => rfl

theorem run_of_toLexeme (h : ts.map Token.toLexeme = us.map Token.toLexeme)
    (hr : s.run limit ts = .ok r) : s.run limit us = .ok r := by
  induction ts generalizing us s with
  | nil =>
    rw [List.map_nil, List.nil_eq, List.map_eq_nil_iff] at h
    rwa [h]
  | cons t ts ih =>
    cases us with
    | nil => cases h
    | cons u us =>
      obtain ⟨htu, hrest⟩ := List.cons.inj h
      rw [run] at hr ⊢
      rw [step_of_toLexeme htu.symm]
      cases hs : s.step limit t with
      | error e => rw [hs] at hr; cases hr
      | ok q =>
        rw [hs] at hr
        exact ih hrest hr

end ParseState

section

variable {ts us : List Token}

theorem parse_of_run {limit : Nat} {s : ParseState} (h : ParseState.run limit {} ts = .ok s) :
    parse ts limit = s.finish := by
  rw [parse, h]

theorem parse_alike (h : ts.map Token.toLexeme = us.map Token.toLexeme) (limit : Nat) :
    Alike (ParseError.Matches ts us) (parse ts limit) (parse us limit) := by
  cases hr : ParseState.run limit {} ts with
  | ok s =>
    rw [parse_of_run hr, parse_of_run (ParseState.run_of_toLexeme h hr)]
    cases hf : s.finish with
    | ok program => rfl
    | error e =>
      obtain ⟨expected, rfl⟩ := ParseState.finish_eq_error hf
      exact .ending
  | error e =>
    obtain ⟨i, hi, r, hrun, hstep⟩ := ParseState.run_eq_error hr
    have hj : i < us.length := by
      have hlength := congrArg List.length h
      simp only [List.length_map] at hlength
      omega
    have hlexeme : us[i].toLexeme = ts[i].toLexeme := by
      have hget := congrArg (·[i]?) h
      simpa [hi, hj] using hget.symm
    have hrun' : ParseState.run limit {} (us.take i) = .ok r := by
      refine ParseState.run_of_toLexeme ?_ hrun
      rw [List.map_take, List.map_take, h]
    have hstep' : r.step limit us[i] = .error (e.mapPosition fun _ => us[i].position) := by
      rw [ParseState.step_of_toLexeme hlexeme, hstep]
      rfl
    have hts := (failsAt_of_step hi hrun hstep).parse_eq
    have hus := (failsAt_of_step hj hrun' hstep').parse_eq
    rw [hts, hus]
    exact .token (List.getElem?_eq_getElem hi) (List.getElem?_eq_getElem hj)
      (ParseState.step_blames hstep).position?

theorem parse_of_toLexeme (h : ts.map Token.toLexeme = us.map Token.toLexeme) {limit : Nat}
    {program : List Form} (hp : parse ts limit = .ok program) : parse us limit = .ok program := by
  have halike := parse_alike h limit
  rw [hp] at halike
  cases hq : parse us limit with
  | ok q =>
    rw [hq] at halike
    exact congrArg Except.ok (Eq.symm halike)
  | error e =>
    rw [hq] at halike
    cases halike

theorem compile_alike {s t : String} (hs : scan s = .ok ts) (ht : scan t = .ok us)
    (h : ts.map Token.toLexeme = us.map Token.toLexeme) (o : Options) :
    Alike (CompileError.Matches ts us) (compile s o) (compile t o) := by
  have halike := parse_alike h o.maxDepth
  cases hp : parse ts o.maxDepth with
  | ok p =>
    have hq := parse_of_toLexeme h hp
    rw [compile, compile, compileStages_of_parse hs hp, compileStages_of_parse ht hq]
    rfl
  | error d =>
    rw [hp] at halike
    cases hq : parse us o.maxDepth with
    | ok q => rw [hq] at halike; cases halike
    | error e =>
      rw [hq] at halike
      rw [compile, compile, compileStages_of_parse_error hs hp, compileStages_of_parse_error ht hq]
      exact halike

theorem TokenKind.text_injective : Function.Injective TokenKind.text := by
  intro a b h
  cases a <;> cases b <;> simp_all [text]

theorem Lexeme.toJson_injective : Function.Injective Lexeme.toJson := by
  intro l m h
  simp only [toJson, Json.object.injEq, List.cons.injEq, Prod.mk.injEq, Json.string.injEq] at h
  obtain ⟨⟨-, hkind⟩, ⟨-, hliteral⟩, -⟩ := h
  obtain ⟨kind, literal⟩ := l
  obtain ⟨kind', literal'⟩ := m
  obtain rfl : kind = kind' := TokenKind.text_injective hkind
  obtain rfl : literal = literal' := hliteral
  rfl

theorem ofTokens_eq_iff :
    Json.ofTokens ts = Json.ofTokens us ↔ ts.map Token.toLexeme = us.map Token.toLexeme := by
  have hmap (ts : List Token) :
      Json.ofTokens ts = .array ((ts.map Token.toLexeme).map Lexeme.toJson) := by
    rw [Json.ofTokens, List.map_map]
    rfl
  rw [hmap, hmap, Json.array.injEq, List.map_inj_right]
  intro l m h
  exact Lexeme.toJson_injective h

end

/-- Two lists of tokens that say the same come to the same, but for the position of an error. So do
two sources with such tokens, and so do the tokens of a source when they are read back from their
JSON, which has no spans. -/
theorem alike_of_toLexeme_eq :
    (∀ ts us : List Token, ts.map Token.toLexeme = us.map Token.toLexeme →
      (∀ limit, Alike (ParseError.Matches ts us) (parse ts limit) (parse us limit)) ∧
      ∀ s t o, scan s = .ok ts → scan t = .ok us →
        Alike (CompileError.Matches ts us) (compile s o) (compile t o)) ∧
    ∀ source o st, compileStages source o = .ok st →
      ∀ us, Json.ofTokens us = Json.ofTokens st.tokens → parse us o.maxDepth = .ok st.forms := by
  constructor
  · intro ts us h
    exact ⟨parse_alike h, fun s t o hs ht => compile_alike hs ht h o⟩
  · intro source o st hst us hus
    obtain ⟨-, hp, -, -⟩ := compileStages_eq_ok_iff.1 hst
    exact parse_of_toLexeme (ofTokens_eq_iff.1 hus).symm hp

theorem alike_of_wide_blank :
    let ts : List Token := [⟨.opening, ⟨0, 1⟩⟩, ⟨⟨.name, "f"⟩, ⟨1, 2⟩⟩, ⟨⟨.keyword, "if"⟩, ⟨3, 5⟩⟩]
    let us : List Token := [⟨.opening, ⟨0, 1⟩⟩, ⟨⟨.name, "f"⟩, ⟨1, 2⟩⟩, ⟨⟨.keyword, "if"⟩, ⟨5, 7⟩⟩]
    scan "(f if" = .ok ts ∧ scan "(f\u2003if" = .ok us ∧
      ts.map Token.toLexeme = us.map Token.toLexeme ∧
      compile "(f if" {} = .error (.parse (.unexpectedToken ⟨.keyword, "if"⟩ 3)) ∧
      Alike (CompileError.Matches ts us) (compile "(f if" {}) (compile "(f\u2003if" {}) ∧
      ∃ st, compileStages "(f)" {} = .ok st ∧
        parse [⟨.opening, {}⟩, ⟨⟨.name, "f"⟩, {}⟩, ⟨.closing, {}⟩] = .ok st.forms := by
  intro ts us
  have hts : scan "(f if" = .ok ts := by decide +kernel
  have hus : scan "(f\u2003if" = .ok us := by decide +kernel
  have hfails : compile "(f if" {} = .error (.parse (.unexpectedToken ⟨.keyword, "if"⟩ 3)) := by
    decide +kernel
  have hscan : scan "(f)" =
      .ok [⟨.opening, ⟨0, 1⟩⟩, ⟨⟨.name, "f"⟩, ⟨1, 2⟩⟩, ⟨.closing, ⟨2, 3⟩⟩] := by decide +kernel
  obtain ⟨halike, hback⟩ := alike_of_toLexeme_eq
  have hst := compileStages_of_parse (o := {}) hscan rfl
  exact ⟨hts, hus, rfl, hfails, (halike ts us rfl).2 _ _ {} hts hus, _, hst, hback _ {} _ hst _ rfl⟩

end Lisplet
