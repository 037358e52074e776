import Lisplet.Proofs.Form.Grammar

/-!
Diagnosis: a parse fails at the first token behind which no program is left, whatever follows, and
the end of the tokens is only to blame if they could have gone on.
-/

namespace Lisplet

def ParseError.Blames : ParseError → Token → Prop
  | unexpectedToken l pos, t | expectedName l pos, t => l = t.toLexeme ∧ pos = t.position
  | unsupportedKeyword word pos, t | unknownOperator word pos, t =>
    word = t.literal ∧ pos = t.position
  | missingInitializer _ pos, t | nestingTooDeep _ pos, t => pos = t.position
  | unexpectedEnd _, _ => False

def Accepted (limit : Nat) (tokens : List Token) : Prop :=
  ∃ program, parse tokens limit = .ok program

/-- The tokens before the one at `i` begin an accepted list. With that one nothing can be accepted:
all that begins so fails with the error, which is about that token. -/
structure FailsAt (limit : Nat) (tokens : List Token) (e : ParseError) (i : Nat) : Prop where
  lt_length : i < tokens.length
  viable : ∃ us, Accepted limit us ∧ tokens.take i <+: us
  hopeless : ∀ us, Accepted limit us → ¬ tokens.take (i + 1) <+: us
  blames : e.Blames tokens[i]
  stable : ∀ us, tokens.take (i + 1) <+: us → parse us limit = .error e

namespace Frame

def missing : Frame → Nat
  | test => 2
  | consequent _ | declare _ [] => 1
  | call _ _ | binary _ _ | declare _ (_ :: _) | alternatives _ _ _ => 0

theorem missing_push (frame : Frame) (f : Form) : (frame.push f).missing = frame.missing - 1 := by
  cases frame with
  | declare name inits => cases inits <;> rfl
  | call | binary | test | consequent | alternatives => rfl

theorem exists_form? {frame : Frame} (h : frame.missing = 0) : ∃ f, frame.form? = some f := by
  cases frame with
  | test | consequent => cases h
  | call | binary | alternatives => exact ⟨_, rfl⟩
  | declare name inits =>
    cases inits with
    | nil => cases h
    | cons => exact ⟨_, rfl⟩

theorem close_eq_error {frame : Frame} {t : Token} {e : ParseError} (h : frame.close t = .error e) :
    e = .unexpectedToken t.toLexeme t.position ∨
      ∃ name, frame = .declare name [] ∧ e = .missingInitializer name t.position := by
  cases frame with
  | call | binary | alternatives => cases h
  | test | consequent => cases h; exact .inl rfl
  | declare name inits =>
    cases inits with
    | nil => cases h; exact .inr ⟨name, rfl, rfl⟩
    | cons => cases h

end Frame

namespace ParseState

variable {limit : Nat} {s s' : ParseState} {t : Token} {e : ParseError}

inductive Refuses (limit : Nat) (s : ParseState) (t : Token) : ParseError → Prop
  | token : Refuses limit s t (.unexpectedToken t.toLexeme t.position)
  | keyword : s.awaiting = .head → t.kind = .keyword →
      Refuses limit s t (.unsupportedKeyword t.literal t.position)
  | operator : s.awaiting = .head → t.kind = .operator ∨ t.kind = .condOperator →
      Operator.ofSymbol? t.literal = none →
        Refuses limit s t (.unknownOperator t.literal t.position)
  | name : s.awaiting = .declaredName → t.kind ≠ .name →
      Refuses limit s t (.expectedName t.toLexeme t.position)
  | initializer {name frames} : s.awaiting = .form → s.frames = .declare name [] :: frames →
      t.toLexeme = .closing → Refuses limit s t (.missingInitializer name t.position)
  | nesting : s.awaiting = .form → t.toLexeme = .opening → limit ≤ s.frames.length →
      Refuses limit s t (.nestingTooDeep limit t.position)

theorem refuses_of_stepForm (ha : s.awaiting = .form) (h : s.stepForm limit t = .error e) :
    s.Refuses limit t e := by
  cases hk : t.kind with simp only [stepForm, hk] at h
  | number | name => cases h
  | keyword | operator | condOperator => cases h; exact .token
  | paren =>
    split at h
    · next ho =>
      split at h
      · cases h
      · next hle =>
        cases h
        exact .nesting ha ((Lexeme.isOpening_iff _).1 ho) (Nat.le_of_not_lt hle)
    · split at h
      · next hc =>
        split at h
        · cases h; exact .token
        · next frame frames hs =>
          cases hclose : frame.close t with
          | ok f => rw [hclose] at h; cases h
          | error d =>
            rw [hclose] at h
            cases h
            obtain rfl | ⟨name, rfl, rfl⟩ := Frame.close_eq_error hclose
            · exact .token
            · exact .initializer ha hs ((Lexeme.isClosing_iff _).1 hc)
      · cases h; exact .token

theorem refuses_of_stepHead (ha : s.awaiting = .head) (h : s.stepHead t = .error e) :
    s.Refuses limit t e := by
  cases hk : t.kind with simp only [stepHead, hk] at h
  | name => cases h
  | paren | number => cases h; exact .token
  | operator | condOperator =>
    split at h
    · cases h
    · next hop => cases h; exact .operator ha (by simp [hk]) hop
  | keyword =>
    split at h
    · cases h
    · split at h
      · cases h
      · cases h; exact .keyword ha hk

theorem refuses_of_step (h : s.step limit t = .error e) : s.Refuses limit t e := by
  cases ha : s.awaiting with simp only [step, ha] at h
  | form => exact refuses_of_stepForm ha h
  | head => exact refuses_of_stepHead ha h
  | declaredName =>
    rw [stepDeclaredName] at h
    split at h
    · cases h
    · next hk => cases h; exact .name ha hk

theorem Refuses.blames (h : s.Refuses limit t e) : e.Blames t := by
  cases h with
  | token | keyword | operator | name => exact ⟨rfl, rfl⟩
  | initializer | nesting => rfl

theorem step_blames (h : s.step limit t = .error e) : e.Blames t := (refuses_of_step h).blames

theorem finish_eq_error (h : s.finish = .error e) : ∃ expected, e = .unexpectedEnd expected := by
  obtain ⟨awaiting, frames, body⟩ := s
  cases awaiting with
  | head | declaredName => cases h; exact ⟨_, rfl⟩
  | form =>
    cases frames with
    | nil => cases h
    | cons => cases h; exact ⟨_, rfl⟩

theorem run_eq_error {ts : List Token} (h : s.run limit ts = .error e) :
    ∃ i, ∃ hi : i < ts.length, ∃ r, s.run limit (ts.take i) = .ok r ∧
      r.step limit ts[i] = .error e := by
  induction ts generalizing s with
  | nil => cases h
  | cons t ts ih =>
    rw [run] at h
    cases hs : s.step limit t with
    | error d =>
      rw [hs] at h
      cases h
      exact ⟨0, Nat.zero_lt_succ _, s, rfl, hs⟩
    | ok r =>
      rw [hs] at h
      obtain ⟨i, hi, q, hq, he⟩ := ih h
      refine ⟨i + 1, Nat.succ_lt_succ hi, q, ?_, he⟩
      rw [List.take_succ_cons, run, hs]
      exact hq

theorem exists_declared_of_run {name : String} {frames : List Frame} {ts : List Token}
    (h : run limit {} ts = .ok s) (ha : s.awaiting = .form)
    (hs : s.frames = .declare name [] :: frames) :
    ∃ us t u, ts = us ++ [t, u] ∧ t.toLexeme = ⟨.keyword, "defvar"⟩ ∧
      u.toLexeme = ⟨.name, name⟩ := by
  have hp := (consumed_of_run h).of_form ha
  rw [hs] at hp
  generalize hls : ts.map Token.toLexeme = ls at hp
  cases hp with
  | @frame _ _ head ls ms _ _ hh _ hm =>
    obtain rfl : head = [⟨.keyword, "defvar"⟩, ⟨.name, name⟩] := hh
    cases hm
    rw [List.append_nil, ← List.singleton_append, ← List.append_assoc] at hls
    obtain ⟨us, rest, rfl, -, hrest⟩ := List.map_eq_append_iff.1 hls
    obtain ⟨t, rest, rfl, ht, hrest⟩ := List.map_eq_cons_iff.1 hrest
    obtain ⟨u, rfl, hu⟩ := List.map_eq_singleton_iff.1 hrest
    exact ⟨us, t, u, rfl, ht, hu⟩

theorem exists_run_closing (frame : Frame) (ha : s.awaiting = .form) :
    ∃ ts f, (s.enter frame .form).run limit ts = .ok (s.add f) := by
  induction hm : frame.missing generalizing frame with
  | zero =>
    obtain ⟨f, hf⟩ := Frame.exists_form? hm
    exact ⟨[⟨.closing, {}⟩], f, run_closing hf ha rfl []⟩
  | succ n ih =>
    have hpush : (frame.push (.number "0")).missing = n := by rw [Frame.missing_push, hm]; rfl
    obtain ⟨ts, f, hts⟩ := ih (frame.push (.number "0")) hpush
    refine ⟨⟨⟨.number, "0"⟩, {}⟩ :: ts, f, ?_⟩
    rw [run_cons_of_moves rfl (.number rfl)]
    exact hts

theorem run_append_of_run {ts : List Token} (h : s.run limit ts = .ok s') (us : List Token) :
    s.run limit (ts ++ us) = s'.run limit us := by
  rw [run_append, h]
  rfl

variable (limit) in
theorem exists_run_of_form (ha : s.awaiting = .form) :
    ∃ ts body, s.run limit ts = .ok { body := body } := by
  induction hn : s.frames.length generalizing s with
  | zero =>
    obtain ⟨awaiting, frames, body⟩ := s
    obtain rfl : awaiting = .form := ha
    obtain rfl : frames = [] := List.length_eq_zero_iff.1 hn
    exact ⟨[], body, rfl⟩
  | succ n ih =>
    obtain ⟨awaiting, frames, body⟩ := s
    obtain rfl : awaiting = .form := ha
    cases frames with
    | nil => cases hn
    | cons frame frames =>
      let outer : ParseState := ⟨.form, frames, body⟩
      obtain ⟨ts, f, hts⟩ := exists_run_closing (s := outer) frame rfl
      have hlength : (outer.add f).frames.length = n :=
        (length_frames_add outer f).trans (Nat.succ.inj hn)
      obtain ⟨us, body, hus⟩ := ih (add_awaiting outer f) hlength
      exact ⟨ts ++ us, body, (run_append_of_run hts us).trans hus⟩

/-- No state is a dead end: its frames can be filled and closed. -/
theorem exists_completion (limit : Nat) (s : ParseState) :
    ∃ ts body, s.run limit ts = .ok { body := body } := by
  cases ha : s.awaiting with
  | form => exact exists_run_of_form limit ha
  | head =>
    obtain ⟨ts, body, hts⟩ :=
      exists_run_of_form limit (s := s.enter (.call "f" []) .form) rfl
    refine ⟨⟨⟨.name, "f"⟩, {}⟩ :: ts, body, ?_⟩
    rw [run_cons_of_moves rfl (.call ha)]
    exact hts
  | declaredName =>
    obtain ⟨ts, body, hts⟩ :=
      exists_run_of_form limit (s := s.enter (.declare "x" []) .form) rfl
    refine ⟨⟨⟨.name, "x"⟩, {}⟩ :: ts, body, ?_⟩
    rw [run_cons_of_moves rfl (.declare ha)]
    exact hts

end ParseState

theorem parse_append_of_run {limit : Nat} {s : ParseState} {ts : List Token}
    (h : ParseState.run limit {} ts = .ok s) (us : List Token) :
    parse (ts ++ us) limit = (s.run limit us).bind ParseState.finish := by
  rw [parse, ParseState.run_append_of_run h]
  cases s.run limit us <;> rfl

theorem accepted_of_run {limit : Nat} {s : ParseState} {ts : List Token}
    (h : ParseState.run limit {} ts = .ok s) : ∃ us, Accepted limit us ∧ ts <+: us := by
  obtain ⟨us, body, hus⟩ := s.exists_completion limit
  refine ⟨ts ++ us, ⟨body.reverse, ?_⟩, List.prefix_append ts us⟩
  rw [parse_append_of_run h, hus]
  rfl

theorem failsAt_of_step {limit i : Nat} {s : ParseState} {tokens : List Token} {e : ParseError}
    (hi : i < tokens.length) (hs : ParseState.run limit {} (tokens.take i) = .ok s)
    (he : s.step limit tokens[i] = .error e) : FailsAt limit tokens e i := by
  have hstable : ∀ us, tokens.take (i + 1) <+: us → parse us limit = .error e := by
    intro us hus
    obtain ⟨rest, rfl⟩ := hus
    rw [List.take_succ_eq_append_getElem hi, List.append_assoc, parse_append_of_run hs,
      List.singleton_append, ParseState.run, he]
    rfl
  refine ⟨hi, accepted_of_run hs, ?_, ParseState.step_blames he, hstable⟩
  intro us hus hp
  obtain ⟨p, hparse⟩ := hus
  rw [hstable us hp] at hparse
  cases hparse

theorem parse_eq_error {limit : Nat} {tokens : List Token} {e : ParseError}
    (h : parse tokens limit = .error e) :
    (∃ s, ParseState.run limit {} tokens = .ok s ∧ s.finish = .error e) ∨
      ∃ i, ∃ hi : i < tokens.length, ∃ s, ParseState.run limit {} (tokens.take i) = .ok s ∧
        s.Refuses limit tokens[i] e := by
  cases hr : ParseState.run limit {} tokens with
  | ok s => exact .inl ⟨s, rfl, by simpa [parse, hr] using h⟩
  | error d =>
    obtain rfl : d = e := by simpa [parse, hr] using h
    obtain ⟨i, hi, s, hs, he⟩ := ParseState.run_eq_error hr
    exact .inr ⟨i, hi, s, hs, ParseState.refuses_of_step he⟩

theorem parse_error_earliest {limit : Nat} {tokens : List Token} {e : ParseError}
    (h : parse tokens limit = .error e) :
    ((∃ expected, e = .unexpectedEnd expected) ∧
      ∃ us, Accepted limit us ∧ tokens <+: us ∧ tokens ≠ us) ∨
    ∃ i, FailsAt limit tokens e i := by
  cases hr : ParseState.run limit {} tokens with
  | ok s =>
    left
    have hfinish : s.finish = .error e := by simpa [parse, hr] using h
    obtain ⟨us, hus, hp⟩ := accepted_of_run hr
    refine ⟨ParseState.finish_eq_error hfinish, us, hus, hp, ?_⟩
    intro heq
    obtain ⟨p, hparse⟩ := hus
    rw [← heq, h] at hparse
    cases hparse
  | error d =>
    right
    obtain rfl : d = e := by simpa [parse, hr] using h
    obtain ⟨i, hi, s, hs, he⟩ := ParseState.run_eq_error hr
    exact ⟨i, failsAt_of_step hi hs he⟩

/-- At the limit a third form cannot open, though the conditional still waits for one. -/
theorem parse_error_earliest_nested :
    let tokens : List Token := [⟨.opening, ⟨0, 1⟩⟩, ⟨⟨.keyword, "if"⟩, ⟨1, 3⟩⟩,
      ⟨.opening, ⟨4, 5⟩⟩, ⟨⟨.name, "f"⟩, ⟨5, 6⟩⟩, ⟨.opening, ⟨7, 8⟩⟩, ⟨.closing, ⟨8, 9⟩⟩]
    parse tokens 2 = .error (.nestingTooDeep 2 7) ∧
      (((∃ expected, ParseError.nestingTooDeep 2 7 = .unexpectedEnd expected) ∧
          ∃ us, Accepted 2 us ∧ tokens <+: us ∧ tokens ≠ us) ∨
        ∃ i, FailsAt 2 tokens (.nestingTooDeep 2 7) i) :=
  ⟨rfl, parse_error_earliest rfl⟩

end Lisplet
