import Lisplet.Proofs.Form.Diagnosis
import Lisplet.Proofs.Token.Relocation

namespace Lisplet

def ParseError.mapPosition (f : Nat → Nat) : ParseError → ParseError
  | unexpectedToken l pos => unexpectedToken l (f pos)
  | unexpectedEnd expected => unexpectedEnd expected
  | unsupportedKeyword keyword pos => unsupportedKeyword keyword (f pos)
  | unknownOperator operator pos => unknownOperator operator (f pos)
  | expectedName l pos => expectedName l (f pos)
  | missingInitializer name pos => missingInitializer name (f pos)
  | nestingTooDeep limit pos => nestingTooDeep limit (f pos)

theorem ParseError.position?_mapPosition (f : Nat → Nat) (e : ParseError) :
    (e.mapPosition f).position? = e.position?.map f := by
  cases e <;> rfl

theorem Frame.close_relocate {f : Nat → Nat} {t u : Token} (hl : u.toLexeme = t.toLexeme)
    (hp : u.position = f t.position) (frame : Frame) :
    frame.close u = (frame.close t).mapError (.mapPosition f) := by
  cases frame with
  | call | binary | alternatives => rfl
  | test | consequent =>
    simp only [close, hl, hp]
    rfl
  | declare name inits =>
    cases inits with
    | nil =>
      simp only [close, hp]
      rfl
    | cons => rfl

namespace ParseState

variable {limit : Nat}

def onTopOf (base : List Form) (s : ParseState) : ParseState := { s with body := s.body ++ base }

theorem add_onTopOf (base : List Form) (s : ParseState) (f : Form) :
    (s.onTopOf base).add f = (s.add f).onTopOf base := by
  simp only [add, onTopOf]
  split <;> rfl

theorem step_relocate {f : Nat → Nat} {t u : Token} (hl : u.toLexeme = t.toLexeme)
    (hp : u.position = f t.position) (base : List Form) (s : ParseState) :
    (s.onTopOf base).step limit u =
      ((s.step limit t).map (onTopOf base)).mapError (.mapPosition f) := by
  obtain ⟨awaiting, frames, body⟩ := s
  have hadd (frames : List Frame) (g : Form) :
      add ⟨.form, frames, body ++ base⟩ g = (add ⟨.form, frames, body⟩ g).onTopOf base :=
    add_onTopOf base ⟨.form, frames, body⟩ g
  cases awaiting with simp only [step, onTopOf]
  | head =>
    simp only [stepHead, hl, hp]
    cases t.kind with
    | name => rfl
    | paren | number => rfl
    | operator | condOperator => cases Operator.ofSymbol? t.literal <;> rfl
    | keyword =>
      simp only []
      split
      · rfl
      · split <;> rfl
  | declaredName =>
    simp only [stepDeclaredName, hl, hp]
    split <;> rfl
  | form =>
    simp only [stepForm, hl, hp, hadd, Frame.close_relocate hl hp]
    cases t.kind with
    | number | name => rfl
    | keyword | operator | condOperator => rfl
    | paren =>
      simp only []
      split
      · split <;> rfl
      · split
        · cases frames with
          | nil => rfl
          | cons frame frames =>
            simp only []
            cases frame.close t with
            | error e => rfl
            | ok g => exact congrArg Except.ok (hadd frames g)
        · rfl

theorem run_relocate (n : Nat) (base : List Form) (s : ParseState) (ts : List Token) :
    (s.onTopOf base).run limit (ts.map (Token.shift n)) =
      ((s.run limit ts).map (onTopOf base)).mapError (.mapPosition (· + n)) := by
  induction ts generalizing s with
  | nil => rfl
  | cons t ts ih =>
    rw [List.map_cons, run, run,
      step_relocate (f := (· + n)) (t.toLexeme_shift n) (t.position_shift n) base s]
    cases s.step limit t with
    | error e => rfl
    | ok r => exact ih r

theorem finish_relocate (f : Nat → Nat) (base : List Form) (s : ParseState) :
    (s.onTopOf base).finish =
      (s.finish.map (base.reverse ++ ·)).mapError (.mapPosition f) := by
  obtain ⟨awaiting, frames, body⟩ := s
  cases awaiting with
  | head | declaredName => rfl
  | form =>
    cases frames with
    | nil => exact congrArg Except.ok List.reverse_append
    | cons => rfl

end ParseState

theorem parse_append {limit : Nat} {ts : List Token} {program : List Form}
    (h : parse ts limit = .ok program) (n : Nat) (us : List Token) :
    parse (ts ++ us.map (Token.shift n)) limit =
      ((parse us limit).map (program ++ ·)).mapError (.mapPosition (· + n)) := by
  have hrun : ParseState.run limit {} ts = .ok (ParseState.onTopOf program.reverse {}) :=
    run_of_parse h
  rw [parse_append_of_run hrun, ParseState.run_relocate, parse]
  cases ParseState.run limit {} us with
  | error e => rfl
  | ok s =>
    have hfinish := s.finish_relocate (· + n) program.reverse
    rwa [List.reverse_reverse] at hfinish

end Lisplet
