import Lisplet.Form
import Lisplet.Token

/-!
Parsing: tokens become forms in one pass from left to right. The state between two tokens is what
may stand next, the stack of forms that are open, and the top-level forms that are done.
-/

namespace Lisplet

inductive Expectation
  | formHead | declaredName | initializer | expression | closing
  deriving DecidableEq

def Expectation.text : Expectation → String
  | formHead => "a form head"
  | declaredName => "a declared name"
  | initializer => "an initializer"
  | expression => "an expression"
  | closing => "')'"

inductive ParseError
  | unexpectedToken (lexeme : Lexeme) (position : Nat)
  | unexpectedEnd (expected : Expectation)
  | unsupportedKeyword (keyword : String) (position : Nat)
  | unknownOperator (operator : String) (position : Nat)
  | expectedName (lexeme : Lexeme) (position : Nat)
  | missingInitializer (name : String) (position : Nat)
  | nestingTooDeep (limit : Nat) (position : Nat)
  deriving DecidableEq

namespace ParseError

def message : ParseError → String
  | unexpectedToken l pos => s!"unexpected {l.kind.text} token '{l.literal}' at byte {pos}"
  | unexpectedEnd expected => s!"unexpected end of input, expected {expected.text}"
  | unsupportedKeyword keyword pos => s!"keyword '{keyword}' at byte {pos} has no supported form"
  | unknownOperator operator pos => s!"unknown operator '{operator}' at byte {pos}"
  | expectedName l pos =>
    s!"expected a name after 'defvar', got {l.kind.text} token '{l.literal}' at byte {pos}"
  | missingInitializer name pos => s!"declaration of '{name}' has no initializer at byte {pos}"
  | nestingTooDeep limit pos => s!"expression nested deeper than {limit} levels at byte {pos}"

def position? : ParseError → Option Nat
  | unexpectedEnd _ => none
  | unexpectedToken _ pos | unsupportedKeyword _ pos | unknownOperator _ pos | expectedName _ pos
  | missingInitializer _ pos | nestingTooDeep _ pos => some pos

end ParseError

/-- An open form. Lists of children hold the newest child first. -/
inductive Frame
  | call (callee : String) (arguments : List Form)
  | binary (operator : Operator) (operands : List Form)
  | declare (name : String) (initializers : List Form)
  | test
  | consequent (test : Form)
  | alternatives (test consequent : Form) (alternatives : List Form)

namespace Frame

def push : Frame → Form → Frame
  | call callee args, f => call callee (f :: args)
  | binary op operands, f => binary op (f :: operands)
  | declare name inits, f => declare name (f :: inits)
  | test, f => consequent f
  | consequent t, f => alternatives t f []
  | alternatives t c alts, f => alternatives t c (f :: alts)

def expected : Frame → Expectation
  | test | consequent _ => .expression
  | declare _ [] => .initializer
  | call _ _ | binary _ _ | declare _ (_ :: _) | alternatives _ _ _ => .closing

def close : Frame → Token → Except ParseError Form
  | call callee args, _ => .ok (.call callee args.reverse)
  | binary op operands, _ => .ok (.binary op operands.reverse)
  | declare name [], t => .error (.missingInitializer name t.position)
  | declare name inits, _ => .ok (.declare name inits.reverse)
  | alternatives t c alts, _ => .ok (.cond t c alts.reverse)
  | test, t | consequent _, t => .error (.unexpectedToken t.toLexeme t.position)

end Frame

inductive Awaiting
  | form | head | declaredName
  deriving DecidableEq

/-- Frames are innermost first, and top-level forms newest first. -/
structure ParseState where
  awaiting : Awaiting := .form
  frames : List Frame := []
  body : List Form := []

namespace ParseState

def add (s : ParseState) (f : Form) : ParseState :=
  match s.frames with
  | [] => { s with body := f :: s.body }
  | frame :: frames => { s with frames := frame.push f :: frames }

def enter (s : ParseState) (frame : Frame) (awaiting : Awaiting) : ParseState :=
  { s with frames := frame :: s.frames, awaiting }

def stepForm (limit : Nat) (s : ParseState) (t : Token) : Except ParseError ParseState :=
  match t.kind with
  | .number => .ok (s.add (.number t.literal))
  | .name => .ok (s.add (.symbol t.literal))
  | .paren =>
    if t.isOpening then
      if s.frames.length < limit then .ok { s with awaiting := .head }
      else .error (.nestingTooDeep limit t.position)
    else if t.isClosing then
      match s.frames with
      | [] => .error (.unexpectedToken t.toLexeme t.position)
      | frame :: frames => (frame.close t).map (add { s with frames })
    else .error (.unexpectedToken t.toLexeme t.position)
  | .keyword | .operator | .condOperator => .error (.unexpectedToken t.toLexeme t.position)

def stepHead (s : ParseState) (t : Token) : Except ParseError ParseState :=
  match t.kind with
  | .name => .ok (s.enter (.call t.literal []) .form)
  | .operator | .condOperator =>
    match Operator.ofSymbol? t.literal with
    | some op => .ok (s.enter (.binary op []) .form)
    | none => .error (.unknownOperator t.literal t.position)
  | .keyword =>
    if t.literal = "defvar" then .ok { s with awaiting := .declaredName }
    else if t.literal = "if" then .ok (s.enter .test .form)
    else .error (.unsupportedKeyword t.literal t.position)
  | .paren | .number => .error (.unexpectedToken t.toLexeme t.position)

def stepDeclaredName (s : ParseState) (t : Token) : Except ParseError ParseState :=
  if t.kind = .name then .ok (s.enter (.declare t.literal []) .form)
  else .error (.expectedName t.toLexeme t.position)

def step (limit : Nat) (s : ParseState) (t : Token) : Except ParseError ParseState :=
  match s.awaiting with
  | .form => s.stepForm limit t
  | .head => s.stepHead t
  | .declaredName => s.stepDeclaredName t

def finish (s : ParseState) : Except ParseError (List Form) :=
  match s.awaiting, s.frames with
  | .head, _ => .error (.unexpectedEnd .formHead)
  | .declaredName, _ => .error (.unexpectedEnd .declaredName)
  | .form, [] => .ok s.body.reverse
  | .form, frame :: _ => .error (.unexpectedEnd frame.expected)

def run (limit : Nat) (s : ParseState) : List Token → Except ParseError ParseState
  | [] => .ok s
  | t :: ts =>
    match s.step limit t with
    | .ok s' => s'.run limit ts
    | .error e => .error e

end ParseState

def defaultMaxDepth : Nat := 256

def parse (tokens : List Token) (limit : Nat := defaultMaxDepth) : Except ParseError (List Form) :=
  match ParseState.run limit {} tokens with
  | .ok s => s.finish
  | .error e => .error e

namespace ParseState

@[simp] theorem run_nil (limit : Nat) (s : ParseState) : s.run limit [] = .ok s := rfl

theorem run_append (limit : Nat) (s : ParseState) (ts us : List Token) :
    s.run limit (ts ++ us) = (s.run limit ts).bind fun s' => s'.run limit us := by
  induction ts generalizing s with
  | nil => rfl
  | cons t ts ih =>
    simp only [List.cons_append, run]
    cases s.step limit t with
    | ok s' => exact ih s'
    | error e => rfl

end ParseState

end Lisplet
