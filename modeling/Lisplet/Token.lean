namespace Lisplet

/-- A half-open range of byte offsets. A token that comes from no source has the empty span at 0. -/
structure Span where
  start : Nat := 0
  stop : Nat := 0
  deriving DecidableEq

inductive TokenKind
  | paren | number | name | keyword | operator | condOperator
  deriving DecidableEq

def TokenKind.text : TokenKind → String
  | .paren => "paren"
  | .number => "number"
  | .name => "name"
  | .keyword => "keyword"
  | .operator => "operator"
  | .condOperator => "condOperator"

def keywords : List String := ["defvar", "if", "define", "write-line"]

structure Lexeme where
  kind : TokenKind
  literal : String
  deriving DecidableEq

structure Token extends Lexeme where
  span : Span := {}
  deriving DecidableEq

namespace Lexeme

def opening : Lexeme := ⟨.paren, "("⟩

def closing : Lexeme := ⟨.paren, ")"⟩

def isOpening (l : Lexeme) : Bool := l == opening

def isClosing (l : Lexeme) : Bool := l == closing

@[simp] theorem isOpening_iff (l : Lexeme) : l.isOpening ↔ l = opening := by simp [isOpening]

@[simp] theorem isClosing_iff (l : Lexeme) : l.isClosing ↔ l = closing := by simp [isClosing]

end Lexeme

def Token.position (t : Token) : Nat := t.span.start

end Lisplet
