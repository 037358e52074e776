import Lisplet.Token
import Lisplet.Text

namespace Lisplet

/-- The class of a token's first character, which settles where the token ends. -/
inductive Lead
  | paren | digit | letter | operator | comparison
  deriving DecidableEq

def Lead.of? (c : Char) : Option Lead :=
  if c ∈ ['(', ')'] then some .paren
  else if c.isDigit then some .digit
  else if c.isAlpha then some .letter
  else if c ∈ ['+', '-', '*', '/'] then some .operator
  else if c ∈ ['<', '>', '='] then some .comparison
  else none

def isWordChar (c : Char) : Bool := c.isAlphanum || c == '_' || c == '-'

def Lead.takes : Lead → Char → Bool
  | .digit, c => c.isDigit
  | .letter, c => isWordChar c
  | .paren, _ | .operator, _ | .comparison, _ => false

def Lead.kind : Lead → String → TokenKind
  | .paren, _ => .paren
  | .digit, _ => .number
  | .letter, word => if word ∈ keywords then .keyword else .name
  | .operator, _ => .operator
  | .comparison, _ => .condOperator

structure ScanError where
  character : Char
  position : Nat
  deriving DecidableEq

def ScanError.message (e : ScanError) : String :=
  s!"unexpected character '{e.character}' at byte {e.position}"

def utf8Length : List Char → Nat
  | [] => 0
  | c :: cs => c.utf8Size + utf8Length cs

def Lead.token (lead : Lead) (pos : Nat) (word : List Char) : Token where
  kind := lead.kind (String.ofList word)
  literal := String.ofList word
  span := ⟨pos, pos + utf8Length word⟩

def scanFrom (pos : Nat) : List Char → Except ScanError (List Token)
  | [] => .ok []
  | c :: cs =>
    if Text.isBlank c then scanFrom (pos + c.utf8Size) cs
    else match Lead.of? c with
      | none => .error ⟨c, pos⟩
      | some lead =>
        let word := c :: cs.takeWhile lead.takes
        (scanFrom (pos + utf8Length word) (cs.dropWhile lead.takes)).map (lead.token pos word :: ·)
termination_by cs => cs.length
decreasing_by
  · simp
  · have := (List.dropWhile_sublist (l := cs) lead.takes).length_le
    simp only [List.length_cons]; omega

def scan (source : String) : Except ScanError (List Token) :=
  scanFrom 0 source.toList

@[simp] theorem utf8Length_nil : utf8Length [] = 0 := rfl

@[simp] theorem utf8Length_cons (c : Char) (cs : List Char) :
    utf8Length (c :: cs) = c.utf8Size + utf8Length cs := rfl

@[simp] theorem utf8Length_append (cs ds : List Char) :
    utf8Length (cs ++ ds) = utf8Length cs + utf8Length ds := by
  induction cs with
  | nil => simp
  | cons c cs ih => simp [ih, Nat.add_assoc]

@[simp] theorem scanFrom_nil (pos : Nat) : scanFrom pos [] = .ok [] := by simp [scanFrom]

theorem scanFrom_cons_blank {c : Char} (h : Text.isBlank c) (pos : Nat) (cs : List Char) :
    scanFrom pos (c :: cs) = scanFrom (pos + c.utf8Size) cs := by simp [scanFrom, h]

theorem scanFrom_cons_of_none {c : Char} (hb : Text.isBlank c = false) (h : Lead.of? c = none)
    (pos : Nat) (cs : List Char) : scanFrom pos (c :: cs) = .error ⟨c, pos⟩ := by
  simp [scanFrom, hb, h]

theorem scanFrom_cons_of_some {c : Char} {lead : Lead} (hb : Text.isBlank c = false)
    (h : Lead.of? c = some lead) (pos : Nat) (cs : List Char) :
    scanFrom pos (c :: cs) =
      (scanFrom (pos + utf8Length (c :: cs.takeWhile lead.takes)) (cs.dropWhile lead.takes)).map
        (lead.token pos (c :: cs.takeWhile lead.takes) :: ·) := by
  rw [scanFrom]
  simp [hb, h]

end Lisplet
