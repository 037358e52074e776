namespace Lisplet

inductive Operator
  | add | sub | mul | div | lt | gt | eq
  deriving DecidableEq

namespace Operator

def symbol : Operator → String
  | add => "+"
  | sub => "-"
  | mul => "*"
  | div => "/"
  | lt => "<"
  | gt => ">"
  | eq => "="

def ofSymbol? : String → Option Operator
  | "+" => some add
  | "-" => some sub
  | "*" => some mul
  | "/" => some div
  | "<" => some lt
  | ">" => some gt
  | "=" => some eq
  | _ => none

@[simp] theorem ofSymbol?_symbol (op : Operator) : ofSymbol? op.symbol = some op := by
  cases op <;> rfl

theorem ofSymbol?_eq_some_iff {s : String} {op : Operator} :
    ofSymbol? s = some op ↔ s = op.symbol := by
  constructor
  · intro h
    unfold ofSymbol? at h
    split at h <;> simp_all [symbol] <;> subst h <;> rfl
  · rintro rfl
    exact ofSymbol?_symbol op

end Operator

/-- A number and a symbol, which is a bare name, keep their text. A declaration holds every
initializer that was written and a conditional every alternative, though later stages look at the
first one only. -/
inductive Form
  | number (text : String)
  | symbol (text : String)
  | call (callee : String) (arguments : List Form)
  | binary (operator : Operator) (operands : List Form)
  | declare (name : String) (initializers : List Form)
  | cond (test consequent : Form) (alternatives : List Form)

namespace Form

def kind : Form → String
  | number _ => "NumberLiteral"
  | symbol _ => "StringLiteral"
  | call _ _ => "CallExpression"
  | binary _ _ => "BinaryExpression"
  | declare _ _ => "VariableDeclarator"
  | cond _ _ _ => "IfStatement"

@[elab_as_elim]
theorem induct {motive : Form → Prop}
    (number : ∀ text, motive (number text))
    (symbol : ∀ text, motive (symbol text))
    (call : ∀ callee arguments, (∀ f ∈ arguments, motive f) → motive (call callee arguments))
    (binary : ∀ operator operands, (∀ f ∈ operands, motive f) → motive (binary operator operands))
    (declare : ∀ name inits, (∀ f ∈ inits, motive f) → motive (declare name inits))
    (cond : ∀ test consequent alternatives, motive test → motive consequent →
      (∀ f ∈ alternatives, motive f) → motive (cond test consequent alternatives))
    (f : Form) : motive f :=
  Form.rec (motive_1 := motive) (motive_2 := fun fs => ∀ f ∈ fs, motive f)
    number symbol call binary declare cond (by simp)
    (fun _ _ hf hfs g hg => (List.mem_cons.1 hg).elim (fun h => h ▸ hf) (hfs g)) f

end Form

end Lisplet
