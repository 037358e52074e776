namespace Lisplet

/-- A declaration that can be rendered has exactly one initializer, and a conditional two or three
slots: the condition, the consequent and perhaps an alternative. -/
inductive Code
  | statement (expression : Code)
  | call (callee : String) (arguments : List Code)
  | binary (operator : String) (operands : List Code)
  | declare (name : String) (initializers : List Code)
  | cond (slots : List Code)
  | identifier (name : String)
  | operator (text : String)
  | number (text : String)
  | string (text : String)

namespace Code

def isStatement : Code → Bool
  | statement _ => true
  | _ => false

def isConditional : Code → Bool
  | cond _ => true
  | _ => false

@[elab_as_elim]
theorem induct {motive : Code → Prop}
    (statement : ∀ c, motive c → motive (statement c))
    (call : ∀ callee arguments, (∀ c ∈ arguments, motive c) → motive (call callee arguments))
    (binary : ∀ operator operands, (∀ c ∈ operands, motive c) → motive (binary operator operands))
    (declare : ∀ name inits, (∀ c ∈ inits, motive c) → motive (declare name inits))
    (cond : ∀ slots, (∀ c ∈ slots, motive c) → motive (cond slots))
    (identifier : ∀ name, motive (identifier name))
    (operator : ∀ text, motive (operator text))
    (number : ∀ text, motive (number text))
    (string : ∀ text, motive (string text))
    (c : Code) : motive c :=
  Code.rec (motive_1 := motive) (motive_2 := fun cs => ∀ c ∈ cs, motive c)
    statement call binary declare cond identifier operator number string (by simp)
    (fun _ _ hc hcs d hd => (List.mem_cons.1 hd).elim (fun h => h ▸ hc) (hcs d)) c

end Code

end Lisplet
