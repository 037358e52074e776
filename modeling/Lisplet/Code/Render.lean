import Lisplet.Code

namespace Lisplet

inductive RenderError
  | missingInitializer (name : String)
  | extraInitializers (name : String) (count : Nat)
  | incompleteConditional (slots : Nat)
  deriving DecidableEq

def RenderError.message : RenderError → String
  | missingInitializer name => s!"declaration of '{name}' has no initializer"
  | extraInitializers name count =>
    s!"declaration of '{name}' has {count} initializers, expected one"
  | incompleteConditional slots =>
    s!"conditional has {slots} slots, expected a condition, a consequent and an optional alternative"

namespace Code

def terminator (c : Code) : String := if c.isConditional then "" else ";"

def block (name value : String) : String := " \x7b\n var " ++ name ++ " = " ++ value ++ ";\n\x7d"

mutual

def render : Code → Except RenderError String
  | statement c => do return (← c.render) ++ c.terminator
  | call callee args => do return callee ++ "(" ++ ", ".intercalate (← renderAll args) ++ ")"
  | binary op operands => do
    return "(" ++ (" " ++ op ++ " ").intercalate (← renderAll operands) ++ ")"
  | declare name [] => .error (.missingInitializer name)
  | declare name [string text] => .ok ("char *" ++ name ++ " = \"" ++ text ++ "\"")
  | declare name [c] => do return "int " ++ name ++ " = " ++ (← c.render)
  | declare name (c :: d :: rest) => .error (.extraInitializers name (c :: d :: rest).length)
  | cond [condition, conseq] => do
    return "if " ++ (← condition.render) ++ block "a" (← conseq.render)
  | cond [condition, conseq, alt] => do
    return "if " ++ (← condition.render) ++ block "a" (← conseq.render) ++
      "\nelse" ++ block "b" (← alt.render)
  | cond slots => .error (.incompleteConditional slots.length)
  | identifier text | operator text | number text | string text => .ok text

def renderAll : List Code → Except RenderError (List String)
  | [] => .ok []
  | c :: cs => do return (← c.render) :: (← renderAll cs)

end

end Code

def render (program : List Code) : Except RenderError String := do
  return "\n".intercalate (← Code.renderAll program)

end Lisplet
