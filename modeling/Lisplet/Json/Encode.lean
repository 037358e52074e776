import Lisplet.Code
import Lisplet.Form
import Lisplet.Json
import Lisplet.Token

namespace Lisplet

def Lexeme.toJson (l : Lexeme) : Json :=
  .object [("kind", .string l.kind.text), ("literal", .string l.literal)]

mutual

def Form.toJson : Form → Json
  | .number text => .node "NumberLiteral" [("value", .string text)]
  | .symbol text => .node "StringLiteral" [("value", .string text)]
  | .call callee args =>
    .node "CallExpression" [("name", .string callee), ("params", .array (Form.toJsons args))]
  | .binary op operands =>
    .node "BinaryExpression"
      [("operator", .string op.symbol), ("params", .array (Form.toJsons operands))]
  | .declare name inits =>
    .node "VariableDeclarator" [("name", .string name), ("params", .array (Form.toJsons inits))]
  | .cond test conseq alts =>
    .node "IfStatement"
      [("test", test.toJson), ("conseq", conseq.toJson), ("alt", .array (Form.toJsons alts))]

def Form.toJsons : List Form → List Json
  | [] => []
  | f :: fs => f.toJson :: Form.toJsons fs

end

namespace Json

def identifier (name : String) : Json := node "Identifier" [("name", string name)]

def operator (text : String) : Json := node "Operator" [("value", string text)]

end Json

mutual

def Code.toJson : Code → Json
  | .statement c => .node "ExpressionStatement" [("expression", c.toJson)]
  | .call callee args =>
    .node "CallExpression"
      [("callee", .identifier callee), ("arguments", .array (Code.toJsons args))]
  | .binary op operands =>
    .node "BinaryExpression"
      [("operation", .operator op), ("arguments", .array (Code.toJsons operands))]
  | .declare name inits =>
    .node "VariableDeclarator" [("id", .identifier name), ("init", .array (Code.toJsons inits))]
  | .cond slots => .node "IfStatement" [("body", .array (Code.toJsons slots))]
  | .identifier name => .identifier name
  | .operator text => .operator text
  | .number text => .node "NumberLiteral" [("value", .string text)]
  | .string text => .node "StringLiteral" [("value", .string text)]

def Code.toJsons : List Code → List Json
  | [] => []
  | c :: cs => c.toJson :: Code.toJsons cs

end

namespace Json

def ofTokens (tokens : List Token) : Json := array (tokens.map fun t => t.toLexeme.toJson)

def ofForms (program : List Form) : Json := node "Program" [("body", array (Form.toJsons program))]

def ofCode (program : List Code) : Json := node "Program" [("body", array (Code.toJsons program))]

end Json

@[simp] theorem Form.toJsons_eq_map (fs : List Form) : toJsons fs = fs.map toJson := by
  induction fs with
  | nil => rfl
  | cons f fs ih => simp [toJsons, ih]

@[simp] theorem Code.toJsons_eq_map (cs : List Code) : toJsons cs = cs.map toJson := by
  induction cs with
  | nil => rfl
  | cons c cs ih => simp [toJsons, ih]

end Lisplet
