import Lisplet.Proofs.Compile.Placement
import Lisplet.Proofs.Json.Reading

namespace Lisplet

def TokenKind.ofText? : String → Option TokenKind
  | "paren" => some paren
  | "number" => some number
  | "name" => some name
  | "keyword" => some keyword
  | "operator" => some operator
  | "condOperator" => some condOperator
  | _ => none

@[simp] theorem TokenKind.ofText?_text (kind : TokenKind) : ofText? kind.text = some kind := by
  cases kind <;> rfl

def Lexeme.ofJson? : Json → Option Lexeme
  | .object [("kind", .string kind), ("literal", .string literal)] => do
    return ⟨← TokenKind.ofText? kind, literal⟩
  | _ => none

@[simp] theorem Lexeme.ofJson?_toJson (l : Lexeme) : ofJson? l.toJson = some l := by
  simp [ofJson?, toJson]

mutual

def Form.ofJson? : Json → Option Form
  | .object [("type", .string "NumberLiteral"), ("value", .string text)] => some (.number text)
  | .object [("type", .string "StringLiteral"), ("value", .string text)] => some (.symbol text)
  | .object [("type", .string "CallExpression"), ("name", .string callee),
      ("params", .array args)] => do
    return .call callee (← Form.ofJsons? args)
  | .object [("type", .string "BinaryExpression"), ("operator", .string op),
      ("params", .array operands)] => do
    return .binary (← Operator.ofSymbol? op) (← Form.ofJsons? operands)
  | .object [("type", .string "VariableDeclarator"), ("name", .string name),
      ("params", .array inits)] => do
    return .declare name (← Form.ofJsons? inits)
  | .object [("type", .string "IfStatement"), ("test", test), ("conseq", conseq),
      ("alt", .array alts)] => do
    return .cond (← Form.ofJson? test) (← Form.ofJson? conseq) (← Form.ofJsons? alts)
  | _ => none

def Form.ofJsons? : List Json → Option (List Form)
  | [] => some []
  | v :: vs => do return (← Form.ofJson? v) :: (← Form.ofJsons? vs)

end

mutual

def Code.ofJson? : Json → Option Code
  | .object [("type", .string "ExpressionStatement"), ("expression", v)] => do
    return .statement (← Code.ofJson? v)
  | .object [("type", .string "CallExpression"),
      ("callee", .object [("type", .string "Identifier"), ("name", .string callee)]),
      ("arguments", .array args)] => do
    return .call callee (← Code.ofJsons? args)
  | .object [("type", .string "BinaryExpression"),
      ("operation", .object [("type", .string "Operator"), ("value", .string op)]),
      ("arguments", .array operands)] => do
    return .binary op (← Code.ofJsons? operands)
  | .object [("type", .string "VariableDeclarator"),
      ("id", .object [("type", .string "Identifier"), ("name", .string name)]),
      ("init", .array inits)] => do
    return .declare name (← Code.ofJsons? inits)
  | .object [("type", .string "IfStatement"), ("body", .array slots)] => do
    return .cond (← Code.ofJsons? slots)
  | .object [("type", .string "Identifier"), ("name", .string name)] => some (.identifier name)
  | .object [("type", .string "Operator"), ("value", .string text)] => some (.operator text)
  | .object [("type", .string "NumberLiteral"), ("value", .string text)] => some (.number text)
  | .object [("type", .string "StringLiteral"), ("value", .string text)] => some (.string text)
  | _ => none

def Code.ofJsons? : List Json → Option (List Code)
  | [] => some []
  | v :: vs => do return (← Code.ofJson? v) :: (← Code.ofJsons? vs)

end

theorem Form.ofJsons?_map_toJson {fs : List Form} (h : ∀ f ∈ fs, ofJson? f.toJson = some f) :
    ofJsons? (fs.map toJson) = some fs := by
  induction fs with
  | nil => rfl
  | cons f fs ih =>
    obtain ⟨hf, hfs⟩ := List.forall_mem_cons.mp h
    simp [ofJsons?, hf, ih hfs]

@[simp] theorem Form.ofJson?_toJson (f : Form) : ofJson? f.toJson = some f := by
  induction f using Form.induct with
  | number text => rfl
  | symbol text => rfl
  | call callee args ih =>
    change (ofJsons? (toJsons args)).bind (fun args => some (Form.call callee args)) = _
    rw [toJsons_eq_map, ofJsons?_map_toJson ih, Option.bind_some]
  | binary op operands ih =>
    change (Operator.ofSymbol? op.symbol).bind (fun op =>
      (ofJsons? (toJsons operands)).bind fun operands => some (Form.binary op operands)) = _
    rw [Operator.ofSymbol?_symbol, toJsons_eq_map, ofJsons?_map_toJson ih, Option.bind_some,
      Option.bind_some]
  | declare name inits ih =>
    change (ofJsons? (toJsons inits)).bind (fun inits => some (Form.declare name inits)) = _
    rw [toJsons_eq_map, ofJsons?_map_toJson ih, Option.bind_some]
  | cond test conseq alts htest hconseq ih =>
    change (ofJson? test.toJson).bind (fun test => (ofJson? conseq.toJson).bind fun conseq =>
      (ofJsons? (toJsons alts)).bind fun alts => some (Form.cond test conseq alts)) = _
    rw [htest, hconseq, toJsons_eq_map, ofJsons?_map_toJson ih, Option.bind_some, Option.bind_some,
      Option.bind_some]

theorem Code.ofJsons?_map_toJson {cs : List Code} (h : ∀ c ∈ cs, ofJson? c.toJson = some c) :
    ofJsons? (cs.map toJson) = some cs := by
  induction cs with
  | nil => rfl
  | cons c cs ih =>
    obtain ⟨hc, hcs⟩ := List.forall_mem_cons.mp h
    simp [ofJsons?, hc, ih hcs]

@[simp] theorem Code.ofJson?_toJson (c : Code) : ofJson? c.toJson = some c := by
  induction c using Code.induct with
  | statement c ih =>
    change (ofJson? c.toJson).bind (fun c => some (Code.statement c)) = _
    rw [ih, Option.bind_some]
  | call callee args ih =>
    change (ofJsons? (toJsons args)).bind (fun args => some (Code.call callee args)) = _
    rw [toJsons_eq_map, ofJsons?_map_toJson ih, Option.bind_some]
  | binary op operands ih =>
    change (ofJsons? (toJsons operands)).bind (fun operands => some (Code.binary op operands)) = _
    rw [toJsons_eq_map, ofJsons?_map_toJson ih, Option.bind_some]
  | declare name inits ih =>
    change (ofJsons? (toJsons inits)).bind (fun inits => some (Code.declare name inits)) = _
    rw [toJsons_eq_map, ofJsons?_map_toJson ih, Option.bind_some]
  | cond slots ih =>
    change (ofJsons? (toJsons slots)).bind (fun slots => some (Code.cond slots)) = _
    rw [toJsons_eq_map, ofJsons?_map_toJson ih, Option.bind_some]
  | identifier name => rfl
  | operator text => rfl
  | number text => rfl
  | string text => rfl

namespace Json

def toForms? : Json → Option (List Form)
  | .object [("type", .string "Program"), ("body", .array vs)] => Form.ofJsons? vs
  | _ => none

def toCode? : Json → Option (List Code)
  | .object [("type", .string "Program"), ("body", .array vs)] => Code.ofJsons? vs
  | _ => none

def toLexemes? : Json → Option (List Lexeme)
  | .array vs => vs.mapM Lexeme.ofJson?
  | _ => none

@[simp] theorem toForms?_ofForms (program : List Form) :
    toForms? (ofForms program) = some program := by
  rw [ofForms, Form.toJsons_eq_map]
  exact Form.ofJsons?_map_toJson fun f _ => f.ofJson?_toJson

@[simp] theorem toCode?_ofCode (program : List Code) : toCode? (ofCode program) = some program := by
  rw [ofCode, Code.toJsons_eq_map]
  exact Code.ofJsons?_map_toJson fun c _ => c.ofJson?_toJson

@[simp] theorem toLexemes?_ofTokens (tokens : List Token) :
    toLexemes? (ofTokens tokens) = some (tokens.map Token.toLexeme) := by
  change (tokens.map fun t => t.toLexeme.toJson).mapM Lexeme.ofJson? = _
  induction tokens with
  | nil => rfl
  | cons t ts ih => simp [List.mapM_cons, ih]

theorem ofForms_injective : Function.Injective ofForms := by
  intro p q h
  simpa using congrArg toForms? h

theorem ofCode_injective : Function.Injective ofCode := by
  intro p q h
  simpa using congrArg toCode? h

theorem pretty_injective : Function.Injective pretty := by
  intro v w h
  simpa [read?_pretty] using congrArg read? h

end Json

theorem pretty_lossless :
    (∀ program : List Form,
      (Json.read? (Json.ofForms program).pretty).bind Json.toForms? = some program) ∧
      (∀ program : List Code,
        (Json.read? (Json.ofCode program).pretty).bind Json.toCode? = some program) ∧
      (∀ tokens : List Token,
        (Json.read? (Json.ofTokens tokens).pretty).bind Json.toLexemes? =
          some (tokens.map Token.toLexeme)) ∧
      (∀ p q : List Form, (Json.ofForms p).pretty = (Json.ofForms q).pretty ↔ p = q) ∧
      (∀ p q : List Code, (Json.ofCode p).pretty = (Json.ofCode q).pretty ↔ p = q) ∧
      ∀ ts us : List Token, (Json.ofTokens ts).pretty = (Json.ofTokens us).pretty ↔
        ts.map Token.toLexeme = us.map Token.toLexeme := by
  refine ⟨?_, ?_, ?_, ?_, ?_, ?_⟩
  · intro program
    rw [Json.read?_pretty, Option.bind_some, Json.toForms?_ofForms]
  · intro program
    rw [Json.read?_pretty, Option.bind_some, Json.toCode?_ofCode]
  · intro tokens
    rw [Json.read?_pretty, Option.bind_some, Json.toLexemes?_ofTokens]
  · intro p q
    rw [Json.pretty_injective.eq_iff, Json.ofForms_injective.eq_iff]
  · intro p q
    rw [Json.pretty_injective.eq_iff, Json.ofCode_injective.eq_iff]
  · intro ts us
    rw [Json.pretty_injective.eq_iff, ofTokens_eq_iff]

end Lisplet
