import Lisplet.Code.Render
import Lisplet.Form.Parse
import Lisplet.Json.Encode
import Lisplet.Lowering
import Lisplet.Token.Scan

namespace Lisplet

inductive CompileError
  | scan (error : ScanError)
  | parse (error : ParseError)
  | render (error : RenderError)
  deriving DecidableEq

namespace CompileError

def detail : CompileError → String
  | scan e => e.message
  | parse e => e.message
  | render e => e.message

def message : CompileError → String
  | scan e => "lex error: " ++ e.message
  | parse e => "parse error: " ++ e.message
  | render e => "codegen error: " ++ e.message

def position? : CompileError → Option Nat
  | scan e => some e.position
  | parse e => e.position?
  | render _ => none

end CompileError

structure Options where
  debug : Bool := false
  maxDepth : Nat := defaultMaxDepth
  deriving DecidableEq

structure Stages where
  tokens : List Token
  forms : List Form
  code : List Code
  output : String

inductive Stage
  | tokens | ast | target | c
  deriving DecidableEq

namespace Stage

def name : Stage → String
  | tokens => "tokens"
  | ast => "ast"
  | target => "target"
  | c => "c"

def all : List Stage := [tokens, ast, target, c]

def ofName? (name : String) : Option Stage := all.find? (·.name == name)

end Stage

def Stages.show (s : Stages) : Stage → String
  | .tokens => (Json.ofTokens s.tokens).pretty
  | .ast => (Json.ofForms s.forms).pretty
  | .target => (Json.ofCode s.code).pretty
  | .c => s.output

inductive Level
  | debug | info | warn
  deriving DecidableEq

def Level.name : Level → String
  | debug => "DEBUG"
  | info => "INFO"
  | warn => "WARN"

inductive Record
  | started (bytes : Nat)
  | scanned (tokens : Nat)
  | parsed (forms : Nat)
  | noticed (notice : Notice)
  | rendered (bytes : Nat)
  | dumped (stage : Stage) (json : String)
  deriving DecidableEq

inductive Field
  | count (n : Nat)
  | text (s : String)
  deriving DecidableEq

def Field.show : Field → String
  | count n => Nat.repr n
  | text s => s

namespace Record

def isSpan : Record → Bool
  | started _ => true
  | _ => false

def level : Record → Level
  | started _ | scanned _ | parsed _ | rendered _ => .debug
  | noticed _ => .warn
  | dumped _ _ => .info

def target : Record → String
  | started _ | scanned _ | parsed _ | rendered _ => "lispc::pipeline"
  | noticed _ => "lispc::transform"
  | dumped _ _ => "lispc::debug"

def fields : Record → List (String × Field)
  | started n => [("bytes", .count n)]
  | scanned n => [("message", .text "scanned"), ("count", .count n)]
  | parsed n => [("message", .text "parsed"), ("forms", .count n)]
  | noticed (.initializers name n) =>
    [("message", .text "declaration has more than one initializer, ignoring the rest"),
     ("name", .text name), ("dropped", .count n)]
  | noticed (.alternatives n) =>
    [("message", .text "conditional has more than one alternative, ignoring the rest"),
     ("dropped", .count n)]
  | rendered n => [("message", .text "emitted"), ("bytes", .count n)]
  | dumped stage json => [("stage", .text stage.name), ("message", .text ("\n" ++ json))]

def line (r : Record) : String :=
  let (message, others) := r.fields.partition fun field => field.1 = "message"
  r.level.name ++ " " ++ r.target ++ ":" ++
    String.join (message.map fun field => " " ++ field.2.show) ++
    String.join (others.map fun field => " " ++ field.1 ++ "=" ++ field.2.show)

end Record

namespace Options

def dump (o : Options) (stage : Stage) (json : Json) : List Record :=
  if o.debug then [.dumped stage json.pretty] else []

end Options

def compileLogged (source : String) (o : Options) : List Record × Except CompileError Stages :=
  let started := [Record.started source.utf8ByteSize]
  match scan source with
  | .error e => (started, .error (.scan e))
  | .ok tokens =>
    let scanned := started ++ .scanned tokens.length :: o.dump .tokens (.ofTokens tokens)
    match parse tokens o.maxDepth with
    | .error e => (scanned, .error (.parse e))
    | .ok forms =>
      let code := lower forms
      let lowered := scanned ++ .parsed forms.length :: o.dump .ast (.ofForms forms) ++
        (notices forms).map .noticed ++ o.dump .target (.ofCode code)
      match render code with
      | .error e => (lowered, .error (.render e))
      | .ok output =>
        (lowered ++ [.rendered output.utf8ByteSize], .ok { tokens, forms, code, output })

def compileStages (source : String) (o : Options) : Except CompileError Stages :=
  (compileLogged source o).2

def compile (source : String) (o : Options) : Except CompileError String :=
  (compileStages source o).map Stages.output

def compileLog (source : String) (o : Options) : List Record :=
  (compileLogged source o).1

end Lisplet
