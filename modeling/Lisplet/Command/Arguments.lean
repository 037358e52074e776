import Lisplet.Compile
import Lisplet.Text

namespace Lisplet.Command

inductive Flag
  | expression | debug | emit | maxDepth | config | version
  | help (full : Bool)
  deriving DecidableEq

namespace Flag

def takesValue : Flag → Bool
  | debug | version | help _ => false
  | _ => true

def ofLong? : String → Option Flag
  | "expr" => some expression
  | "debug" => some debug
  | "emit" => some emit
  | "max-depth" => some maxDepth
  | "config" => some config
  | "version" => some version
  | "help" => some (help true)
  | _ => none

def ofShort? : Char → Option Flag
  | 'e' => some expression
  | 'V' => some version
  | 'h' => some (help false)
  | _ => none

end Flag

inductive Word
  | flag (flag : Flag) (value : Option String)
  | unknown
  | operand
  | separator

namespace Word

/-- A value may be attached by an equals sign, or with nothing in between to a flag of one letter.
-/
def ofArgument (arg : String) : Word :=
  match arg.toList with
  | ['-'] => operand
  | ['-', '-'] => separator
  | '-' :: '-' :: cs =>
    match Flag.ofLong? (String.ofList (cs.takeWhile (· ≠ '='))), cs.dropWhile (· ≠ '=') with
    | some f, [] => flag f none
    | some f, _ :: value => flag f (some (String.ofList value))
    | none, _ => unknown
  | '-' :: c :: cs =>
    match Flag.ofShort? c with
    | some f =>
      if f.takesValue then
        match cs with
        | [] => flag f none
        | '=' :: value => flag f (some (String.ofList value))
        | value => flag f (some (String.ofList value))
      else flag f none
    | none => unknown
  | _ => operand

def isOperand : Word → Bool
  | operand => true
  | _ => false

end Word

inductive UsageError
  | unknownFlag (argument : String)
  | missingValue (flag : Flag)
  | unexpectedValue (argument : String)
  | repeated (flag : Flag)
  | badValue (flag : Flag) (value : String)
  | emptyFile
  | secondFile (path : String)
  | expressionAndFile
  deriving DecidableEq

inductive Origin
  | expression (text : String)
  | file (path : String)
  | input
  deriving DecidableEq

structure Invocation where
  origin : Origin
  debug : Bool
  stage : Stage
  maxDepth : Option Nat
  config : Option String
  deriving DecidableEq

inductive Request
  | version
  | help (full : Bool)
  | compile (invocation : Invocation)
  deriving DecidableEq

structure Arguments where
  expression : Option String := none
  file : Option String := none
  debug : Bool := false
  stage : Option Stage := none
  maxDepth : Option Nat := none
  config : Option String := none

def readDepth? (text : String) : Option Nat :=
  let digits := match text.toList with
    | '+' :: cs => cs
    | cs => cs
  if digits.isEmpty then none
  else (Text.readDigits? 10 digits).filter (· ≤ 18446744073709551615)

namespace Arguments

def fill {α : Type} (flag : Flag) (value : String) (read : String → Option α) :
    Option α → Except UsageError (Option α)
  | some _ => .error (.repeated flag)
  | none =>
    match read value with
    | some v => .ok (some v)
    | none => .error (.badValue flag value)

def nonempty? (text : String) : Option String := if text = "" then none else some text

def set (a : Arguments) (flag : Flag) (value : String) : Except UsageError Arguments := do
  match flag with
  | .expression => return { a with expression := ← fill flag value some a.expression }
  | .emit => return { a with stage := ← fill flag value Stage.ofName? a.stage }
  | .maxDepth => return { a with maxDepth := ← fill flag value readDepth? a.maxDepth }
  | .config => return { a with config := ← fill flag value nonempty? a.config }
  | .debug | .version | .help _ => throw (.badValue flag value)

def addFile (a : Arguments) (path : String) : Except UsageError Arguments :=
  if a.file.isSome then .error (.secondFile path)
  else if path = "" then .error .emptyFile
  else .ok { a with file := some path }

def finish (a : Arguments) : Except UsageError Request :=
  let done (origin : Origin) : Request :=
    .compile { origin, debug := a.debug, stage := a.stage.getD .c, maxDepth := a.maxDepth,
               config := a.config }
  match a.expression, a.file with
  | some _, some _ => .error .expressionAndFile
  | some text, none => .ok (done (.expression text))
  | none, some path => .ok (done (.file path))
  | none, none => .ok (done .input)

def readOperands (a : Arguments) : List String → Except UsageError Request
  | [] => a.finish
  | path :: rest => do (← a.addFile path).readOperands rest

def read (a : Arguments) : List String → Except UsageError Request
  | [] => a.finish
  | arg :: rest =>
    match Word.ofArgument arg with
    | .separator => a.readOperands rest
    | .operand => do (← a.addFile arg).read rest
    | .unknown => .error (.unknownFlag arg)
    | .flag .version none => .ok .version
    | .flag (.help full) none => .ok (.help full)
    | .flag .debug none =>
      if a.debug then .error (.repeated .debug) else { a with debug := true }.read rest
    | .flag .version (some _) | .flag (.help _) (some _) | .flag .debug (some _) =>
      .error (.unexpectedValue arg)
    | .flag f (some value) => do (← a.set f value).read rest
    | .flag f none =>
      match rest with
      | [] => .error (.missingValue f)
      | value :: rest =>
        if (Word.ofArgument value).isOperand then do (← a.set f value).read rest
        else .error (.missingValue f)

end Arguments

def Request.ofArguments (args : List String) : Except UsageError Request :=
  ({} : Arguments).read args

end Lisplet.Command
