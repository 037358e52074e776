import Lisplet.Command.Arguments
import Lisplet.Settings.Load

namespace Lisplet.Command

inductive Failure
  | settings (error : SettingsError)
  | reading (path : String) (fault : ReadFault)
  | readingInput (fault : ReadFault)
  | compiling (label : String) (error : CompileError)
  deriving DecidableEq

def Failure.report : Failure → String
  | settings e => e.report
  | reading path fault => "reading " ++ path ++ ": " ++ fault.message
  | readingInput fault => "reading stdin: " ++ fault.message
  | compiling label e => "compiling " ++ label ++ ": " ++ e.message ++ ": " ++ e.detail

def Origin.label : Origin → String
  | expression _ => "<expr>"
  | file path => path
  | input => "<stdin>"

def Origin.read (s : Surroundings) : Origin → Except Failure String
  | expression text => .ok text
  | file path =>
    match s.read path with
    | .ok text => .ok text
    | .error fault => .error (.reading path fault)
  | input =>
    match s.input with
    | .ok text => .ok text
    | .error fault => .error (.readingInput fault)

namespace Invocation

def settings (i : Invocation) (s : Surroundings) : Except Failure Settings :=
  match i.config with
  | none => .ok (Settings.load s s.directory)
  | some path =>
    match Settings.loadFrom s path with
    | .ok settings => .ok settings
    | .error e => .error (.settings e)

def options (i : Invocation) (settings : Settings) : Options where
  debug := i.debug || settings.debug
  maxDepth := i.maxDepth.getD settings.maxDepth

def run (i : Invocation) (s : Surroundings) : Except Failure String :=
  match i.settings s with
  | .error e => .error e
  | .ok settings =>
    match i.origin.read s with
    | .error e => .error e
    | .ok source =>
      match compileStages source (i.options settings) with
      | .ok stages => .ok (stages.show i.stage)
      | .error e => .error (.compiling i.origin.label e)

def log (i : Invocation) (s : Surroundings) : List Record :=
  match i.settings s, i.origin.read s with
  | .ok settings, .ok source =>
    (compileLog source (i.options settings)).filter fun r => r.level ≠ .debug
  | _, _ => []

def paths (i : Invocation) (s : Surroundings) : List String :=
  (match i.config with
    | some path => [path]
    | none => Settings.layerPaths s s.directory) ++
  match i.origin with
    | .file path => [path]
    | _ => []

end Invocation

structure Outcome where
  exit : Nat
  stdout : String := ""
  stderr : String := ""
  deriving DecidableEq

def version : String := "lispc 0.1.0"

def line (text : String) : String := if text = "" then "" else text ++ "\n"

def Request.outcome (s : Surroundings) : Request → Outcome
  | version => { exit := 0, stdout := line Command.version }
  | help full => { exit := 0, stdout := s.help full }
  | compile i =>
    match i.run s with
    | .ok text => { exit := 0, stdout := line text }
    | .error failure => { exit := 1, stderr := "error: " ++ failure.report }

def run (args : List String) (s : Surroundings) : Outcome :=
  match Request.ofArguments args with
  | .ok request => request.outcome s
  | .error _ => { exit := 2 }

end Lisplet.Command
