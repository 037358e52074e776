import Lisplet.Toml.Quoted
import Lisplet.Toml.Scalar

/-!
Statements: a document is headers and assignments, one a line. An inline table is a list of
assignments too, so a value is read together with the function that makes a table of them.
-/

namespace Lisplet.Toml

abbrev Reader := StateT (List Char) Option

namespace Reader

def peek? : Reader (Option Char) := do return (← get).head?

def accept (c : Char) : Reader Bool := do
  let cs ← get
  if cs.head? = some c then
    set cs.tail
    return true
  else return false

def expect (c : Char) : Reader Unit := do
  guard (← accept c)

def takeWhile (p : Char → Bool) : Reader (List Char) := do
  let cs ← get
  set (cs.dropWhile p)
  return cs.takeWhile p

end Reader

open Reader

inductive Statement
  | header (path : List String)
  | item (path : List String)
  | assign (path : List String) (value : Value)

def nestingLimit : Nat := 79

def isSpace (c : Char) : Bool := c == ' ' || c == '\t'

def isBareKeyChar (c : Char) : Bool := c.isAlphanum || c == '_' || c == '-'

def isScalarChar (c : Char) : Bool := c ∉ [' ', '\t', '\n', '#', ',', ']', '\x7d']

def isCommentChar (c : Char) : Bool := Quoted.isText c

def spaces : Reader Unit := do
  let _ ← takeWhile isSpace

def lineEnd : Reader Unit := do
  spaces
  if ← accept '#' then
    let _ ← takeWhile isCommentChar
  unless (← get).isEmpty do expect '\n'

def skipLines : (inComment : Bool) → List Char → List Char
  | _, [] => []
  | _, '\n' :: cs => skipLines false cs
  | true, c :: cs => if isCommentChar c then skipLines true cs else c :: cs
  | false, '#' :: cs => skipLines true cs
  | false, c :: cs => if isSpace c then skipLines false cs else c :: cs

def lines : Reader Unit := modify (skipLines false)

def quoted (read : List Char → Quoted.Result) : Reader String := do
  let (text, rest) ← read (← get)
  set rest
  return String.ofList text

def keyPart : Reader String := do
  match ← peek? with
  | some '"' | some '\'' => quoted Quoted.readLine
  | _ =>
    let bare ← takeWhile isBareKeyChar
    guard !bare.isEmpty
    return String.ofList bare

def key : Nat → Reader (List String)
  | 0 => failure
  | parts + 1 => do
    spaces
    let first ← keyPart
    spaces
    if ← accept '.' then return first :: (← key parts) else return [first]

/-- A run of scalar characters. A date takes in the time of day that stands one blank after it. -/
def scalar : Reader Value := do
  let run ← takeWhile isScalarChar
  let rest ← get
  match Date.read run, rest with
  | some (_, []), ' ' :: c :: _ =>
    if c.isDigit then
      let _ ← accept ' '
      readScalar (run ++ ' ' :: (← takeWhile isScalarChar))
    else readScalar run
  | _, _ => readScalar run

def simple : Reader Value := do
  match ← peek? with
  | some '"' | some '\'' => return .string (← quoted Quoted.read)
  | _ => scalar

def items (item : Reader Value) : (fuel : Nat) → Reader (List Value)
  | 0 => failure
  | fuel + 1 => do
    lines
    if ← accept ']' then return []
    let v ← item
    lines
    if ← accept ',' then return v :: (← items item fuel)
    expect ']'
    return [v]

def assignment (item : Reader Value) : Reader (List String × Value) := do
  let path ← key nestingLimit
  expect '='
  spaces
  return (path, ← item)

def entries (item : Reader Value) : (fuel : Nat) → Reader (List (List String × Value))
  | 0 => failure
  | fuel + 1 => do
    let e ← assignment item
    spaces
    if ← accept ',' then return e :: (← entries item fuel)
    expect '\x7d'
    return [e]

def value (build : List (List String × Value) → Option Table) : Nat → Reader Value
  | 0 => simple
  | depth + 1 => do
    if ← accept '[' then
      return .array (← items (value build depth) ((← get).length + 1))
    else if ← accept '\x7b' then
      spaces
      if ← accept '\x7d' then return .table []
      return .table (← build (← entries (value build depth) ((← get).length + 1)))
    else simple

def statement (build : List (List String × Value) → Option Table) : Reader Statement := do
  let s ← if ← accept '[' then
      if ← accept '[' then
        let path ← key nestingLimit
        expect ']'
        expect ']'
        pure (.item path)
      else
        let path ← key nestingLimit
        expect ']'
        pure (.header path)
    else
      let (path, v) ← assignment (value build nestingLimit)
      pure (.assign path v)
  lineEnd
  return s

def statements (build : List (List String × Value) → Option Table) :
    (fuel : Nat) → Reader (List Statement)
  | 0 => failure
  | fuel + 1 => do
    lines
    if (← get).isEmpty then return []
    return (← statement build) :: (← statements build fuel)

end Lisplet.Toml
