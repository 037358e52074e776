import Lisplet.Form.Parse
import Lisplet.Toml.Document
import Lisplet.Toml.Merge

/-!
Settings: three values that files may give, each with a default. A file stands alone, or it is one
layer of several, and the two ways differ in what they make of instants and of surplus items.
-/

namespace Lisplet

open Toml (Table Value)

structure Settings where
  debug : Bool := false
  maxDepth : Nat := defaultMaxDepth
  filter : String := "warn"
  deriving DecidableEq

namespace Settings

inductive Route
  | document | layer
  deriving DecidableEq

/-- What can be read as a section of `size` settings: a table, or an array that gives the settings
by position. An instant is an empty section of a document, and a layer may not have surplus items.
-/
def Route.isSection (route : Route) (size : Nat) : Value → Bool
  | .table _ => true
  | .array items => route = .document || items.length ≤ size
  | .instant _ => route = .document
  | _ => false

def member? (key : String) (position : Nat) : Value → Option Value
  | .table entries => Table.get? entries key
  | .array items => items[position]?
  | _ => none

def readBoolean : Value → Option Bool
  | .boolean b => some b
  | _ => none

def readNatural : Value → Option Nat
  | .integer n => if 0 ≤ n then some n.toNat else none
  | _ => none

def Route.readText (route : Route) : Value → Option String
  | .string text => some text
  | .instant i => if route = .layer then some i.text else none
  | _ => none

def ifGiven {α : Type} (default : α) (read : Value → Option α) : Option Value → Option α
  | none => some default
  | some v => read v

def read (route : Route) (t : Table) : Option Settings := do
  let compile := (t.get? "compile").getD (.table [])
  let log := (t.get? "log").getD (.table [])
  guard (route.isSection 2 compile && route.isSection 1 log)
  return {
    debug := ← ifGiven false readBoolean (member? "debug" 0 compile)
    maxDepth := ← ifGiven defaultMaxDepth readNatural (member? "max_depth" 1 compile)
    filter := ← ifGiven "warn" route.readText (member? "filter" 0 log) }

def ofDocument? (source : String) : Option Settings := (Toml.parse source).bind (read .document)

def layer? (source : String) : Option Table := do
  let t ← (Toml.parse source).bind Table.settle?
  guard (read .layer t).isSome
  return t

def mergeLayers (layers : List (Option String)) : Table :=
  (layers.filterMap (·.bind layer?)).foldl Table.merge []

def ofLayers (layers : List (Option String)) : Settings :=
  (read .layer (mergeLayers layers)).getD {}

@[simp] theorem read_nil (route : Route) : read route [] = some {} := by cases route <;> rfl

theorem mergeLayers_append (above below : List (Option String)) :
    mergeLayers (below ++ above) =
      (above.filterMap (·.bind layer?)).foldl Table.merge (mergeLayers below) := by
  simp [mergeLayers]

end Settings

end Lisplet
