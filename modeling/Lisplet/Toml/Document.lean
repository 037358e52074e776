import Lisplet.Toml.Statement

/-!
Documents: statements build one table. A table remembers what made it, because that decides whether
a later statement may add to it.
-/

namespace Lisplet.Toml

/-- What made a table: its own header, a longer header that goes through it, or a dotted key. -/
inductive Origin
  | defined | implied | dotted
  deriving DecidableEq

inductive Node
  | value (v : Value)
  | table (origin : Origin) (entries : List (String × Node))
  | array (tables : List (List (String × Node)))

abbrev Nodes := List (String × Node)

namespace Nodes

def put (key : String) (node : Node) : Nodes → Nodes
  | [] => [(key, node)]
  | (k, old) :: rest => if k = key then (k, node) :: rest else (k, old) :: put key node rest

/-- Adds a value at a path of dotted keys. `fits` tells whether the table itself may take a key. -/
def assign (v : Value) (fits : Bool) (nodes : Nodes) : List String → Option Nodes
  | [] => none
  | [key] => if fits ∧ (nodes.lookup key).isNone then some (nodes.put key (.value v)) else none
  | key :: path =>
    match nodes.lookup key with
    | none => do return nodes.put key (.table .dotted (← assign v true [] path))
    | some (.table .defined _) | some (.value _) | some (.array []) => none
    | some (.table .implied inner) => do
      return nodes.put key (.table .implied (← assign v false inner path))
    | some (.table .dotted inner) => do
      return nodes.put key (.table .dotted (← assign v true inner path))
    | some (.array (last :: earlier)) => do
      return nodes.put key (.array ((← assign v false last path) :: earlier))

def modifyAt (f : Nodes → Option Nodes) (nodes : Nodes) : List String → Option Nodes
  | [] => f nodes
  | key :: path =>
    match nodes.lookup key with
    | none => do return nodes.put key (.table .implied (← modifyAt f [] path))
    | some (.value _) | some (.array []) => none
    | some (.table origin inner) => do
      return nodes.put key (.table origin (← modifyAt f inner path))
    | some (.array (last :: earlier)) => do
      return nodes.put key (.array ((← modifyAt f last path) :: earlier))

/-- A header defines a table once, though longer headers may have gone through it before. The table
takes its place where its own header stands, behind the entries that are there. -/
def define (key : String) (nodes : Nodes) : Option Nodes :=
  match nodes.lookup key with
  | none => some (nodes.put key (.table .defined []))
  | some (.table .implied inner) =>
    some (nodes.filter (fun e => e.1 ≠ key) ++ [(key, .table .defined inner)])
  | _ => none

def append (key : String) (nodes : Nodes) : Option Nodes :=
  match nodes.lookup key with
  | none => some (nodes.put key (.array [[]]))
  | some (.array tables) => some (nodes.put key (.array ([] :: tables)))
  | _ => none

end Nodes

mutual

def Node.toValue : Node → Value
  | .value v => v
  | .table _ entries => .table (Nodes.toTable entries)
  | .array tables => .array (Nodes.toTables tables).reverse

def Nodes.toTable : List (String × Node) → List (String × Value)
  | [] => []
  | (key, node) :: rest => (key, node.toValue) :: Nodes.toTable rest

def Nodes.toTables : List (List (String × Node)) → List Value
  | [] => []
  | entries :: rest => .table (Nodes.toTable entries) :: Nodes.toTables rest

end

def inlineTable (entries : List (List String × Value)) : Option Table :=
  (entries.foldlM (fun nodes (path, v) => Nodes.assign v true nodes path) []).map Nodes.toTable

structure Draft where
  nodes : Nodes := []
  path : List String := []

def Draft.add (d : Draft) : Statement → Option Draft
  | .header path => do
    let nodes ← Nodes.modifyAt (Nodes.define (path.getLastD "")) d.nodes path.dropLast
    return { nodes, path }
  | .item path => do
    let nodes ← Nodes.modifyAt (Nodes.append (path.getLastD "")) d.nodes path.dropLast
    return { nodes, path }
  | .assign path v => do
    let nodes ← Nodes.modifyAt (fun table => Nodes.assign v true table path) d.nodes d.path
    return { d with nodes }

def normalise : List Char → Option (List Char)
  | [] => some []
  | '\r' :: '\n' :: cs => (normalise cs).map ('\n' :: ·)
  | c :: cs => if c = '\r' then none else (normalise cs).map (c :: ·)

def dropByteOrderMark : List Char → List Char
  | '\uFEFF' :: cs => cs
  | cs => cs

def parse (source : String) : Option Table := do
  let cs ← normalise (dropByteOrderMark source.toList)
  let (document, _) ← (statements inlineTable (cs.length + 1)).run cs
  let draft ← document.foldlM Draft.add {}
  return Nodes.toTable draft.nodes

end Lisplet.Toml
