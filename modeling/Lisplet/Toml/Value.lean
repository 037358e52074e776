import Lisplet.Toml.Instant

namespace Lisplet.Toml

/-- A float keeps the characters that wrote it. Of two entries of a table with the same key the
first one counts. -/
inductive Value
  | string (text : String)
  | integer (value : Int)
  | float (literal : String)
  | boolean (value : Bool)
  | instant (value : Instant)
  | array (items : List Value)
  | table (entries : List (String × Value))

abbrev Table := List (String × Value)

def Value.isTable : Value → Bool
  | table _ => true
  | _ => false

theorem Value.isTable_eq_true_iff {v : Value} : v.isTable = true ↔ ∃ t, v = .table t := by
  cases v <;> simp [isTable]

namespace Table

def get? (t : Table) (key : String) : Option Value := t.lookup key

def at? (t : Table) : List String → Option Value
  | [] => some (.table t)
  | [key] => t.get? key
  | key :: path =>
    match t.get? key with
    | some (.table inner) => at? inner path
    | _ => none

end Table

/-- A table that begins with this key stands for an instant. -/
def instantKey : String := "$__toml_private_datetime"

mutual

def Value.settle? : Value → Option Value
  | .array items => (Value.settleAll? items).map .array
  | .table [] => some (.table [])
  | .table ((key, v) :: rest) =>
    if key = instantKey then
      match v with
      | .string text => (Instant.read text.toList).map .instant
      | _ => none
    else do return .table ((key, ← v.settle?) :: (← Table.settle? rest))
  | v => some v

def Value.settleAll? : List Value → Option (List Value)
  | [] => some []
  | v :: vs => do return (← v.settle?) :: (← Value.settleAll? vs)

def Table.settle? : List (String × Value) → Option (List (String × Value))
  | [] => some []
  | (key, v) :: rest => do return (key, ← v.settle?) :: (← Table.settle? rest)

end

end Lisplet.Toml
