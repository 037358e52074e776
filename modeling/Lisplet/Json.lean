namespace Lisplet

inductive Json
  | string (text : String)
  | array (items : List Json)
  | object (fields : List (String × Json))

namespace Json

def hexDigit (n : Nat) : Char := Nat.digitChar (n % 16)

def escape (c : Char) : List Char :=
  if c = '"' then ['\\', '"']
  else if c = '\\' then ['\\', '\\']
  else if c = '\n' then ['\\', 'n']
  else if c = '\r' then ['\\', 'r']
  else if c = '\t' then ['\\', 't']
  else if c = '\x08' then ['\\', 'b']
  else if c = '\x0c' then ['\\', 'f']
  else if c.toNat < 0x20 then ['\\', 'u', '0', '0', hexDigit (c.toNat / 16), hexDigit c.toNat]
  else [c]

def quote (text : String) : String :=
  String.ofList ('"' :: text.toList.flatMap escape ++ ['"'])

def newline (depth : Nat) : String := "\n" ++ String.ofList (List.replicate (2 * depth) ' ')

mutual

def renderAt (depth : Nat) : Json → String
  | string text => quote text
  | array [] => "[]"
  | array (v :: vs) =>
    "[" ++ ",".intercalate (renderItems (depth + 1) (v :: vs)) ++ newline depth ++ "]"
  | object [] => "\x7b\x7d"
  | object (f :: fs) =>
    "\x7b" ++ ",".intercalate (renderFields (depth + 1) (f :: fs)) ++ newline depth ++ "\x7d"

def renderItems (depth : Nat) : List Json → List String
  | [] => []
  | v :: vs => (newline depth ++ v.renderAt depth) :: renderItems depth vs

def renderFields (depth : Nat) : List (String × Json) → List String
  | [] => []
  | (key, v) :: fs =>
    (newline depth ++ quote key ++ ": " ++ v.renderAt depth) :: renderFields depth fs

end

def pretty (v : Json) : String := v.renderAt 0

theorem pretty_ne_empty (v : Json) : v.pretty ≠ "" := by
  rw [pretty]
  cases v with
  | string text => simp [renderAt, quote]
  | array items => cases items <;> simp [renderAt]
  | object fields => cases fields <;> simp [renderAt]

def node (kind : String) (fields : List (String × Json)) : Json :=
  object (("type", string kind) :: fields)

end Json

end Lisplet
