import Lisplet.Text

namespace Lisplet.Toml

structure Date where
  year : Nat
  month : Nat
  day : Nat
  deriving DecidableEq

structure Time where
  hour : Nat
  minute : Nat
  second : Nat
  nanosecond : Nat
  deriving DecidableEq

inductive Offset
  | universal
  | minutes (m : Int)
  deriving DecidableEq

inductive Instant
  | date (d : Date)
  | time (t : Time)
  | dateTime (d : Date) (t : Time) (offset : Option Offset)
  deriving DecidableEq

def padded (width n : Nat) : String :=
  let digits := Nat.repr n
  String.ofList (List.replicate (width - digits.length) '0') ++ digits

def isLeap (year : Nat) : Bool := year % 4 == 0 && (year % 100 != 0 || year % 400 == 0)

def daysIn (year month : Nat) : Nat :=
  if month = 2 then if isLeap year then 29 else 28
  else if month ∈ [4, 6, 9, 11] then 30
  else 31

def Date.text (d : Date) : String :=
  padded 4 d.year ++ "-" ++ padded 2 d.month ++ "-" ++ padded 2 d.day

def Time.text (t : Time) : String :=
  let fraction := ((padded 9 t.nanosecond).toList.reverse.dropWhile (· == '0')).reverse
  padded 2 t.hour ++ ":" ++ padded 2 t.minute ++ ":" ++ padded 2 t.second ++
    if fraction.isEmpty then "" else "." ++ String.ofList fraction

def Offset.text : Offset → String
  | universal => "Z"
  | minutes m =>
    (if m < 0 then "-" else "+") ++ padded 2 (m.natAbs / 60) ++ ":" ++ padded 2 (m.natAbs % 60)

def Instant.text : Instant → String
  | date d => d.text
  | time t => t.text
  | dateTime d t offset => d.text ++ "T" ++ t.text ++ (offset.map Offset.text).getD ""

def within? (low high : Nat) (cs : List Char) : Option Nat :=
  (Text.readDigits? 10 cs).filter fun n => low ≤ n && n ≤ high

def Date.read : List Char → Option (Date × List Char)
  | y₁ :: y₂ :: y₃ :: y₄ :: '-' :: m₁ :: m₂ :: '-' :: d₁ :: d₂ :: rest => do
    let year ← Text.readDigits? 10 [y₁, y₂, y₃, y₄]
    let month ← within? 1 12 [m₁, m₂]
    let day ← within? 1 (daysIn year month) [d₁, d₂]
    return (⟨year, month, day⟩, rest)
  | _ => none

def nanoseconds (digits : List Char) : Nat :=
  Text.ofDigits 10 ((digits ++ List.replicate 9 '0').take 9)

def Time.read : List Char → Option (Time × List Char)
  | h₁ :: h₂ :: ':' :: m₁ :: m₂ :: ':' :: s₁ :: s₂ :: rest => do
    let hour ← within? 0 23 [h₁, h₂]
    let minute ← within? 0 59 [m₁, m₂]
    let second ← within? 0 60 [s₁, s₂]
    match rest with
    | '.' :: c :: rest =>
      if c.isDigit then
        let digits := c :: rest.takeWhile Char.isDigit
        return (⟨hour, minute, second, nanoseconds digits⟩, rest.dropWhile Char.isDigit)
      else none
    | '.' :: [] => none
    | rest => return (⟨hour, minute, second, 0⟩, rest)
  | _ => none

def Offset.readMinutes : List Char → Option Nat
  | [h₁, h₂, ':', m₁, m₂] => do
    return 60 * (← within? 0 23 [h₁, h₂]) + (← within? 0 59 [m₁, m₂])
  | _ => none

def Offset.read : List Char → Option (Option Offset)
  | [] => some none
  | ['Z'] | ['z'] => some (some universal)
  | '+' :: cs => (readMinutes cs).map fun n => some (minutes n)
  | '-' :: cs => (readMinutes cs).map fun n => some (minutes (-n))
  | _ => none

def Instant.read (cs : List Char) : Option Instant :=
  match Date.read cs with
  | some (d, []) => some (date d)
  | some (d, c :: rest) => do
    guard (c ∈ ['T', 't', ' '])
    let (t, rest) ← Time.read rest
    return dateTime d t (← Offset.read rest)
  | none =>
    match Time.read cs with
    | some (t, []) => some (time t)
    | _ => none

end Lisplet.Toml
