import Lisplet.Toml.Value

namespace Lisplet.Toml

open Text (isDigitOf ofDigits)

def grouped (isDigit : Char → Bool) : List Char → Option (List Char)
  | [] => none
  | [c] => if isDigit c then some [c] else none
  | c :: '_' :: cs => if isDigit c then (grouped isDigit cs).map (c :: ·) else none
  | c :: d :: cs => if isDigit c then (grouped isDigit (d :: cs)).map (c :: ·) else none

def splitSign : List Char → Bool × List Char
  | '+' :: cs => (false, cs)
  | '-' :: cs => (true, cs)
  | cs => (false, cs)

def decimalDigits (cs : List Char) : Option (List Char) := do
  let digits ← grouped Char.isDigit cs
  guard (digits.length = 1 ∨ digits.head? ≠ some '0')
  return digits

def bounded (n : Int) : Option Int :=
  if -9223372036854775808 ≤ n ∧ n ≤ 9223372036854775807 then some n else none

def readInteger : List Char → Option Int
  | '0' :: 'x' :: cs => (grouped (isDigitOf 16) cs).bind fun ds => bounded (ofDigits 16 ds)
  | '0' :: 'o' :: cs => (grouped (isDigitOf 8) cs).bind fun ds => bounded (ofDigits 8 ds)
  | '0' :: 'b' :: cs => (grouped (isDigitOf 2) cs).bind fun ds => bounded (ofDigits 2 ds)
  | cs =>
    let (negative, digits) := splitSign cs
    (decimalDigits digits).bind fun ds =>
      bounded (if negative then -(ofDigits 10 ds : Int) else ofDigits 10 ds)

def overflows (m : Nat) (e : Int) : Bool :=
  let length := (Nat.repr m).length + e
  m != 0 && (310 < length ||
    300 < length &&
      (Nat.pow 2 54 - 1) * Nat.pow 2 970 * Nat.pow 10 (-e).toNat ≤ m * Nat.pow 10 e.toNat)

def readFractionExponent (cs : List Char) : Option (List Char × Int) :=
  match cs with
  | '.' :: cs => do
    let fraction ← grouped Char.isDigit (cs.takeWhile fun c => c ∉ ['e', 'E'])
    match cs.dropWhile fun c => c ∉ ['e', 'E'] with
    | [] => return (fraction, 0)
    | _ :: exponent => return (fraction, ← readExponent exponent)
  | c :: cs => if c ∈ ['e', 'E'] then (readExponent cs).map ([], ·) else none
  | [] => none
where
  readExponent (cs : List Char) : Option Int :=
    let (negative, digits) := splitSign cs
    (grouped Char.isDigit digits).map fun ds =>
      if negative then -(ofDigits 10 ds : Int) else ofDigits 10 ds

/-- Whether a run writes a float. One that is too large upwards is none; one that is too large
downwards is. -/
def isFloat (cs : List Char) : Bool :=
  let (negative, rest) := splitSign cs
  rest ∈ [['i', 'n', 'f'], ['n', 'a', 'n']] ||
    match decimalDigits (rest.takeWhile fun c => c ∉ ['.', 'e', 'E']),
        readFractionExponent (rest.dropWhile fun c => c ∉ ['.', 'e', 'E']) with
    | some whole, some (fraction, exponent) =>
      negative || !overflows (ofDigits 10 (whole ++ fraction)) (exponent - fraction.length)
    | _, _ => false

def readScalar (cs : List Char) : Option Value :=
  if cs = "true".toList then some (.boolean true)
  else if cs = "false".toList then some (.boolean false)
  else match Instant.read cs with
    | some i => some (.instant i)
    | none =>
      match readInteger cs with
      | some n => some (.integer n)
      | none => if isFloat cs then some (.float (String.ofList cs)) else none

end Lisplet.Toml
