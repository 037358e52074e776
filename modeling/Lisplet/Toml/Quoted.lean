import Lisplet.Text

/-! Quoted text: on one line or on several, with escapes or without. Each reader starts after the
opening quotes and gives the text and what follows the closing ones. -/

namespace Lisplet.Toml.Quoted

open Text (scalar? shortEscape?)

def isText (c : Char) : Bool := c == '\t' || (' ' ≤ c && c != '\x7f')

abbrev Result := Option (List Char × List Char)

def Result.cons (c : Char) : Result → Result := Option.map fun (text, rest) => (c :: text, rest)

def Result.consFrom? (c? : Option Char) (result : Result) : Result := c?.bind fun c => result.cons c

def literal : List Char → Result
  | [] => none
  | '\'' :: rest => some ([], rest)
  | c :: cs => if isText c then Result.cons c (literal cs) else none

def basic : List Char → Result
  | [] => none
  | '"' :: rest => some ([], rest)
  | '\\' :: 'u' :: a :: b :: c :: d :: cs => Result.consFrom? (scalar? [a, b, c, d]) (basic cs)
  | '\\' :: 'U' :: a :: b :: c :: d :: e :: f :: g :: h :: cs =>
    Result.consFrom? (scalar? [a, b, c, d, e, f, g, h]) (basic cs)
  | '\\' :: c :: cs => Result.consFrom? (shortEscape? c) (basic cs)
  | c :: cs => if isText c && c != '\\' then Result.cons c (basic cs) else none

def literalLines : List Char → Result
  | [] => none
  | '\'' :: '\'' :: '\'' :: '\'' :: '\'' :: rest => some (['\'', '\''], rest)
  | '\'' :: '\'' :: '\'' :: '\'' :: rest => some (['\''], rest)
  | '\'' :: '\'' :: '\'' :: rest => some ([], rest)
  | c :: cs => if isText c || c == '\n' then Result.cons c (literalLines cs) else none

/-- After a backslash that ends its line nothing counts up to the next character that is not blank.
-/
inductive Fold
  | text | lineEnd | gap
  deriving DecidableEq

def basicLines : Fold → List Char → Result
  | _, [] => none
  | .lineEnd, ' ' :: cs | .lineEnd, '\t' :: cs => basicLines .lineEnd cs
  | .lineEnd, '\n' :: cs => basicLines .gap cs
  | .lineEnd, _ :: _ => none
  | .gap, ' ' :: cs | .gap, '\t' :: cs | .gap, '\n' :: cs => basicLines .gap cs
  | _, '"' :: '"' :: '"' :: '"' :: '"' :: rest => some (['"', '"'], rest)
  | _, '"' :: '"' :: '"' :: '"' :: rest => some (['"'], rest)
  | _, '"' :: '"' :: '"' :: rest => some ([], rest)
  | _, '\\' :: '\n' :: cs => basicLines .gap cs
  | _, '\\' :: ' ' :: cs | _, '\\' :: '\t' :: cs => basicLines .lineEnd cs
  | _, '\\' :: 'u' :: a :: b :: c :: d :: cs =>
    Result.consFrom? (scalar? [a, b, c, d]) (basicLines .text cs)
  | _, '\\' :: 'U' :: a :: b :: c :: d :: e :: f :: g :: h :: cs =>
    Result.consFrom? (scalar? [a, b, c, d, e, f, g, h]) (basicLines .text cs)
  | _, '\\' :: c :: cs => Result.consFrom? (shortEscape? c) (basicLines .text cs)
  | _, c :: cs =>
    if (isText c || c == '\n') && c != '\\' then Result.cons c (basicLines .text cs) else none

def dropBreak : List Char → List Char
  | '\n' :: cs => cs
  | cs => cs

def read : List Char → Result
  | '"' :: '"' :: '"' :: cs => basicLines .text (dropBreak cs)
  | '\'' :: '\'' :: '\'' :: cs => literalLines (dropBreak cs)
  | '"' :: cs => basic cs
  | '\'' :: cs => literal cs
  | _ => none

def readLine : List Char → Result
  | '"' :: cs => basic cs
  | '\'' :: cs => literal cs
  | _ => none

end Lisplet.Toml.Quoted
