import Lisplet.Code
import Lisplet.Form

/-!
Lowering turns forms into code. A form becomes a statement or not by the place it stands in. Of a
declaration's initializers and of a conditional's alternatives only the first is kept, and a notice
tells of every form that had more.
-/

namespace Lisplet

inductive Place
  | program | call | binary | declare | cond
  deriving DecidableEq

/-- Whether a compound form that is itself a `child` becomes a statement when it stands in `place`.
-/
def Place.wraps : (place child : Place) → Bool
  | .call, .call | .binary, .call => false
  | _, .call => true
  | .program, .binary => true
  | _, .binary => false
  | .declare, .declare => false
  | _, .declare => true
  | .cond, .cond => false
  | _, .cond => true
  | _, .program => false

def Place.seat (place child : Place) (code : Code) : Code :=
  if place.wraps child then .statement code else code

def Operator.rendered : Operator → String
  | .eq => "=="
  | op => op.symbol

mutual

def Form.lower (place : Place) : Form → Code
  | .number text => .number text
  | .symbol text => .string text
  | .call callee args => place.seat .call (.call callee (Form.lowerAll .call args))
  | .binary op operands => place.seat .binary (.binary op.rendered (Form.lowerAll .binary operands))
  | .declare name inits => place.seat .declare (.declare name (Form.lowerFirst .declare inits))
  | .cond test conseq alts =>
    place.seat .cond (.cond (test.lower .cond :: conseq.lower .cond :: Form.lowerFirst .cond alts))

def Form.lowerAll (place : Place) : List Form → List Code
  | [] => []
  | f :: fs => f.lower place :: Form.lowerAll place fs

def Form.lowerFirst (place : Place) : List Form → List Code
  | [] => []
  | f :: _ => [f.lower place]

end

def lower (program : List Form) : List Code := Form.lowerAll .program program

inductive Notice
  | initializers (name : String) (dropped : Nat)
  | alternatives (dropped : Nat)
  deriving DecidableEq

def Notice.dropped : Notice → Nat
  | initializers _ n | alternatives n => n

mutual

def Form.notices : Form → List Notice
  | .number _ | .symbol _ => []
  | .call _ args => Form.noticesAll args
  | .binary _ operands => Form.noticesAll operands
  | .declare name inits =>
    Form.noticesFirst inits ++
      if 1 < inits.length then [.initializers name (inits.length - 1)] else []
  | .cond test conseq alts =>
    test.notices ++ conseq.notices ++ Form.noticesFirst alts ++
      if 1 < alts.length then [.alternatives (alts.length - 1)] else []

def Form.noticesAll : List Form → List Notice
  | [] => []
  | f :: fs => f.notices ++ Form.noticesAll fs

def Form.noticesFirst : List Form → List Notice
  | [] => []
  | f :: _ => f.notices

end

def notices (program : List Form) : List Notice := Form.noticesAll program

namespace Form

@[simp] theorem lowerAll_eq_map (place : Place) (fs : List Form) :
    lowerAll place fs = fs.map (lower place) := by
  induction fs with
  | nil => rfl
  | cons f fs ih => simp [lowerAll, ih]

@[simp] theorem noticesAll_eq_flatMap (fs : List Form) : noticesAll fs = fs.flatMap notices := by
  induction fs with
  | nil => rfl
  | cons f fs ih => simp [noticesAll, ih]

end Form

theorem lower_append (p q : List Form) : lower (p ++ q) = lower p ++ lower q := by simp [lower]

theorem notices_append (p q : List Form) : notices (p ++ q) = notices p ++ notices q := by
  simp [notices]

end Lisplet
